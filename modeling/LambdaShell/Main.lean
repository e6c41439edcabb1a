import LambdaShell.CommandLine.Program
import Std.Time.Format

/-!
# The program

The outer layer: arguments, variables and lines come in, and what the
library answers goes out. Before a line is run, whatever stands on the way
to the files it names is read into a store; afterwards a file that the line
has written there is written in earnest.
-/

namespace LambdaShell

namespace Shell

open Storage (Location Path Store)

/-- The written form of a location. -/
def written (location : Location) : String := "/" ++ "/".intercalate location

/-- A store with what stands at a location. -/
def observe (store : Store) (location : Location) : IO Store := do
  if ← ((← IO.currentDir) / written location).isDir then return store.addDirectory location
  try return store.addFile location (← IO.FS.readBinFile (written location))
  catch _ => return store

/-- The store with what stands on the way of some paths. -/
def gather (paths : List Path) : IO Store := do
  let store := Store.empty (Path.parse (toString (← IO.currentDir))).parts
  (paths.flatMap store.route).foldlM observe store

/-- A file is written if a line has changed it. -/
def settle (before after : Store) (path : Path) : IO Unit := do
  match after.locate path, before.read path, after.read path with
  | .ok location, .ok old, .ok new =>
    if old.data != new.data then IO.FS.writeBinFile (written location) new
  | .ok location, .error _, .ok new => IO.FS.writeBinFile (written location) new
  | _, _, _ => return ()

/-- The time, as it is written into libraries. -/
def stamp : IO String := do return (← Std.Time.PlainDateTime.now).format "uuuu-MM-dd HH:mm:ss"

/-- Text for the user, shown at once. -/
def tell (text : String) : IO Unit := do
  let out ← IO.getStdout
  out.putStr text
  out.flush

/-- Messages at or above the level of the session. -/
def report (s : Session) (time : String) (messages : List Log.Message) : IO Unit :=
  (Log.atLeast s.settings.logLevel messages).forM fun m =>
    IO.eprintln (time ++ " - " ++ m.level.name ++ " - " ++ m.text)

/-- **One line of a session.** -/
def answer (s : Session) (line : String) : IO Session.Reply := do
  let paths := s.paths (.parse line)
  let store ← gather paths
  let time ← stamp
  let r := Session.line ⟨.standard, time⟩ { s with store } line
  report s time r.log
  tell r.output
  paths.forM (settle store r.session.store)
  return r

/-- The status after a line that ends the program. -/
def status : Session.Result → IO UInt32
  | .faulted f => do
    IO.eprintln f.message
    return 1
  | .unfinished => return 1
  | _ => return 0

/-- Lines one after another; the session afterwards, or the status. -/
def runLines (s : Session) : List String → IO (Except UInt32 Session)
  | [] => return .ok s
  | line :: lines => do
    let r ← answer s line
    if r.result.goesOn then runLines r.session lines else return .error (← status r.result)

/-- **The dialogue with the user.** -/
partial def converse (input : IO.FS.Stream) (s : Session) : IO UInt32 := do
  tell Session.prompt
  let line ← input.getLine
  let r ← answer s (if line.isEmpty then "EOF" else line)
  if r.result.goesOn then converse input r.session else status r.result

/-- **The run of the program** with valid settings. -/
def run (settings : Settings) (inv : CommandLine.Invocation) : IO UInt32 := do
  match ← runLines ⟨settings, .empty, .empty []⟩ (inv.libraries.map CommandLine.loadLine) with
  | .error code => return code
  | .ok s =>
    if inv.statements.isEmpty then
      tell (Session.banner ++ "\n")
      converse (← IO.getStdin) s
    else
      match ← runLines s inv.statements with
      | .error code => return code
      | .ok _ => return 0

end Shell

end LambdaShell

open LambdaShell in
/-- The entry point of the program. -/
def main (arguments : List String) : IO UInt32 := do
  match CommandLine.parse arguments with
  | .error .help =>
    IO.println CommandLine.usage
    return 0
  | .error .usage =>
    IO.eprintln CommandLine.usage
    return 2
  | .ok inv =>
    let known ← Settings.variableNames.mapM fun name => return (name, ← IO.getEnv name)
    match CommandLine.settings (fun name => (known.lookup name).join) inv with
    | .error e =>
      IO.eprint (CommandLine.complaint e)
      return 2
    | .ok settings => Shell.run settings inv
