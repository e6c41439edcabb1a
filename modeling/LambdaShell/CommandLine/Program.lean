import LambdaShell.CommandLine.Options
import LambdaShell.Session.Loop

/-!
# Command line — the program

The program as a function: from its arguments, the variables, its input and
the store to what it writes, the status it ends with and the store it
leaves. The settings given by variables have to be valid by themselves,
before the options change them.
-/

namespace LambdaShell

namespace CommandLine

open Storage (Store)

/-- **What the program leaves behind.** -/
structure Ending where
  status : Nat
  output : String
  errors : String
  log : List Log.Message
  store : Store
  /-- How the last line ended. -/
  result : Session.Result

/-- A message of the program about itself. -/
def complaint (e : ConfigError) : String := "lamcalc: " ++ e.message ++ "\n"

/-- The settings of an invocation. -/
def settings (lookup : String → Option String) (inv : Invocation) :
    Except ConfigError Settings :=
  match Settings.ofVariables lookup with
  | .error e => .error e
  | .ok s => s.change inv.changes

/-- The line that loads a library. -/
def loadLine (name : String) : String := ":load " ++ name

/-- The rest of a run after the libraries are loaded. -/
def converse (host : Session.Host) (s : Session) (statements : List String) (input : String) :
    Session.Dialogue :=
  if statements.isEmpty then s.dialogue host input else s.runLines host statements

/-- **The run of the program** with valid settings. -/
def runWith (host : Session.Host) (settings : Settings) (inv : Invocation) (input : String)
    (store : Store) : Ending :=
  let loaded := Session.runLines host ⟨settings, .empty, store⟩ (inv.libraries.map loadLine)
  if loaded.result.goesOn then
    let d := converse host loaded.session inv.statements input
    ⟨0, loaded.output ++ d.output, "", loaded.log ++ d.log, d.session.store, d.result⟩
  else ⟨0, loaded.output, "", loaded.log, loaded.session.store, loaded.result⟩

/-- **The run of the program**, unless its arguments stop it. -/
def run (host : Session.Host) (lookup : String → Option String) (arguments : List String)
    (input : String) (store : Store) : Except Stop Ending :=
  match parse arguments with
  | .error e => .error e
  | .ok inv =>
    match settings lookup inv with
    | .error e => .ok ⟨2, "", complaint e, [], store, .proceed⟩
    | .ok s => .ok (runWith host s inv input store)

end CommandLine

end LambdaShell
