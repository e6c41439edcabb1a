import LambdaShell.OrderedMap
import LambdaShell.Storage.Path
import LambdaShell.Text.Quoted

/-!
# Storage — stored files

A store is a tree of directories and files, given by what stands at each
location, and a current directory. A path is followed part by part: a part
can only be looked up in a directory, and `..` leads to the directory above.
So whatever a path leads to stands in a directory, or is one.
-/

namespace LambdaShell

namespace Storage

/-- A location: the parts from the top. -/
abbrev Location := List String

/-- **What stands at a location.** -/
inductive Entry where
  | file (content : ByteArray)
  | directory

/-- **A store.** -/
structure Store where
  /-- What stands below the top. -/
  entries : OrderedMap Location Entry
  /-- The current directory. -/
  current : Location

/-- **Why a file cannot be reached.** -/
inductive AccessError where
  /-- Something on the path does not exist. -/
  | missing
  /-- Something on the way is a file. -/
  | notDirectory
  /-- The path leads to a directory. -/
  | isDirectory
deriving DecidableEq, Repr

/-- What an access error says about a path. -/
def AccessError.message (e : AccessError) (path : Path) : String :=
  let reason := match e with
    | .missing => "[Errno 2] No such file or directory"
    | .notDirectory => "[Errno 20] Not a directory"
    | .isDirectory => "[Errno 21] Is a directory"
  reason ++ ": " ++ Text.quoted path.text

namespace Store

/-- What stands at a location; the top is a directory. -/
def entryAt (s : Store) (location : Location) : Option Entry :=
  if location = [] then some .directory else s.entries.get? location

/-- The location that a part leads to. -/
def enter (location : Location) (part : String) : Location :=
  if part = ".." then location.dropLast else location ++ [part]

/-- **The location reached from `location`** by the given parts. -/
def walk (s : Store) (location : Location) : List String → Except AccessError Location
  | [] => .ok location
  | part :: parts =>
    match s.entryAt location with
    | none => .error .missing
    | some (.file _) => .error .notDirectory
    | some .directory =>
      s.walk (enter location part) parts

/-- The location a path begins at. -/
def origin (s : Store) (path : Path) : Location :=
  if path.root = .relative then s.current else []

/-- The location a path leads to, where something may stand or not. -/
def locate (s : Store) (path : Path) : Except AccessError Location :=
  s.walk (s.origin path) path.parts

/-- All locations on the way that a path takes, whatever stands there. -/
def route (s : Store) (path : Path) : List Location :=
  path.parts.foldl (fun way part => enter (way.headD []) part :: way) [s.origin path]

/-- **The content of the file at a path.** -/
def read (s : Store) (path : Path) : Except AccessError ByteArray :=
  match s.locate path with
  | .error e => .error e
  | .ok location =>
    match s.entryAt location with
    | none => .error .missing
    | some .directory => .error .isDirectory
    | some (.file content) => .ok content

/-- Whether something stands at a path. -/
def contains (s : Store) (path : Path) : Bool :=
  match s.locate path with
  | .error _ => false
  | .ok location => (s.entryAt location).isSome

/-- **The store after a file is written**, in place of an earlier one. -/
def write (s : Store) (path : Path) (content : ByteArray) : Except AccessError Store :=
  match s.locate path with
  | .error e => .error e
  | .ok location =>
    match s.entryAt location with
    | some .directory => .error .isDirectory
    | _ => .ok { s with entries := s.entries.insert location (.file content) }

/-- The store with a directory at a location, and those above it. -/
def addDirectory (s : Store) (location : Location) : Store :=
  let levels := (List.range location.length).map fun n => location.take (n + 1)
  { s with entries := levels.foldl (fun m level => m.insert level .directory) s.entries }

/-- A store with nothing in it but its current directory and those above. -/
def empty (current : Location) : Store := addDirectory ⟨.empty, current⟩ current

/-- The store with a file at a location, and the directories above it. -/
def addFile (s : Store) (location : Location) (content : ByteArray) : Store :=
  let s' := s.addDirectory location.dropLast
  { s' with entries := s'.entries.insert location (.file content) }

/-- The files below the current directory, by their parts from there. -/
def files (s : Store) : List (List String × ByteArray) :=
  s.entries.entries.filterMap fun e =>
    match e.2 with
    | .directory => none
    | .file content =>
      if s.current.isPrefixOf e.1 then some (e.1.drop s.current.length, content) else none

end Store

end Storage

end LambdaShell
