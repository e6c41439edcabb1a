import LambdaShell.Concrete.LibraryReader
import LambdaShell.Concrete.Printer
import LambdaShell.Storage.Store
import LambdaShell.Text.Newline

/-!
# Libraries

A library is a file of definitions. Its name is completed by the ending
`.lbd` and looked up in a directory. Reading it is decoding, unifying the
line ends and parsing; writing it puts each definition on a line of its own
after a comment with the time.
-/

namespace LambdaShell

open Storage

/-- **What can go wrong with a library**, in a way that is reported. -/
inductive LibraryError where
  /-- The file cannot be read. -/
  | unreadable (name : String) (path : Path) (e : AccessError)
  /-- The file does not hold definitions. -/
  | corrupted (path : Path) (e : SyntaxError)
  /-- There is a library of that name. -/
  | alreadyExists (name : String)
  /-- The file cannot be written. -/
  | unwritable (name : String) (path : Path) (e : AccessError)
deriving DecidableEq, Repr

/-- What a library error says. -/
def LibraryError.message : LibraryError → String
  | .unreadable name path e => "Unable to load " ++ name ++ ": " ++ e.message path
  | .corrupted path e => "File corrupted: " ++ path.text ++ ": " ++ e.message
  | .alreadyExists name => "A library named " ++ name ++ " already exists"
  | .unwritable name path e => "Unable to save " ++ name ++ ": " ++ e.message path

namespace Library

/-- **What can go wrong with a file**, in a way that no report covers. -/
inductive FileFault where
  /-- The content is no text. -/
  | undecodable
  /-- The path holds the character zero. -/
  | zeroInPath
deriving DecidableEq, Repr

/-- What a file fault says. -/
def FileFault.message : FileFault → String
  | .undecodable => "invalid text"
  | .zeroInPath => "embedded null byte"

/-- Why a library is not read or written. -/
inductive Failure where
  | reported (e : LibraryError)
  | fault (f : FileFault)
deriving DecidableEq, Repr

/-- The ending of library files. -/
def ending : String := ".lbd"

/-- The name of the file of a library. -/
def fileName (name : String) : String :=
  if ending.toList.isSuffixOf name.toList then name else name ++ ending

/-- **The file of a library** in a directory. -/
def file (directory : Path) (name : String) : Path := directory.join (.parse (fileName name))

/-- Whether a path can be given to a store. -/
def acceptable (path : Path) : Bool := !path.text.toList.contains '\x00'

/-- **The definitions of a library**, in order. -/
def load (store : Store) (directory : Path) (name : String) : Except Failure (List Definition) :=
  let path := file directory name
  if acceptable path then
    match store.read path with
    | .error e => .error (.reported (.unreadable name path e))
    | .ok content =>
      match String.fromUTF8? content with
      | none => .error (.fault .undecodable)
      | some source =>
        match Definition.parseAll (Text.unifyNewlines source) with
        | .error e => .error (.reported (.corrupted path e))
        | .ok definitions => .ok definitions
  else .error (.fault .zeroInPath)

/-- A definition as a line of a library. -/
def line (d : Definition) : String := d.name ++ " = " ++ d.term.text ++ ";"

/-- **The text of a library** that holds the definitions of an environment;
`stamp` is the time. -/
def dump (stamp : String) (env : Environment) : String :=
  "\n".intercalate (("# saved on " ++ stamp) :: env.definitions.map line) ++ "\n"

/-- **The store after the definitions of an environment are saved.** An
existing library is replaced only if `overwrite` is set. -/
def save (store : Store) (directory : Path) (name : String) (overwrite : Bool) (stamp : String)
    (env : Environment) : Except Failure Store :=
  let path := file directory name
  if acceptable path then
    if store.contains path && !overwrite then .error (.reported (.alreadyExists name))
    else
      match store.write path (dump stamp env).toUTF8 with
      | .error e => .error (.reported (.unwritable name path e))
      | .ok store' => .ok store'
  else .error (.fault .zeroInPath)

end Library

end LambdaShell
