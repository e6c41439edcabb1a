import LambdaShell.Concrete.TermReader
import LambdaShell.Environment.Basic
import LambdaShell.Text.Blank

/-!
# Concrete syntax — libraries

The text of a library is a sequence of definitions, each ended by a
semicolon. A text of blanks is the empty library, whatever blanks they are.
The reader stands for the LALR(1) parser that starts from the production of
a library (see `Reader`).
-/

namespace LambdaShell

namespace LibraryReader

/-- **The state of a library reader**, with the definitions so far, last one
first. -/
inductive State where
  /-- Between two definitions. -/
  | between (done : List Definition)
  /-- After the name of a definition. -/
  | name (done : List Definition) (x : String)
  /-- Inside the term of a definition. -/
  | body (done : List Definition) (x : String) (state : TermReader.State)
deriving DecidableEq, Repr

/-- One token of a library. -/
def step (state : State) (token : Token) : Option State :=
  match state with
  | .between done =>
    match token with
    | .ident x => some (.name done x)
    | _ => none
  | .name done x => if token = .equals then some (.body done x TermReader.start) else none
  | .body done x inner =>
    if token = .semicolon then (TermReader.result inner).map fun t => .between (⟨x, t⟩ :: done)
    else (TermReader.step inner token).map (.body done x)

/-- The definitions read, if the last one is ended. -/
def result : State → Option (List Definition)
  | .between done => some done.reverse
  | _ => none

end LibraryReader

/-- **The reader of libraries.** -/
def libraryReader : Reader LibraryReader.State (List Definition) :=
  ⟨.between [], LibraryReader.step, LibraryReader.result⟩

/-- **The definitions a text denotes**, in order. -/
def Definition.parseAll (source : String) : Except SyntaxError (List Definition) :=
  if Text.allBlank source then .ok [] else libraryReader.read source

end LambdaShell
