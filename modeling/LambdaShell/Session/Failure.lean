import LambdaShell.Environment.Expansion
import LambdaShell.Latex
import LambdaShell.Library

/-!
# Sessions — failures

A line of a session can fail in two ways. A failure is reported to the user
and the session goes on. A fault has no report; it ends the line and is
left to whoever runs the session.
-/

namespace LambdaShell

namespace Session

/-- **What is reported to the user.** -/
inductive Failure where
  /-- The line or an argument is not well written. -/
  | unparsable (e : SyntaxError)
  /-- A library cannot be loaded or saved. -/
  | library (e : LibraryError)
  /-- A term cannot be expanded. -/
  | expansion (e : ExpansionError)
  /-- A term is nested too deeply. -/
  | tooDeep
deriving DecidableEq, Repr

/-- What a failure says. -/
def Failure.message : Failure → String
  | .unparsable e => e.message
  | .library e => e.message
  | .expansion e => e.message
  | .tooDeep => "Term nested too deeply to process."

/-- **What is not reported.** -/
inductive Fault where
  /-- A file or its path cannot be handled. -/
  | file (f : Library.FileFault)
  /-- An annotation that is a fault came into an arrow. -/
  | arrow (e : ArrowError)
  /-- A derivation has no commands. -/
  | premises (e : Latex.TooManyPremises)
deriving DecidableEq, Repr

/-- What a fault says. -/
def Fault.message : Fault → String
  | .file f => f.message
  | .arrow e => e.message
  | .premises e => e.message

end Session

end LambdaShell
