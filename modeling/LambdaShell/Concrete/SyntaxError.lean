import LambdaShell.Concrete.Token
import LambdaShell.Text.Quoted

/-!
# Concrete syntax — errors

What is wrong with a text and where. A diagnostic is shown with the place
and, if the text is at hand, with the piece of it.
-/

namespace LambdaShell

/-- **A message about a place in a text.** -/
structure Diagnostic where
  message : String
  span : Span
  /-- The text, if it is at hand. -/
  source : Option String
deriving DecidableEq, Repr

/-- A diagnostic as it is shown. -/
def Diagnostic.text (d : Diagnostic) : String :=
  let place := d.message ++ " @ " ++ Nat.repr d.span.start ++ ":" ++ Nat.repr d.span.stop
  match d.source with
  | none => place
  | some source => place ++ ": " ++ Text.quoted (d.span.extract source)

/-- **What can be wrong with a text.** -/
inductive SyntaxFault where
  /-- A token that cannot come here. -/
  | unexpectedToken
  /-- A character that starts no token. -/
  | unexpectedCharacter (c : Char)
  /-- The text ends too early. -/
  | unexpectedEnd
deriving DecidableEq, Repr

/-- What a syntax fault says. -/
def SyntaxFault.message : SyntaxFault → String
  | .unexpectedToken => "Unexpected token"
  | .unexpectedCharacter c => "Unexpected character " ++ Text.quoted (String.ofList [c])
  | .unexpectedEnd => "Unexpected end of input"

/-- **A syntax error**: the fault, its place and the text it is in. -/
structure SyntaxError where
  fault : SyntaxFault
  span : Span
  source : String
deriving DecidableEq, Repr

/-- The diagnostic of a syntax error. -/
def SyntaxError.diagnostic (e : SyntaxError) : Diagnostic := ⟨e.fault.message, e.span, e.source⟩

/-- A syntax error as it is shown. -/
def SyntaxError.message (e : SyntaxError) : String := e.diagnostic.text

end LambdaShell
