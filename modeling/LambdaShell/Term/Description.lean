import LambdaShell.Term.Basic
import LambdaShell.Text.Quoted

/-!
# Terms — descriptions

The unabridged description of a term in log messages: every constructor
with its parts by name, so that no layout or abbreviation of the printed
form gets in the way.
-/

namespace LambdaShell

open Text (quoted)

/-- The description of a simple type. -/
def SimpleType.describe : SimpleType → String
  | base name => "Base(name=" ++ quoted name ++ ")"
  | arrow σ τ => "Arrow(domain=" ++ σ.describe ++ ", codomain=" ++ τ.describe ++ ")"

/-- The description of a type or fault. -/
def Ty.describe : Ty → String
  | simple τ => τ.describe
  | fault reason => "ErrorType(message=" ++ quoted reason.message ++ ")"

namespace Term

/-- The description of an annotation, which may be missing. -/
def describeDeclared : Option Ty → String
  | none => "None"
  | some ty => ty.describe

/-- **The description of a term.** -/
def describe : Term → String
  | var x => "Var(name=" ++ quoted x ++ ")"
  | lam x a body =>
    "Lam(name=" ++ quoted x ++ ", body=" ++ body.describe ++ ", ty=" ++ describeDeclared a ++ ")"
  | app fn arg => "App(fn=" ++ fn.describe ++ ", arg=" ++ arg.describe ++ ")"

end Term

end LambdaShell
