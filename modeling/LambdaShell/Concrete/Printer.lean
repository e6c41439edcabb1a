import LambdaShell.Environment.Basic
import LambdaShell.Term.Variables

/-!
# Concrete syntax — printing

The written form of types and terms, with as few parentheses as the reader
needs. A printer may be given names for terms: a subterm that has a name is
shown by it, unless it is a variable or one of its free names is bound
around it, where the name would mean something else.
-/

namespace LambdaShell

/-- **The written form of a simple type**; arrows associate to the right. -/
def SimpleType.text : SimpleType → String
  | base name => name
  | arrow (.arrow σ τ) ρ => "(" ++ (SimpleType.arrow σ τ).text ++ ") -> " ++ ρ.text
  | arrow (.base name) ρ => name ++ " -> " ++ ρ.text

/-- The written form of a type or fault. -/
def Ty.text : Ty → String
  | simple τ => τ.text
  | fault reason => "error: " ++ reason.message

namespace Printer

/-- **How tightly a written term holds together.** -/
inductive Tightness where
  /-- An abstraction, which reaches as far as it can. -/
  | loose
  /-- An application. -/
  | row
  /-- A name. -/
  | tight
deriving DecidableEq, Repr

/-- A written term in function position. -/
def asFunction : String × Tightness → String
  | (s, .loose) => "(" ++ s ++ ")"
  | (s, _) => s

/-- A written term in argument position. -/
def asArgument : String × Tightness → String
  | (s, .tight) => s
  | (s, _) => "(" ++ s ++ ")"

/-- A written binder. -/
def binderText (x : String) : Option Ty → String
  | none => x
  | some ty => x ++ ":" ++ ty.text

/-- **The name by which a term is shown** under the binders `bound`, if any. -/
def shownName (naming : Term → Option String) (bound : List String) : Term → Option String
  | .var _ => none
  | t => if t.freeVars.any (· ∈ bound) then none else naming t

/-- **A written term**, with the names that `naming` gives to terms. -/
def write (naming : Term → Option String) (bound : List String) (t : Term) :
    String × Tightness :=
  match shownName naming bound t with
  | some name => (name, .tight)
  | none =>
    match t with
    | .var x => (x, .tight)
    | .app fn arg =>
      (asFunction (write naming bound fn) ++ " " ++ asArgument (write naming bound arg), .row)
    | .lam x a body =>
      ("λ" ++ binderText x a ++ ". " ++ (write naming (x :: bound) body).1, .loose)

end Printer

/-- **The written form of a term.** -/
def Term.text (t : Term) : String := (Printer.write (fun _ => none) [] t).1

/-- **The written form of a term in which known terms are shown by name.** -/
def Term.textIn (env : Environment) (t : Term) : String := (Printer.write env.aliasOf [] t).1

end LambdaShell
