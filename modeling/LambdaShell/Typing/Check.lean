import LambdaShell.OrderedMap
import LambdaShell.Term.Basic

/-!
# Typing — checking

The simple type of a term in a context. Ill-typed terms are not an error:
they have a fault as their type, and a fault met on the way is the type of
the whole. The one thing that cannot be done is to build an arrow from a
fault, which happens when an abstraction is annotated with one.
-/

namespace LambdaShell

/-- **Typing contexts**: the types of the free names, in order. -/
abbrev Context := OrderedMap String Ty

namespace Typing

/-- The type of a variable. -/
def typeOfVar (ctx : Context) (x : String) : Ty :=
  match ctx.get? x with
  | some ty => ty
  | none => .fault (.unbound x)

/-- The type of an application of a function of type `σ -> τ` to an argument
of the given type. -/
def applyType (σ τ : SimpleType) : Ty → Ty
  | .fault reason => .fault reason
  | .simple ρ => if ρ = σ then .simple τ else .fault .argumentMismatch

/-- **The type of a term** in a context. -/
def typeOf (ctx : Context) : Term → Except ArrowError Ty
  | .var x => .ok (typeOfVar ctx x)
  | .lam x none _ => .ok (.fault (.unannotated x))
  | .lam x (some domain) body =>
    match typeOf (ctx.insert x domain) body with
    | .error e => .error e
    | .ok (.fault reason) => .ok (.fault reason)
    | .ok (.simple τ) => domain.arrow (.simple τ)
  | .app fn arg =>
    match typeOf ctx fn with
    | .error e => .error e
    | .ok (.fault reason) => .ok (.fault reason)
    | .ok (.simple (.base _)) => .ok (.fault .notFunction)
    | .ok (.simple (.arrow σ τ)) =>
      match typeOf ctx arg with
      | .error e => .error e
      | .ok ty => .ok (applyType σ τ ty)

end Typing

end LambdaShell
