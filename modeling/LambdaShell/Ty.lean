/-!
# Types

Simple types are built from named base types by arrows. Checking a term
gives a `Ty`: a simple type, or the fault that kept the term from having
one. A fault is itself a type in the places where a type can be written
down — an annotation or an entry of a context — but it never becomes a part
of an arrow: `Ty.arrow` refuses it, and the representation has no room for
one.
-/

namespace LambdaShell

/-- **Simple types.** -/
inductive SimpleType where
  /-- An atomic type such as `A` or `Nat`. -/
  | base (name : String)
  /-- The functions from `domain` to `codomain`. -/
  | arrow (domain codomain : SimpleType)
deriving DecidableEq, Repr, Inhabited

/-- **Why a term has no simple type.** -/
inductive TypeFault where
  /-- A variable that the context does not know. -/
  | unbound (name : String)
  /-- An abstraction that does not say the type of its argument. -/
  | unannotated (name : String)
  /-- The term in function position has a base type. -/
  | notFunction
  /-- The argument's type is not the domain of the function. -/
  | argumentMismatch
  /-- A fault that was written down, not found by checking. -/
  | stated (message : String)
deriving DecidableEq, Repr

/-- What a fault says. -/
def TypeFault.message : TypeFault → String
  | .unbound name => "unbound variable " ++ name
  | .unannotated name => "missing type annotation for " ++ name
  | .notFunction => "application of non-function"
  | .argumentMismatch => "argument type mismatch"
  | .stated message => message

/-- **The outcome of typing**: a simple type or a fault. -/
inductive Ty where
  /-- A simple type. -/
  | simple (type : SimpleType)
  /-- No type, for the reason given. -/
  | fault (reason : TypeFault)
deriving DecidableEq, Repr

/-- Why an arrow cannot be built. -/
inductive ArrowError where
  /-- One of the operands is a fault. -/
  | faultOperand
  /-- There is nothing to build it from. -/
  | noOperand
deriving DecidableEq, Repr

/-- What an arrow error says. -/
def ArrowError.message : ArrowError → String
  | .faultOperand => "ErrorType cannot be used to build an arrow"
  | .noOperand => "arrows() needs at least one type"

namespace Ty

/-- Whether the outcome is a fault. -/
def isFault : Ty → Bool
  | .simple _ => false
  | .fault _ => true

/-- **The arrow between two outcomes**, which have to be simple types. -/
def arrow : Ty → Ty → Except ArrowError Ty
  | .simple σ, .simple τ => .ok (.simple (.arrow σ τ))
  | _, _ => .error .faultOperand

/-- The arrow `t₁ -> t₂ -> … -> tₙ`, nested to the right. -/
def arrowAll : List Ty → Except ArrowError Ty
  | [] => .error .noOperand
  | [t] => .ok t
  | t :: u :: us =>
    match arrowAll (u :: us) with
    | .ok r => t.arrow r
    | .error e => .error e

end Ty

end LambdaShell
