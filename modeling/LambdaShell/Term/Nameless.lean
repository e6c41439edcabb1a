import LambdaShell.Term.Basic

/-!
# Terms — nameless forms

A term without the names of its binders: a bound variable is the number of
binders between it and its own. Two terms that differ in bound names only
have the same nameless form, and that is how terms are compared.
-/

namespace LambdaShell

/-- **Nameless terms.** -/
inductive Nameless where
  /-- A bound variable, by the number of binders it skips. -/
  | index (i : Nat)
  /-- A free variable, which keeps its name. -/
  | free (name : String)
  /-- An abstraction. -/
  | lam (body : Nameless)
  /-- An application. -/
  | app (fn arg : Nameless)
deriving DecidableEq, Repr

/-- A bound variable cannot skip a negative number of binders. -/
inductive IndexError where
  /-- The index is below zero. -/
  | negative
deriving DecidableEq, Repr

/-- What an index error says. -/
def IndexError.message : IndexError → String
  | .negative => "De Bruijn indices must be non-negative"

namespace Nameless

/-- The bound variable with a given index, which must not be negative. -/
def ofInt : Int → Except IndexError Nameless
  | .ofNat i => .ok (.index i)
  | .negSucc _ => .error .negative

/-- Whether the form is an abstraction. -/
def isLam : Nameless → Bool
  | lam _ => true
  | _ => false

/-- Whether the form is an application. -/
def isApp : Nameless → Bool
  | app _ _ => true
  | _ => false

/-- A text in parentheses, when they are asked for. -/
def parenthesized (wanted : Bool) (s : String) : String := if wanted then "(" ++ s ++ ")" else s

/-- **The written nameless form**, such as `λ. λ. 1 0`. -/
def text : Nameless → String
  | index i => Nat.repr i
  | free name => name
  | lam body => "λ. " ++ body.text
  | app fn arg =>
    parenthesized fn.isLam fn.text ++ " " ++ parenthesized (arg.isLam || arg.isApp) arg.text

end Nameless

namespace Term

/-- A variable seen from under the binders `scope`, innermost first. -/
def resolve (x : String) (scope : List String) : Nameless :=
  match scope.findIdx? (· = x) with
  | some i => .index i
  | none => .free x

/-- **The nameless form of a term** under the binders `scope`, innermost first. -/
def nameless (scope : List String) : Term → Nameless
  | var x => resolve x scope
  | lam x _ body => .lam (body.nameless (x :: scope))
  | app fn arg => .app (fn.nameless scope) (arg.nameless scope)

/-- **Equality up to the names of bound variables**; annotations do not count. -/
def AlphaEq (t u : Term) : Prop := t.nameless [] = u.nameless []

instance (t u : Term) : Decidable (AlphaEq t u) :=
  inferInstanceAs (Decidable (t.nameless [] = u.nameless []))

end Term

end LambdaShell
