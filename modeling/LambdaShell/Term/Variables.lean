import LambdaShell.Names
import LambdaShell.Term.Basic

/-!
# Terms — variables

The names that occur free in a term and those that its binders introduce,
as lists with one entry per occurrence. A term is evaluated only when it is
closed; `issues` lists the names in the way.
-/

namespace LambdaShell

namespace Term

/-- **The free names of a term**, once per occurrence. -/
def freeVars : Term → List String
  | var x => [x]
  | lam x _ body => body.freeVars.filter (· ≠ x)
  | app fn arg => fn.freeVars ++ arg.freeVars

/-- **The names a term binds**, once per binder. -/
def boundVars : Term → List String
  | var _ => []
  | lam x _ body => x :: body.boundVars
  | app fn arg => fn.boundVars ++ arg.boundVars

@[simp] theorem mem_freeVars_var {x y : String} : x ∈ (var y).freeVars ↔ x = y := by
  simp [freeVars]

@[simp] theorem mem_freeVars_lam {x y : String} {a : Option Ty} {body : Term} :
    x ∈ (lam y a body).freeVars ↔ x ∈ body.freeVars ∧ x ≠ y := by
  simp [freeVars]

@[simp] theorem mem_freeVars_app {x : String} {fn arg : Term} :
    x ∈ (app fn arg).freeVars ↔ x ∈ fn.freeVars ∨ x ∈ arg.freeVars := by
  simp [freeVars]

/-- The free names in increasing order, each once. -/
def freeNames (t : Term) : List String := Names.sorted t.freeVars

/-- The bound names in increasing order, each once. -/
def boundNames (t : Term) : List String := Names.sorted t.boundVars

theorem mem_freeNames {x : String} {t : Term} : x ∈ t.freeNames ↔ x ∈ t.freeVars :=
  Names.mem_sorted

/-- **What keeps a term from being evaluated**: a free name. -/
structure Issue where
  /-- The name that has no meaning. -/
  name : String
deriving DecidableEq, Repr

/-- What an issue says. -/
def Issue.message (i : Issue) : String := "unknown name '" ++ i.name ++ "'"

/-- The issues of a term, in increasing order of their names. -/
def issues (t : Term) : List Issue := t.freeNames.map Issue.mk

/-- Whether a term has no issue. -/
def isClosed (t : Term) : Bool := t.issues.isEmpty

end Term

end LambdaShell
