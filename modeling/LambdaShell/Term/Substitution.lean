import LambdaShell.Term.Fresh
import LambdaShell.Term.Variables

/-!
# Terms — substitution

Capture-avoiding substitution. A binder that would capture a free name of
the replacement is renamed on the way down, to a name that occurs neither
in the replacement nor, free or bound, in its own body. Since that name is
not bound in the body, the renaming itself captures nothing and is the
plain replacement of a name by a name, `replaceName`, which keeps the size
of the term: substitution ends because it follows the size.
-/

namespace LambdaShell

namespace Term

/-- The free occurrences of `old` written as `new`, whatever binders are in
the way. -/
def replaceName (old new : String) : Term → Term
  | var x => if x = old then var new else var x
  | lam x a body => if x = old then lam x a body else lam x a (body.replaceName old new)
  | app fn arg => app (fn.replaceName old new) (arg.replaceName old new)

@[simp] theorem size_replaceName (old new : String) (t : Term) :
    (t.replaceName old new).size = t.size := by
  induction t with
  | var x => simp only [replaceName]; split <;> rfl
  | lam x a body ih => simp only [replaceName]; split <;> simp [size, ih]
  | app fn arg ihf iha => simp [replaceName, size, ihf, iha]

/-- The name a binder takes when `replacement` would be captured by it. -/
def freshBinder (binder : String) (body replacement : Term) : String :=
  Fresh.name binder (replacement.freeVars ++ body.freeVars ++ body.boundVars)

/-- **Substitution** of `replacement` for the free occurrences of `name`. -/
def subst (t : Term) (name : String) (replacement : Term) : Term :=
  match t with
  | var x => if x = name then replacement else var x
  | app fn arg => app (fn.subst name replacement) (arg.subst name replacement)
  | lam x a body =>
    if x = name ∨ name ∉ body.freeVars then lam x a body
    else if x ∈ replacement.freeVars then
      let y := freshBinder x body replacement
      lam y a ((body.replaceName x y).subst name replacement)
    else lam x a (body.subst name replacement)
termination_by t.size
decreasing_by all_goals simp only [size, size_replaceName]; omega

/-- **An abstraction with another binder**; other terms stay as they are. -/
def renameBinder (new : String) : Term → Term
  | lam x a body => lam new a (body.subst x (var new))
  | t => t

end Term

end LambdaShell
