import LambdaShell.Term.Substitution

/-!
# Reduction — single steps

One step of reduction in three disciplines. Each function contracts one
redex of its choice, or answers `none` when its discipline has nothing left
to do: normal order then has reached a term without redex, the two weak
disciplines one whose head does not move.
-/

namespace LambdaShell

namespace Reduction

/-- **Normal order**: the leftmost-outermost redex, under binders too. -/
def normalOrder : Term → Option Term
  | .app (.lam x _ body) arg => some (body.subst x arg)
  | .app fn arg =>
    match normalOrder fn with
    | some fn' => some (.app fn' arg)
    | none => (normalOrder arg).map (.app fn)
  | .lam x a body => (normalOrder body).map (.lam x a)
  | .var _ => none

/-- **Call by name**: the redex at the head, with its argument as it is. -/
def callByName : Term → Option Term
  | .app (.lam x _ body) arg => some (body.subst x arg)
  | .app fn arg => (callByName fn).map (.app · arg)
  | .lam _ _ _ => none
  | .var _ => none

/-- **Call by value**: the head first, then its argument, and the redex once
the argument no longer moves. -/
def callByValue : Term → Option Term
  | .app (.lam x a body) arg =>
    match callByValue arg with
    | some arg' => some (.app (.lam x a body) arg')
    | none => some (body.subst x arg)
  | .app fn arg => (callByValue fn).map (.app · arg)
  | .lam _ _ _ => none
  | .var _ => none

end Reduction

end LambdaShell
