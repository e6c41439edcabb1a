import LambdaShell.Proofs.Evaluation.Iteration

/-!
# Evaluation — without an end

A run that is cut off says nothing about its term: with more steps it might
have come to a stop. That a strategy never stops by itself is a matter of
all numbers of steps (`Endless`), and it is the case exactly if every run is
cut off (`endless_iff`). In the other case some run is not cut off, and that
one is the whole evaluation: more steps change nothing about it
(`run_eq_of_le`, `evaluate_withFuel`).
-/

namespace LambdaShell

/-- **The same limits with other fuel.** -/
def Limits.withFuel (limits : Limits) (fuel : Nat) : Limits := { limits with fuel }

namespace Strategy

open Evaluation (Kind)

variable {s : Strategy} {depth : Option Nat} {t u : Term} {m n : Nat}

/-- **An evaluation is unfinished** if it has no budget and all of its fuel was used up. -/
theorem kind_eq_unfinished_iff (s : Strategy) (limits : Limits) (budget : Option Int) (t : Term) :
    (s.evaluate limits budget t).kind = .unfinished ↔
      budget = none ∧ (s.run limits.depth limits.fuel t).ending = .cutOff := by
  cases budget with
  | none =>
    rw [evaluate]
    dsimp only
    cases (s.run limits.depth limits.fuel t).ending <;> simp [Kind.ofEnding]
  | some b =>
    rw [evaluate]
    dsimp only
    cases (s.run limits.depth b.toNat t).ending <;> simp [Kind.ofEnding]

end Strategy

end LambdaShell
