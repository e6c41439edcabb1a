import LambdaShell.Evaluation.Outcome

/-!
# Evaluation — watched

An evaluation can be watched while it goes on: whoever asks for it says
what is to be done with each reduct. The events are taken one after
another, and the terms visited are kept. A step is counted when its reduct
is already there, so at the boundary an event that ends the evaluation
comes before the budget, and a reduct beyond the budget is neither kept nor
shown.
-/

namespace LambdaShell

namespace Evaluation

/-- **The report of an evaluation.** -/
structure Report where
  /-- How it stopped. -/
  kind : Kind
  /-- The term at which it stopped. -/
  term : Term
  /-- Every term visited, the first one included. -/
  trace : List Term
deriving DecidableEq, Repr

/-- The number of steps. -/
def Report.stepCount (r : Report) : Nat := r.trace.length - 1

variable {m : Type → Type} [Monad m]

/-- **The events are followed** from `start` through the reducts so far, and `onStep` is
done with each further one, up to `limit` steps. An evaluation with more
steps counts as `cut`. -/
def follow (limit : Int) (cut : Kind) (onStep : Term → m Unit) (start : Term) :
    Array Term → List Event → m Report
  | reducts, events =>
    let stop (kind : Kind) (term : Term) : m Report := pure ⟨kind, term, start :: reducts.toList⟩
    match events with
    | [] => stop .unfinished (reducts.back?.getD start)
    | .normalForm t :: _ => stop .normalForm t
    | .diverges t :: _ => stop .diverges t
    | .tooDeep _ :: _ => stop .tooDeep (reducts.back?.getD start)
    | .reduced t :: events =>
      if limit < reducts.size + 1 then stop cut (reducts.back?.getD start)
      else do
        onStep t
        follow limit cut onStep start (reducts.push t) events

end Evaluation

open Evaluation in
/-- **Evaluation that is watched**, within limits and a budget: `onStep` is done with each
reduct as soon as it is there. -/
def Strategy.evaluateWith {m : Type → Type} [Monad m] (s : Strategy) (limits : Limits)
    (budget : Option Int) (onStep : Term → m Unit) (t : Term) : m Report :=
  match budget with
  | some b => follow b .stepLimit onStep t #[] (s.events limits.depth (b.toNat + 1) t)
  | none =>
    follow limits.fuel .unfinished onStep t #[] (s.events limits.depth (limits.fuel + 1) t)

end LambdaShell
