import LambdaShell.Evaluation.Run
import LambdaShell.Log.Message

/-!
# Evaluation — outcomes

Evaluation is a run with a budget. With a budget the run takes at most that
many steps, and none when it is negative; being cut off then means that the
budget is used up. Without one the run goes on for as long as the caller's
`fuel` lasts, and being cut off means that it is not finished.
-/

namespace LambdaShell

/-- **The resources of an evaluation**: how deeply a term may be nested, and
how many steps an evaluation without budget may take. -/
structure Limits where
  /-- The deepest nesting worked on; `none` admits every term. -/
  depth : Option Nat
  /-- The number of steps of an evaluation without budget. -/
  fuel : Nat
deriving DecidableEq, Repr

/-- The resources of an ordinary session: a thousand levels, and more steps
than can be waited for. -/
def Limits.standard : Limits := ⟨some 1000, 1000000000000000000⟩

namespace Evaluation

/-- How an evaluation stopped. -/
inductive Kind where
  | normalForm
  | diverges
  | stepLimit
  | tooDeep
  /-- The fuel is used up; nothing is known of the term. -/
  | unfinished
deriving DecidableEq, Repr

/-- The kind of an ending, where a run that was cut off counts as `cut`. -/
def Kind.ofEnding (cut : Kind) : Ending → Kind
  | .normalForm => .normalForm
  | .cycle => .diverges
  | .tooDeep => .tooDeep
  | .cutOff => cut

/-- **The outcome of an evaluation.** -/
structure Outcome where
  kind : Kind
  /-- The term that was evaluated. -/
  start : Term
  /-- The terms it went through, in order. -/
  reducts : List Term
deriving DecidableEq, Repr

namespace Outcome

/-- Every term visited, the first one included. -/
def trace (o : Outcome) : List Term := o.start :: o.reducts

/-- The last term visited. -/
def term (o : Outcome) : Term := o.reducts.getLastD o.start

/-- The number of steps. -/
def stepCount (o : Outcome) : Nat := o.reducts.length

end Outcome

end Evaluation

open Evaluation in
/-- **Evaluation** of a term by a strategy, within limits and a budget. -/
def Strategy.evaluate (s : Strategy) (limits : Limits) (budget : Option Int) (t : Term) : Outcome :=
  match budget with
  | some b =>
    let r := s.run limits.depth b.toNat t
    ⟨.ofEnding .stepLimit r.ending, t, r.reducts⟩
  | none =>
    let r := s.run limits.depth limits.fuel t
    ⟨.ofEnding .unfinished r.ending, t, r.reducts⟩

namespace Evaluation

/-! ## Messages -/

/-- The messages of the steps from `t` through `us`. -/
def stepMessages (s : Strategy) : Term → List Term → List Log.Message
  | _, [] => []
  | t, u :: us => .reduced s t u :: stepMessages s u us

/-- The messages at the end of an evaluation. The step that the budget did
not allow was computed, and is reported. -/
def endMessages (s : Strategy) (budget : Option Int) (o : Outcome) : List Log.Message :=
  match o.kind with
  | .normalForm => []
  | .unfinished => []
  | .diverges => [.cycle s o.term]
  | .tooDeep => [.tooDeep s o.stepCount]
  | .stepLimit =>
    ((s.step o.term).map (.reduced s o.term)).toList ++ [.budgetSpent s (budget.getD 0)]

/-- **The messages of an evaluation**, in order. -/
def messages (s : Strategy) (budget : Option Int) (o : Outcome) : List Log.Message :=
  stepMessages s o.start o.reducts ++ endMessages s budget o

/-- The messages of a list of events that starts from `t`. -/
def eventMessages (s : Strategy) : Term → List Event → List Log.Message
  | _, [] => []
  | t, .reduced u :: es => .reduced s t u :: eventMessages s u es
  | t, .diverges u :: es => .cycle s u :: eventMessages s t es
  | t, _ :: es => eventMessages s t es

end Evaluation

end LambdaShell
