import LambdaShell.Reduction.Strategy
import LambdaShell.Term.Nameless

/-!
# Evaluation — runs

A run repeats the steps of a strategy. It stops by itself at a term that
the strategy does not move, at a term that moves to itself up to renaming
(from there on it would turn in a circle), or at a term nested too deeply
to be worked on; the number of steps it may take is given from outside. At
the boundary a stop of its own comes first: a term is cut off only if it
has a proper next term.
-/

namespace LambdaShell

/-- **What a strategy does with a term.** -/
inductive Move where
  /-- Nothing: the term is normal for the strategy. -/
  | halt
  /-- A step to the same term up to renaming. -/
  | loop
  /-- The term or its reduct is nested too deeply. -/
  | overflow
  /-- A step to another term. -/
  | next (reduct : Term)
deriving DecidableEq, Repr

/-- How a run ends. -/
inductive Ending where
  /-- At a term that does not move. -/
  | normalForm
  /-- At a term that moves to itself up to renaming. -/
  | cycle
  /-- At a term nested too deeply. -/
  | tooDeep
  /-- Before a further step that was not allowed. -/
  | cutOff
deriving DecidableEq, Repr

/-- **A run**: the reducts in order, without the term it starts from, and the ending. -/
structure Run where
  reducts : List Term
  ending : Ending
deriving DecidableEq, Repr

/-- **What can be observed of an evaluation**, one observation at a time. -/
inductive Event where
  /-- A step; `term` is the reduct. -/
  | reduced (term : Term)
  /-- The term does not move. -/
  | normalForm (term : Term)
  /-- The term moves to itself up to renaming. -/
  | diverges (term : Term)
  /-- The term is nested too deeply. -/
  | tooDeep (term : Term)
deriving DecidableEq, Repr

namespace Strategy

/-- **The move of a strategy** on a term, under a limit of nesting. -/
def move (s : Strategy) (depth : Option Nat) (t : Term) : Move :=
  if t.fits depth then
    match s.step t with
    | none => .halt
    | some u => if u.fits depth then (if t.AlphaEq u then .loop else .next u) else .overflow
  else .overflow

/-- **The run from a term** with at most `steps` steps. -/
def run (s : Strategy) (depth : Option Nat) (steps : Nat) (t : Term) : Run :=
  match s.move depth t with
  | .halt => ⟨[], .normalForm⟩
  | .loop => ⟨[], .cycle⟩
  | .overflow => ⟨[], .tooDeep⟩
  | .next u =>
    match steps with
    | 0 => ⟨[], .cutOff⟩
    | steps + 1 =>
      let rest := s.run depth steps u
      ⟨u :: rest.reducts, rest.ending⟩

/-- **The first `count` events** of the evaluation of a term; fewer when it
ends before. -/
def events (s : Strategy) (depth : Option Nat) : Nat → Term → List Event
  | 0, _ => []
  | count + 1, t =>
    match s.move depth t with
    | .halt => [.normalForm t]
    | .loop => [.diverges t]
    | .overflow => [.tooDeep t]
    | .next u => .reduced u :: s.events depth count u

end Strategy

end LambdaShell
