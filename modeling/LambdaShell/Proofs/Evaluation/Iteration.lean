import LambdaShell.Evaluation.Outcome

/-!
# Evaluation — iterated steps

A run is a number of steps and a reason to stop. Here the two are taken
apart: `iterate` makes a given number of steps and looks at nothing else,
and a run is the iteration up to its last term together with the move of
the strategy on that term (`iterate_run`, `ending_run`). Evaluation with and
without a budget, and the list of events, are read off the same run.
-/

namespace LambdaShell

/-- How a run ends when a move is its last. -/
def Move.ending : Move → Ending
  | halt => .normalForm
  | loop => .cycle
  | overflow => .tooDeep
  | next _ => .cutOff

/-- What is observed of a move on `t`. -/
def Move.event (t : Term) : Move → Event
  | halt => .normalForm t
  | loop => .diverges t
  | overflow => .tooDeep t
  | next u => .reduced u

/-- The term at which a run from `t` stopped. -/
def Run.last (r : Run) (t : Term) : Term := r.reducts.getLastD t

theorem Run.last_cons (u t : Term) (r : Run) :
    Run.last ⟨u :: r.reducts, r.ending⟩ t = r.last u := by
  unfold last
  rw [List.getLastD_cons]

namespace Strategy

variable {s : Strategy} {t u : Term} {m n : Nat}

/-- **The term after `n` steps**, if the strategy can make that many. -/
def iterate (s : Strategy) : Nat → Term → Option Term
  | 0, t => some t
  | n + 1, t => (s.step t).bind (s.iterate n)

@[simp] theorem iterate_zero (s : Strategy) (t : Term) : s.iterate 0 t = some t := rfl

theorem iterate_succ_of_step (h : s.step t = some u) (n : Nat) :
    s.iterate (n + 1) t = s.iterate n u := by
  rw [iterate, h, Option.bind_some]

theorem iterate_succ_of_stuck (h : s.step t = none) (n : Nat) : s.iterate (n + 1) t = none := by
  rw [iterate, h, Option.bind_none]

/-- Steps can be counted in two parts. -/
theorem iterate_add (s : Strategy) (m n : Nat) (t : Term) :
    s.iterate (m + n) t = (s.iterate m t).bind (s.iterate n) := by
  induction m generalizing t with
  | zero => rw [Nat.zero_add, iterate_zero, Option.bind_some]
  | succ m ih =>
    rw [Nat.succ_add]
    cases hs : s.step t with
    | none => rw [iterate_succ_of_stuck hs, iterate_succ_of_stuck hs, Option.bind_none]
    | some u => rw [iterate_succ_of_step hs, iterate_succ_of_step hs, ih]

theorem exists_iterate_of_le (h : s.iterate n t = some u) (hmn : m ≤ n) :
    ∃ v, s.iterate m t = some v := by
  obtain ⟨k, rfl⟩ := Nat.exists_eq_add_of_le hmn
  rw [iterate_add] at h
  obtain ⟨v, hv, -⟩ := Option.bind_eq_some_iff.1 h
  exact ⟨v, hv⟩

/-! ## Moves -/

/-- **What a move can be**, with what it says about the step. -/
theorem move_cases (s : Strategy) (depth : Option Nat) (t : Term) :
    (s.step t = none ∧ s.move depth t = .halt) ∨
    (∃ u, s.step t = some u ∧ t.AlphaEq u ∧ s.move depth t = .loop) ∨
    (∃ u, s.step t = some u ∧ ¬ t.AlphaEq u ∧ s.move depth t = .next u) ∨
    (depth ≠ none ∧ s.move depth t = .overflow) := by
  -- a term that does not fit is a term under a limit
  have hlimit : ∀ v : Term, ¬ v.fits depth = true → depth ≠ none := by
    rintro v hv rfl
    exact hv v.fits_none
  unfold move
  by_cases ht : t.fits depth = true
  case neg => exact .inr (.inr (.inr ⟨hlimit t ht, if_neg ht⟩))
  rw [if_pos ht]
  cases hs : s.step t with
  | none => exact .inl ⟨rfl, rfl⟩
  | some u =>
    by_cases hu : u.fits depth = true
    case neg => exact .inr (.inr (.inr ⟨hlimit u hu, if_neg hu⟩))
    by_cases hloop : t.AlphaEq u
    · exact .inr (.inl ⟨u, rfl, hloop, by simp only [if_pos hu, if_pos hloop]⟩)
    · exact .inr (.inr (.inl ⟨u, rfl, hloop, by simp only [if_pos hu, if_neg hloop]⟩))

theorem step_of_move_next {depth : Option Nat} (h : s.move depth t = .next u) :
    s.step t = some u := by
  rcases s.move_cases depth t with ⟨-, hm⟩ | ⟨v, -, -, hm⟩ | ⟨v, hv, -, hm⟩ | ⟨-, hm⟩ <;>
    rw [h] at hm <;> cases hm
  exact hv

/-! ## Runs -/

/-- **Induction along a run.** A run stops at a term, which has a next term only
if no steps are left, or it goes on from the next term with one step less. -/
theorem run_induct (s : Strategy) (depth : Option Nat) {motive : Nat → Term → Run → Prop}
    (stop : ∀ steps t, (∀ u, s.move depth t = .next u → steps = 0) →
      motive steps t ⟨[], (s.move depth t).ending⟩)
    (next : ∀ steps t u r, s.move depth t = .next u → motive steps u r →
      motive (steps + 1) t ⟨u :: r.reducts, r.ending⟩)
    (steps : Nat) (t : Term) : motive steps t (s.run depth steps t) := by
  fun_induction run s depth steps t with
  | case1 steps t hm => simpa [hm, Move.ending] using stop steps t
  | case2 steps t hm => simpa [hm, Move.ending] using stop steps t
  | case3 steps t hm => simpa [hm, Move.ending] using stop steps t
  | case4 t u hm => simpa [hm, Move.ending] using stop 0 t
  | case5 t u hm steps ih =>
    rename_i ih
    exact next steps t u _ hm ih

/-- **A run is the iteration up to its last term.** -/
theorem iterate_run (s : Strategy) (depth : Option Nat) (steps : Nat) (t : Term) :
    s.iterate (s.run depth steps t).reducts.length t = some ((s.run depth steps t).last t) := by
  refine run_induct s depth
    (motive := fun _ t r => s.iterate r.reducts.length t = some (r.last t)) ?_ ?_ steps t
  · intro steps t _
    rfl
  · intro steps t u r hm ih
    rw [List.length_cons, iterate_succ_of_step (step_of_move_next hm), ih, Run.last_cons]

/-- **A run ends with the move on its last term.** -/
theorem ending_run (s : Strategy) (depth : Option Nat) (steps : Nat) (t : Term) :
    (s.run depth steps t).ending = (s.move depth ((s.run depth steps t).last t)).ending := by
  refine run_induct s depth
    (motive := fun _ t r => r.ending = (s.move depth (r.last t)).ending) ?_ ?_ steps t
  · intro steps t _
    rfl
  · intro steps t u r _ ih
    rw [Run.last_cons]
    exact ih

/-- A run that is cut off has made all the steps it was allowed. -/
theorem length_run_of_cutOff {depth : Option Nat} {steps : Nat}
    (h : (s.run depth steps t).ending = .cutOff) :
    (s.run depth steps t).reducts.length = steps := by
  revert h
  refine run_induct s depth
    (motive := fun steps _ r => r.ending = .cutOff → r.reducts.length = steps) ?_ ?_ steps t
  · intro steps t hlast hcut
    -- only a next term is cut off, and that happens with no steps left
    cases hm : s.move depth t with
    | next u => exact (hlast u hm).symm
    | halt => rw [hm] at hcut; cases hcut
    | loop => rw [hm] at hcut; cases hcut
    | overflow => rw [hm] at hcut; cases hcut
  · intro steps t u r _ ih hcut
    rw [List.length_cons, ih hcut]

/-- **The events are those of a run**: its steps, and the move on its last term. -/
theorem events_eq (s : Strategy) (depth : Option Nat) (steps : Nat) (t : Term) :
    s.events depth (steps + 1) t = (s.run depth steps t).reducts.map .reduced ++
      [(s.move depth ((s.run depth steps t).last t)).event ((s.run depth steps t).last t)] := by
  refine run_induct s depth
    (motive := fun steps t r => s.events depth (steps + 1) t =
      r.reducts.map .reduced ++ [(s.move depth (r.last t)).event (r.last t)]) ?_ ?_ steps t
  · intro steps t hlast
    rw [events]
    cases hm : s.move depth t with
    | halt => simp [Run.last, hm, Move.event]
    | loop => simp [Run.last, hm, Move.event]
    | overflow => simp [Run.last, hm, Move.event]
    -- no steps are left, so the list ends with the next term
    | next u => simp [Run.last, hm, Move.event, hlast u hm, events]
  · intro steps t u r hm ih
    rw [events, hm, Run.last_cons]
    simp only [List.map_cons, List.cons_append, ih]

end Strategy

/-! ## Evaluation -/

namespace Evaluation

/-- The number of steps a budget allows. -/
def allowance (limits : Limits) : Option Int → Nat
  | some b => b.toNat
  | none => limits.fuel

theorem Outcome.term_mem_trace (o : Outcome) : o.term ∈ o.trace := List.getLastD_mem_cons

/-- What it means to be cut off under a budget. -/
def Kind.cut : Option Int → Kind
  | some _ => .stepLimit
  | none => .unfinished

end Evaluation

namespace Strategy

open Evaluation

/-- **An evaluation is a run**, with or without a budget. -/
theorem evaluate_eq (s : Strategy) (limits : Limits) (budget : Option Int) (t : Term) :
    s.evaluate limits budget t =
      ⟨.ofEnding (.cut budget) (s.run limits.depth (allowance limits budget) t).ending, t,
        (s.run limits.depth (allowance limits budget) t).reducts⟩ := by
  cases budget <;> rfl

theorem iterate_evaluate (s : Strategy) (limits : Limits) (budget : Option Int) (t : Term) :
    s.iterate (s.evaluate limits budget t).stepCount t =
      some (s.evaluate limits budget t).term := by
  rw [evaluate_eq]
  exact s.iterate_run limits.depth _ t

/-- **What holds of the first term and is kept by every step** holds of all the
terms an evaluation goes through. -/
theorem forall_mem_trace {s : Strategy} {t : Term} {P : Term → Prop}
    (hstep : ∀ {u v}, s.step u = some v → P u → P v) (ht : P t) (limits : Limits)
    (budget : Option Int) :
    ∀ u ∈ (s.evaluate limits budget t).trace, P u := by
  rw [evaluate_eq, Outcome.trace]
  refine run_induct s limits.depth
    (motive := fun _ t r => P t → ∀ u ∈ t :: r.reducts, P u) ?_ ?_ _ t ht
  · intro steps t _ ht u hu
    rw [List.mem_singleton.1 hu]
    exact ht
  · intro steps t v r hm ih ht u hu
    rcases List.mem_cons.1 hu with rfl | hu
    · exact ht
    · exact ih (hstep (step_of_move_next hm) ht) u hu

theorem kind_evaluate (s : Strategy) (limits : Limits) (budget : Option Int) (t : Term) :
    (s.evaluate limits budget t).kind = .ofEnding (.cut budget)
      (s.move limits.depth (s.evaluate limits budget t).term).ending := by
  rw [evaluate_eq]
  exact congrArg (Kind.ofEnding (.cut budget)) (s.ending_run limits.depth _ t)

end Strategy

end LambdaShell
