import LambdaShell.Evaluation.Watched
import LambdaShell.Proofs.Evaluation.Iteration

/-!
# Evaluation — the step sequence, cut off

A strategy takes a term through a sequence of terms, which ends or goes on
forever. An evaluation shows the beginning of this sequence and nothing
else. It goes as far as the first term at which the strategy rests
(`FirstRests`), or as far as its budget if that comes earlier
(`evaluate_truncates`): what is compared with the budget is the number of
terms visited before the reduct at hand, so that a rest exactly at the
budget is still found, and a budget below zero counts as none at all.

A watched evaluation consumes the events of a run. What it has seen and
what is still to come is always the whole run (`follow_events`), and so it
reports the outcome of the evaluation and is shown its reducts, each once
and in order (`evaluateWith_eq`).
-/

namespace LambdaShell

namespace Evaluation

/-- The report of an outcome. -/
def Outcome.report (o : Outcome) : Report := ⟨o.kind, o.term, o.trace⟩

end Evaluation

namespace Strategy

open Evaluation

variable {s : Strategy} {t u : Term} {k : Nat}

/-- **The strategy rests at a term**: it makes no step, or one that leads back to the
same term up to bound names. -/
def Rests (s : Strategy) (t : Term) : Prop := ∀ u, s.step t = some u → t.AlphaEq u

/-- **The strategy first rests after `k` steps**, at the term `u`. -/
structure FirstRests (s : Strategy) (t : Term) (k : Nat) (u : Term) : Prop where
  reached : s.iterate k t = some u
  rests : s.Rests u
  before : ∀ i < k, ∀ v, s.iterate i t = some v → ¬ s.Rests v

/-- What becomes of an evaluation at a term at which the strategy rests. -/
def restKind (s : Strategy) (u : Term) : Kind :=
  if s.step u = none then .normalForm else .diverges

/-- What is observed at a term at which the strategy rests. -/
def restEvent (s : Strategy) (u : Term) : Event :=
  if s.step u = none then .normalForm u else .diverges u

/-- **The step sequence from `t`, cut off after `b` steps**, as a report shows it. -/
structure Truncated (s : Strategy) (t : Term) (b : Nat) (cut : Kind) (r : Report) : Prop where
  /-- It ends where the strategy first rests, if this is in time. -/
  rests : ∀ k u, s.FirstRests t k u → k ≤ b →
    r.kind = s.restKind u ∧ r.term = u ∧ r.stepCount = k
  /-- If not, it is cut off after `b` steps. -/
  cut_off : (∀ k u, s.FirstRests t k u → b < k) →
    r.kind = cut ∧ s.iterate b t = some r.term ∧ r.stepCount = b
  /-- The terms visited are the first of the sequence. -/
  trace_eq : ∀ i ≤ r.stepCount, r.trace[i]? = s.iterate i t
  length_eq : r.trace.length = r.stepCount + 1
  /-- The evaluation stopped at the last of them. -/
  last_eq : r.trace.getLast? = some r.term

/-- **The events of the step sequence from `t`**, as far as `count` of them show it. -/
structure Observed (s : Strategy) (t : Term) (count : Nat) (events : List Event) : Prop where
  /-- The steps up to the first rest are observed, then the rest, and nothing more. -/
  rests : ∀ k u, s.FirstRests t k u → ∀ i < count, events[i]? =
    if i < k then (s.iterate (i + 1) t).map .reduced
    else if i = k then some (s.restEvent u) else none
  /-- Where the strategy never rests, there is no end of steps. -/
  goes_on : (∀ k u, ¬ s.FirstRests t k u) → ∀ i < count,
    ∃ v, s.iterate (i + 1) t = some v ∧ events[i]? = some (.reduced v)

/-! ## Resting -/

/-- There is one first rest only. -/
theorem FirstRests.unique {k' : Nat} {u' : Term} (h : s.FirstRests t k u)
    (h' : s.FirstRests t k' u') : k = k' ∧ u = u' := by
  have hk : k = k' := by
    rcases Nat.lt_trichotomy k k' with hlt | heq | hlt
    · exact absurd h.rests (h'.before k hlt u h.reached)
    · exact heq
    · exact absurd h'.rests (h.before k' hlt u' h'.reached)
  subst hk
  exact ⟨rfl, Option.some.inj (h.reached.symm.trans h'.reached)⟩

/-- The strategy does not rest where it moves to another term. -/
theorem not_rests_of_move_next {depth : Option Nat} (h : s.move depth t = .next u) :
    ¬ s.Rests t := by
  rcases s.move_cases depth t with ⟨-, hm⟩ | ⟨v, -, -, hm⟩ | ⟨v, hv, hne, hm⟩ | ⟨-, hm⟩ <;>
    rw [h] at hm <;> cases hm
  exact fun hrests => hne (hrests u hv)

/-- **A move that is no overflow** is made at a term at which the strategy rests, or is
its step to another term. -/
theorem move_cases_of_ne_overflow {depth : Option Nat} (h : s.move depth u ≠ .overflow) :
    (s.Rests u ∧ (∀ cut, Kind.ofEnding cut (s.move depth u).ending = s.restKind u) ∧
        (s.move depth u).event u = s.restEvent u) ∨
      ∃ v, s.move depth u = .next v := by
  rcases s.move_cases depth u with ⟨hs, hm⟩ | ⟨v, hs, hloop, hm⟩ | ⟨v, -, -, hm⟩ | ⟨-, hm⟩
  · refine .inl ⟨?_, ?_, ?_⟩
    · intro v hv
      rw [hs] at hv
      cases hv
    · rw [hm, restKind, if_pos hs]
      exact fun _ => rfl
    · rw [hm, restEvent, if_pos hs]
      rfl
  · have hmoves : s.step u ≠ none := by rw [hs]; simp
    refine .inl ⟨?_, ?_, ?_⟩
    · intro w hw
      rw [hs] at hw
      cases hw
      exact hloop
    · rw [hm, restKind, if_neg hmoves]
      exact fun _ => rfl
    · rw [hm, restEvent, if_neg hmoves]
      rfl
  · exact .inr ⟨v, hm⟩
  · exact absurd hm h

/-! ## Runs -/

theorem length_run_le (s : Strategy) (depth : Option Nat) (steps : Nat) (t : Term) :
    (s.run depth steps t).reducts.length ≤ steps := by
  refine run_induct s depth (motive := fun steps _ r => r.reducts.length ≤ steps) ?_ ?_ steps t
  · intro steps t _
    exact Nat.zero_le steps
  · intro steps t u r _ ih
    exact Nat.succ_le_succ ih

/-- **The terms of a run are those of the step sequence.** -/
theorem getElem?_run (s : Strategy) (depth : Option Nat) (steps : Nat) (t : Term) :
    ∀ i ≤ (s.run depth steps t).reducts.length,
      (t :: (s.run depth steps t).reducts)[i]? = s.iterate i t := by
  refine run_induct s depth
    (motive := fun _ t r => ∀ i ≤ r.reducts.length, (t :: r.reducts)[i]? = s.iterate i t)
    ?_ ?_ steps t
  · intro steps t _ i hi
    rw [Nat.le_zero.1 hi]
    rfl
  · intro steps t u r hm ih i hi
    cases i with
    | zero => rfl
    | succ i =>
      rw [iterate_succ_of_step (step_of_move_next hm), ← ih i (Nat.le_of_succ_le_succ hi)]
      rfl

/-- **A run does not go past a rest.** -/
theorem not_rests_run (s : Strategy) (depth : Option Nat) (steps : Nat) (t : Term) :
    ∀ i < (s.run depth steps t).reducts.length, ∀ v, s.iterate i t = some v → ¬ s.Rests v := by
  refine run_induct s depth
    (motive := fun _ t r => ∀ i < r.reducts.length, ∀ v, s.iterate i t = some v → ¬ s.Rests v)
    ?_ ?_ steps t
  · intro steps t _ i hi
    exact absurd hi (Nat.not_lt_zero i)
  · intro steps t u r hm ih i hi v hv
    cases i with
    | zero =>
      cases hv
      exact not_rests_of_move_next hm
    | succ i =>
      rw [iterate_succ_of_step (step_of_move_next hm)] at hv
      exact ih i (Nat.lt_of_succ_lt_succ hi) v hv

/-- **Where a run stops**, if not at a term nested too deeply: at the first rest, or with no
steps left and the rest still to come. -/
theorem run_cases (s : Strategy) (depth : Option Nat) (steps : Nat) (t : Term)
    (h : s.move depth ((s.run depth steps t).last t) ≠ .overflow) :
    s.FirstRests t (s.run depth steps t).reducts.length ((s.run depth steps t).last t) ∨
      ((s.run depth steps t).reducts.length = steps ∧
        (∀ k u, s.FirstRests t k u → steps < k) ∧
        ∃ v, s.move depth ((s.run depth steps t).last t) = .next v) := by
  rcases move_cases_of_ne_overflow h with ⟨hrests, -⟩ | ⟨v, hm⟩
  · exact .inl ⟨s.iterate_run depth steps t, hrests, s.not_rests_run depth steps t⟩
  · have hlength : (s.run depth steps t).reducts.length = steps := by
      apply length_run_of_cutOff
      rw [ending_run, hm]
      rfl
    refine .inr ⟨hlength, ?_, v, hm⟩
    intro k u hk
    apply Nat.lt_of_not_le
    intro hle
    rcases Nat.lt_or_eq_of_le hle with hlt | rfl
    · -- the run went past the rest
      have hpast := Nat.lt_of_lt_of_eq hlt hlength.symm
      exact s.not_rests_run depth steps t k hpast u hk.reached hk.rests
    · -- the run stopped at the rest, where it could still move
      have hlast := s.iterate_run depth k t
      rw [hlength, hk.reached] at hlast
      exact not_rests_of_move_next hm (Option.some.inj hlast ▸ hk.rests)

/-- **A run is the step sequence cut off** after the steps it may take. -/
theorem truncated_run (s : Strategy) (depth : Option Nat) (steps : Nat) (t : Term) (cut : Kind)
    (h : s.move depth ((s.run depth steps t).last t) ≠ .overflow) :
    s.Truncated t steps cut ⟨.ofEnding cut (s.run depth steps t).ending,
      (s.run depth steps t).last t, t :: (s.run depth steps t).reducts⟩ where
  rests := by
    intro k u hk hle
    rcases s.run_cases depth steps t h with hrun | ⟨-, hlater, -⟩
    · obtain ⟨rfl, rfl⟩ := hk.unique hrun
      refine ⟨?_, rfl, rfl⟩
      rcases move_cases_of_ne_overflow h with ⟨-, hkind, -⟩ | ⟨v, hm⟩
      · rw [← hkind cut, ending_run]
      · exact absurd hrun.rests (not_rests_of_move_next hm)
    · exact absurd hle (Nat.not_le_of_lt (hlater k u hk))
  cut_off := by
    intro hlater
    rcases s.run_cases depth steps t h with hrun | ⟨hlength, -, v, hm⟩
    · exact absurd (hlater _ _ hrun) (Nat.not_lt_of_le (s.length_run_le depth steps t))
    · refine ⟨?_, ?_, hlength⟩
      · show Kind.ofEnding cut (s.run depth steps t).ending = cut
        rw [ending_run, hm]
        rfl
      · have hlast := s.iterate_run depth steps t
        rwa [hlength] at hlast
  trace_eq := s.getElem?_run depth steps t
  length_eq := rfl
  last_eq := by
    rw [Run.last, List.getLastD_eq_getLast?, List.getLast?_cons]

/-! ## Events -/

/-- The events before the last are the steps of the run. -/
theorem getElem?_events_of_lt {depth : Option Nat} {steps i : Nat}
    (hi : i < (s.run depth steps t).reducts.length) :
    (s.events depth (steps + 1) t)[i]? = (s.iterate (i + 1) t).map .reduced := by
  have hterm := s.getElem?_run depth steps t (i + 1) hi
  rw [List.getElem?_cons_succ] at hterm
  rw [events_eq, List.getElem?_append_left (by rwa [List.length_map]), List.getElem?_map, hterm]

/-- The last event is the move on the last term of the run. -/
theorem getElem?_events_length (s : Strategy) (depth : Option Nat) (steps : Nat) (t : Term) :
    (s.events depth (steps + 1) t)[(s.run depth steps t).reducts.length]? =
      some ((s.move depth ((s.run depth steps t).last t)).event
        ((s.run depth steps t).last t)) := by
  rw [events_eq, List.getElem?_append_right (Nat.le_of_eq (List.length_map _)),
    List.length_map, Nat.sub_self, List.getElem?_cons_zero]

/-- A run that stops at a rest shows its steps, then the rest, and nothing more. -/
theorem getElem?_events_of_rests {depth : Option Nat} {steps : Nat}
    (hmove : s.move depth ((s.run depth steps t).last t) ≠ .overflow)
    (hrests : s.Rests ((s.run depth steps t).last t)) (i : Nat) :
    (s.events depth (steps + 1) t)[i]? =
      if i < (s.run depth steps t).reducts.length then (s.iterate (i + 1) t).map .reduced
      else if i = (s.run depth steps t).reducts.length then
        some (s.restEvent ((s.run depth steps t).last t))
      else none := by
  rcases Nat.lt_trichotomy i (s.run depth steps t).reducts.length with hlt | rfl | hgt
  · rw [if_pos hlt, getElem?_events_of_lt hlt]
  · rw [if_neg (Nat.lt_irrefl _), if_pos rfl, getElem?_events_length]
    rcases move_cases_of_ne_overflow hmove with ⟨-, -, hevent⟩ | ⟨v, hm⟩
    · rw [hevent]
    · exact absurd hrests (not_rests_of_move_next hm)
  · rw [if_neg (Nat.not_lt_of_gt hgt), if_neg (Nat.ne_of_gt hgt), events_eq]
    apply List.getElem?_eq_none
    rw [List.length_append, List.length_map, List.length_singleton]
    exact hgt

/-- A run that can still move shows a step at every turn. -/
theorem exists_getElem?_events {depth : Option Nat} {steps i : Nat}
    (hlength : (s.run depth steps t).reducts.length = steps)
    (hm : s.move depth ((s.run depth steps t).last t) = .next u) (hi : i ≤ steps) :
    ∃ v, s.iterate (i + 1) t = some v ∧
      (s.events depth (steps + 1) t)[i]? = some (.reduced v) := by
  have hreached := s.iterate_run depth steps t
  rw [hlength] at hreached
  rcases Nat.lt_or_eq_of_le hi with hlt | rfl
  · obtain ⟨v, hv⟩ := exists_iterate_of_le hreached hlt
    refine ⟨v, hv, ?_⟩
    rw [getElem?_events_of_lt (Nat.lt_of_lt_of_eq hlt hlength.symm), hv, Option.map_some]
  · refine ⟨u, ?_, ?_⟩
    · rw [iterate_add, hreached, Option.bind_some, iterate_succ_of_step (step_of_move_next hm),
        iterate_zero]
    · have hlast := s.getElem?_events_length depth i t
      rwa [hlength, hm] at hlast

/-- **Events are those of the step sequence**, if no term is nested too deeply. -/
theorem observed_events (s : Strategy) (depth : Option Nat) (count : Nat) (t : Term)
    (h : ∀ u, Event.tooDeep u ∉ s.events depth count t) :
    s.Observed t count (s.events depth count t) := by
  cases count with
  | zero => exact ⟨fun _ _ _ i hi => absurd hi i.not_lt_zero, fun _ i hi => absurd hi i.not_lt_zero⟩
  | succ steps =>
    have hmove : s.move depth ((s.run depth steps t).last t) ≠ .overflow := by
      intro hm
      apply h ((s.run depth steps t).last t)
      rw [events_eq, hm]
      exact List.mem_append_right _ (List.mem_singleton.2 rfl)
    refine ⟨?_, ?_⟩
    · intro k u hk i hi
      rcases s.run_cases depth steps t hmove with hrun | ⟨hlength, hlater, w, hm⟩
      · obtain ⟨rfl, rfl⟩ := hk.unique hrun
        exact getElem?_events_of_rests hmove hrun.rests i
      · have hle := Nat.le_of_lt_succ hi
        obtain ⟨v, hv, hevent⟩ := exists_getElem?_events hlength hm hle
        rw [if_pos (Nat.lt_of_le_of_lt hle (hlater k u hk)), hevent, hv, Option.map_some]
    · intro hnever i hi
      rcases s.run_cases depth steps t hmove with hrun | ⟨hlength, -, w, hm⟩
      · exact absurd hrun (hnever _ _)
      · exact exists_getElem?_events hlength hm (Nat.le_of_lt_succ hi)

/-! ## Watching -/

/-- **Following the events of a run.** With as many steps left as the limit allows beyond
the reducts so far, what is shown and what is reported is the rest of the run. -/
theorem follow_events {m : Type → Type} [Monad m] [LawfulMonad m] (s : Strategy)
    (depth : Option Nat) (limit : Int) (cut : Kind) (onStep : Term → m Unit) (start : Term)
    (steps : Nat) (t : Term) :
    ∀ reducts : Array Term, reducts.back?.getD start = t → limit.toNat = reducts.size + steps →
      follow limit cut onStep start reducts (s.events depth (steps + 1) t) = (do
        forM (s.run depth steps t).reducts onStep
        pure ⟨.ofEnding cut (s.run depth steps t).ending, (s.run depth steps t).last t,
          start :: (reducts.toList ++ (s.run depth steps t).reducts)⟩) := by
  refine run_induct s depth
    (motive := fun steps t r => ∀ reducts : Array Term, reducts.back?.getD start = t →
      limit.toNat = reducts.size + steps →
      follow limit cut onStep start reducts (s.events depth (steps + 1) t) = (do
        forM r.reducts onStep
        pure ⟨.ofEnding cut r.ending, r.last t, start :: (reducts.toList ++ r.reducts)⟩))
    ?_ ?_ steps t
  · intro steps t hlast reducts hback hlimit
    rw [events]
    cases hm : s.move depth t with
    | halt => simp [follow, Move.ending, Kind.ofEnding, Run.last]
    | loop => simp [follow, Move.ending, Kind.ofEnding, Run.last]
    | overflow => simp [follow, Move.ending, Kind.ofEnding, Run.last, hback]
    | next u =>
      -- the reducts so far are all the limit allows
      have hfull : limit < reducts.size + 1 := by
        have := hlast u hm
        omega
      simp [follow, hfull, Move.ending, Kind.ofEnding, Run.last, hback]
  · intro steps t u r hm ih reducts hback hlimit
    have hroom : ¬ limit < reducts.size + 1 := by omega
    have hrest := ih (reducts.push u) (by simp) (by rw [Array.size_push]; omega)
    rw [events, hm]
    simp only [follow, hroom, if_false, hrest, List.forM_cons, bind_assoc, Run.last_cons,
      Array.toList_push, List.append_assoc, List.singleton_append]

/-- **A watched evaluation reports the outcome**, and is shown the reducts one after another. -/
theorem evaluateWith_eq {m : Type → Type} [Monad m] [LawfulMonad m] (s : Strategy)
    (limits : Limits) (budget : Option Int) (onStep : Term → m Unit) (t : Term) :
    s.evaluateWith limits budget onStep t = (do
      forM (s.evaluate limits budget t).reducts onStep
      pure (s.evaluate limits budget t).report) := by
  cases budget with
  | some b =>
    exact s.follow_events limits.depth b .stepLimit onStep t b.toNat t #[] rfl
      (Nat.zero_add _).symm
  | none =>
    exact s.follow_events limits.depth limits.fuel .unfinished onStep t limits.fuel t #[] rfl
      (by simp)

/-! ## Evaluation -/

/-- **Evaluation is the step sequence, cut off.** Unless a term is nested too deeply, an
evaluation reports the terms of the sequence up to the first rest, or only as
many as its budget allows if the rest is further away; without a budget it
goes on for as long as the fuel lasts. Whoever watches it is shown the terms
it reports except the first, each once and in order. The events are the
steps up to the first rest, then the rest, and nothing more; without a rest
they are steps forever. -/
theorem evaluate_truncates (s : Strategy) (t : Term) :
    (∀ (limits : Limits) (budget : Option Int),
      ((s.evaluate limits budget t).kind ≠ .tooDeep →
        s.Truncated t (allowance limits budget) (.cut budget)
          (s.evaluate limits budget t).report) ∧
      ∀ (m : Type → Type) [Monad m] [LawfulMonad m] (onStep : Term → m Unit),
        s.evaluateWith limits budget onStep t = (do
          forM (s.evaluate limits budget t).report.trace.tail onStep
          pure (s.evaluate limits budget t).report)) ∧
    ∀ (depth : Option Nat) (count : Nat), (∀ u, Event.tooDeep u ∉ s.events depth count t) →
      s.Observed t count (s.events depth count t) := by
  refine ⟨?_, fun depth count => s.observed_events depth count t⟩
  intro limits budget
  refine ⟨?_, fun m _ _ onStep => s.evaluateWith_eq limits budget onStep t⟩
  intro hkind
  rw [kind_evaluate] at hkind
  have hmove : s.move limits.depth (s.evaluate limits budget t).term ≠ .overflow := by
    intro hm
    rw [hm] at hkind
    exact hkind rfl
  rw [evaluate_eq] at hmove ⊢
  exact s.truncated_run limits.depth _ t _ hmove

/-- `(λz. z) ((λx. x x) (λy. y y))` comes to rest after one step. A budget of one
is enough to find this, and a budget below zero allows no step at all. -/
theorem evaluate_truncates_at_budget :
    let twice (x : String) : Term := .lam x none (.app (.var x) (.var x))
    let u : Term := .app (twice "x") (twice "y")
    let t : Term := .app (.lam "z" none (.var "z")) u
    let report (budget : Int) : Report := (normalOrder.evaluate .standard (some budget) t).report
    normalOrder.FirstRests t 1 u ∧
      ((report 1).kind = .diverges ∧ (report 1).term = u ∧ (report 1).stepCount = 1) ∧
      ((report (-3)).kind = .stepLimit ∧ (report (-3)).term = t ∧ (report (-3)).stepCount = 0) ∧
      StateT.run (normalOrder.evaluateWith .standard (some 1)
        (fun v => (modify (· ++ [v]) : StateM (List Term) Unit)) t) [] = (report 1, [u]) ∧
      (normalOrder.events (some 1000) 5 t)[1]? = some (.diverges u) ∧
      (normalOrder.events (some 1000) 5 t)[2]? = none := by
  intro twice u t report
  have hstep : normalOrder.step u = some (.app (twice "y") (twice "y")) := by decide +kernel
  have hrests : normalOrder.FirstRests t 1 u := by
    refine ⟨by decide +kernel, ?_, ?_⟩
    · intro v hv
      rw [hstep] at hv
      cases hv
      decide +kernel
    · intro i hi v hv hrests
      cases Nat.lt_one_iff.1 hi
      cases hv
      exact absurd (hrests u (by decide +kernel)) (by decide +kernel)
  have hlater : ∀ k v, normalOrder.FirstRests t k v → allowance .standard (some (-3)) < k := by
    intro k v hk
    rw [(hk.unique hrests).1]
    exact Nat.one_pos
  have hseen : normalOrder.events (some 1000) 5 t = [.reduced u, .diverges u] := by
    decide +kernel
  obtain ⟨hevaluate, hevents⟩ := evaluate_truncates normalOrder t
  obtain ⟨hone, hshown⟩ := hevaluate .standard (some 1)
  obtain ⟨hkind, hterm, hcount⟩ :=
    ((hevaluate .standard (some (-3))).1 (by decide +kernel)).cut_off hlater
  have hobserved := (hevents (some 1000) 5 (by rw [hseen]; simp)).rests 1 u hrests
  refine ⟨hrests, (hone (by decide +kernel)).rests 1 u hrests (Nat.le_refl 1),
    ⟨hkind, (Option.some.inj hterm).symm, hcount⟩, ?_, hobserved 1 (by decide),
    hobserved 2 (by decide)⟩
  rw [hshown]
  have htrace : (report 1).trace.tail = [u] := by decide +kernel
  rw [htrace]
  rfl

end Strategy

end LambdaShell
