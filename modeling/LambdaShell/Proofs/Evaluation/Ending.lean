import LambdaShell.Proofs.Evaluation.Divergence

/-!
# Evaluation — coming to an end

A strategy comes to an end at a term if its steps lead there and it does
not move the term (`Ends`). This is a matter of steps alone: the guard
against divergence, the budget and the limit of nesting have no part in it.
What an evaluation makes of it is said here once for every strategy. An
evaluation that reports a normal form has come to the end
(`ends_of_kind`), and one that is given enough steps reports it, unless a
limit of nesting stops it before; the guard never does
(`Ends.evaluate`).
-/

namespace LambdaShell

namespace Strategy

variable {s : Strategy} {t u v : Term}

/-- **The strategy comes to an end at `u`**: its steps lead there, and it does not
move `u`. -/
structure Ends (s : Strategy) (t u : Term) : Prop where
  reached : ∃ n, s.iterate n t = some u
  stuck : s.step u = none

/-- A term that does not move is its own end. -/
theorem Ends.refl (h : s.step t = none) : s.Ends t t := ⟨⟨0, rfl⟩, h⟩

/-- The end is the same after some steps. -/
theorem Ends.of_iterate {n : Nat} (hn : s.iterate n t = some u) (h : s.Ends u v) :
    s.Ends t v := by
  obtain ⟨m, hm⟩ := h.reached
  exact ⟨⟨n + m, by rw [iterate_add, hn, Option.bind_some, hm]⟩, h.stuck⟩

theorem Ends.head (hstep : s.step t = some u) (h : s.Ends u v) : s.Ends t v :=
  .of_iterate (n := 1) (iterate_succ_of_step hstep 0) h

/-- Steps in a part of a term are steps of the term, if single ones are. -/
theorem iterate_lift {f : Term → Term}
    (hf : ∀ {u v}, s.step u = some v → s.step (f u) = some (f v)) {n : Nat}
    (h : s.iterate n t = some u) : s.iterate n (f t) = some (f u) := by
  induction n generalizing t with
  | zero => cases h; rfl
  | succ n ih =>
    obtain ⟨v, hstep, hv⟩ := Option.bind_eq_some_iff.1 h
    rw [iterate_succ_of_step (hf hstep), ih hv]

/-- From a term that does not move, no step leads anywhere. -/
theorem eq_of_iterate_of_stuck {n : Nat} (ht : s.step t = none) (h : s.iterate n t = some u) :
    u = t := by
  cases n with
  | zero => cases h; rfl
  | succ n => rw [iterate_succ_of_stuck ht] at h; cases h

/-- **There is one end only.** -/
theorem Ends.unique (h : s.Ends t u) (h' : s.Ends t v) : u = v := by
  -- the longer of the two iterations goes through the end of the shorter
  have hle : ∀ {u v : Term} {m n : Nat}, s.step u = none → s.iterate m t = some u →
      s.iterate n t = some v → m ≤ n → v = u := by
    intro u v m n hu hm hn hmn
    obtain ⟨k, rfl⟩ := Nat.exists_eq_add_of_le hmn
    rw [iterate_add, hm, Option.bind_some] at hn
    exact eq_of_iterate_of_stuck hu hn
  obtain ⟨m, hm⟩ := h.reached
  obtain ⟨n, hn⟩ := h'.reached
  rcases Nat.le_total m n with hmn | hnm
  · exact (hle h.stuck hm hn hmn).symm
  · exact hle h'.stuck hn hm hnm

theorem Ends.exists_iterate_eq_none (h : s.Ends t u) : ∃ n, s.iterate n t = none := by
  obtain ⟨n, hn⟩ := h.reached
  refine ⟨n + 1, ?_⟩
  rw [iterate_add, hn, Option.bind_some, iterate_succ_of_stuck h.stuck]

/-! ## What an evaluation makes of it -/

/-- Where a strategy comes to an end, divergence is not reported. -/
theorem kind_ne_diverges {n : Nat} (h : s.iterate n t = none) (limits : Limits)
    (budget : Option Int) : (s.evaluate limits budget t).kind ≠ .diverges := by
  intro hkind
  obtain ⟨u, hstep, hloop⟩ :=
    exists_step_of_move_loop ((s.kind_eq_diverges_iff limits budget t).1 hkind)
  -- the evaluation has reached a term that moves forever, so the start does too
  have hforever : ∀ m, ∃ v, s.iterate m (s.evaluate limits budget t).term = some v := by
    intro m
    obtain ⟨v, hv, -⟩ := exists_iterate_of_loop hstep hloop m
    exact ⟨v, hv⟩
  obtain ⟨v, hv⟩ := exists_iterate_of_reached (s.iterate_evaluate limits budget t) hforever n
  rw [h] at hv
  cases hv

/-- **Enough steps for a normal form.** With as many steps as bring the strategy
to its end, an evaluation ends at a normal form, if no limit of nesting
stops it before. -/
theorem kind_of_le_allowance {n : Nat} (h : s.iterate n t = none) {limits : Limits}
    {budget : Option Int} (hn : n ≤ Evaluation.allowance limits budget) :
    (s.evaluate limits budget t).kind = .normalForm ∨
      limits.depth ≠ none ∧ (s.evaluate limits budget t).kind = .tooDeep := by
  have hkind := s.kind_evaluate limits budget t
  rcases s.move_cases limits.depth (s.evaluate limits budget t).term with
    ⟨-, hm⟩ | ⟨u, -, -, hm⟩ | ⟨u, -, -, hm⟩ | ⟨hdepth, hm⟩
  · rw [hm] at hkind
    exact .inl hkind
  · exact absurd ((s.kind_eq_diverges_iff limits budget t).2 hm) (kind_ne_diverges h limits budget)
  · -- a run that is cut off has made more steps than there are
    have hcut : (s.run limits.depth (Evaluation.allowance limits budget) t).ending = .cutOff := by
      rw [ending_run]
      rw [evaluate_eq] at hm
      exact congrArg Move.ending hm
    have hrun := s.iterate_run limits.depth (Evaluation.allowance limits budget) t
    rw [length_run_of_cutOff hcut] at hrun
    obtain ⟨v, hv⟩ := exists_iterate_of_le hrun hn
    rw [h] at hv
    cases hv
  · rw [hm] at hkind
    exact .inr ⟨hdepth, hkind⟩

/-- **A normal form is reported at the end** of the steps, and nowhere else. -/
theorem ends_of_kind {limits : Limits} {budget : Option Int}
    (h : (s.evaluate limits budget t).kind = .normalForm) :
    s.Ends t (s.evaluate limits budget t).term := by
  refine ⟨⟨_, s.iterate_evaluate limits budget t⟩, ?_⟩
  have hkind := s.kind_evaluate limits budget t
  rw [h] at hkind
  rcases s.move_cases limits.depth (s.evaluate limits budget t).term with
    ⟨hstuck, -⟩ | ⟨u, -, -, hm⟩ | ⟨u, -, -, hm⟩ | ⟨-, hm⟩
  · exact hstuck
  · rw [hm] at hkind; cases hkind
  · rw [hm] at hkind; cases budget <;> cases hkind
  · rw [hm] at hkind; cases hkind

/-- **Where a strategy comes to an end, its evaluation gets there**, given enough
steps, and no evaluation reports divergence instead. Only a limit of nesting
can be in the way. -/
theorem Ends.evaluate (h : s.Ends t u) :
    (∀ (limits : Limits) (budget : Option Int),
      (s.evaluate limits budget t).kind ≠ .diverges) ∧
    ∃ enough : Nat, ∀ (limits : Limits) (budget : Option Int),
      enough ≤ Evaluation.allowance limits budget →
        (s.evaluate limits budget t).kind = .normalForm ∧ (s.evaluate limits budget t).term = u ∨
          limits.depth ≠ none ∧ (s.evaluate limits budget t).kind = .tooDeep := by
  obtain ⟨n, hn⟩ := h.exists_iterate_eq_none
  refine ⟨kind_ne_diverges hn, n, ?_⟩
  intro limits budget henough
  refine (kind_of_le_allowance hn henough).imp_left ?_
  intro hkind
  exact ⟨hkind, (ends_of_kind hkind).unique h⟩

end Strategy

end LambdaShell
