import LambdaShell.Proofs.Evaluation.Renaming

/-!
# Evaluation — reported divergence is real

A run reports divergence when a single step leads from a term to the same
term up to bound names. That this one step decides the whole continuation is
what is proved here: steps respect the renaming of bound variables, so the
next step leads to the same term again, and so does every step after it.
-/

namespace LambdaShell

namespace Strategy

variable {s : Strategy} {t t' u : Term}

/-! ## Iteration from a term that moves to itself -/

/-- Terms equal up to bound names stay so along any number of steps. -/
theorem iterate_alphaEq (s : Strategy) (n : Nat) (h : t.AlphaEq t') :
    Option.Rel Term.AlphaEq (s.iterate n t) (s.iterate n t') := by
  induction n generalizing t t' with
  | zero => exact .some h
  | succ n ih =>
    have hstep := s.step_alphaEq h
    unfold iterate
    generalize s.step t = o, s.step t' = o' at hstep
    cases hstep with
    | none => exact .none
    | some hu => exact ih hu

/-- **A term that moves to itself moves forever**, and never to another term. -/
theorem exists_iterate_of_loop (hstep : s.step t = some u) (hloop : t.AlphaEq u) (n : Nat) :
    ∃ v, s.iterate n t = some v ∧ v.AlphaEq t := by
  induction n with
  | zero => exact ⟨t, rfl, .refl t⟩
  | succ n ih =>
    obtain ⟨v, hv, hvt⟩ := ih
    -- the first step goes to `u`, from where `n` steps do what they do from `t`
    have hrel := s.iterate_alphaEq n hloop
    rw [hv] at hrel
    rw [iterate_succ_of_step hstep]
    cases hu : s.iterate n u with
    | none => rw [hu] at hrel; cases hrel
    | some w =>
      rw [hu] at hrel
      cases hrel with
      | some hvw => exact ⟨w, rfl, hvw.symm.trans hvt⟩

/-- A term from which another one is reached moves as long as that one does. -/
theorem exists_iterate_of_reached {k : Nat} (hk : s.iterate k t = some u)
    (hu : ∀ n, ∃ v, s.iterate n u = some v) (n : Nat) : ∃ v, s.iterate n t = some v := by
  obtain ⟨v, hv⟩ := hu n
  have hkn : s.iterate (k + n) t = some v := by rw [iterate_add, hk, Option.bind_some, hv]
  exact exists_iterate_of_le hkn (by omega)

theorem exists_step_of_move_loop {depth : Option Nat} (h : s.move depth t = .loop) :
    ∃ u, s.step t = some u ∧ t.AlphaEq u := by
  rcases s.move_cases depth t with ⟨-, hm⟩ | ⟨u, hu, hloop, -⟩ | ⟨u, -, -, hm⟩ | ⟨-, hm⟩
  · rw [h] at hm; cases hm
  · exact ⟨u, hu, hloop⟩
  · rw [h] at hm; cases hm
  · rw [h] at hm; cases hm

/-! ## Reports of divergence -/

/-- Divergence is observed at the term of a move to itself only. -/
theorem event_eq_diverges_iff {m : Move} : m.event t = .diverges u ↔ m = .loop ∧ t = u := by
  cases m <;> simp [Move.event]

/-- **A list of events that ends in divergence** ends where a run does, at a
term that moves to itself. -/
theorem getLast?_events_iff (s : Strategy) (depth : Option Nat) (steps : Nat) (t u : Term) :
    (s.events depth (steps + 1) t).getLast? = some (.diverges u) ↔
      s.move depth ((s.run depth steps t).last t) = .loop ∧ (s.run depth steps t).last t = u := by
  rw [events_eq, List.getLast?_concat, Option.some.injEq, event_eq_diverges_iff]

/-- **An evaluation that diverges** stopped at a term that moves to itself. -/
theorem kind_eq_diverges_iff (s : Strategy) (limits : Limits) (budget : Option Int) (t : Term) :
    (s.evaluate limits budget t).kind = .diverges ↔
      s.move limits.depth (s.evaluate limits budget t).term = .loop := by
  rw [kind_evaluate]
  generalize s.move limits.depth _ = m
  cases m <;> cases budget <;> simp [Move.ending, Evaluation.Kind.ofEnding, Evaluation.Kind.cut]

/-- Where divergence is observed, a finite number of steps has led. -/
theorem reached_of_events {depth : Option Nat} {count : Nat}
    (h : (s.events depth count t).getLast? = some (.diverges u)) :
    ∃ k, s.iterate k t = some u ∧ s.move depth u = .loop := by
  cases count with
  | zero => cases h
  | succ steps =>
    obtain ⟨hloop, hlast⟩ := (s.getLast?_events_iff depth steps t u).1 h
    have hrun := s.iterate_run depth steps t
    rw [hlast] at hrun hloop
    exact ⟨_, hrun, hloop⟩

/-- **A reported divergence is never a false alarm.** An evaluation reports that
it diverges at `u` exactly when the events, as far as its budget goes, end
with this report. When events end so, the strategy can make any number of
steps from the first term, it gets to `u` in some number of them, and from
there on it comes back to `u` at every step, up to bound names. -/
theorem diverges_forever (s : Strategy) (t u : Term) :
    (∀ (limits : Limits) (budget : Option Int),
      (s.evaluate limits budget t).kind = .diverges ∧ (s.evaluate limits budget t).term = u ↔
        (s.events limits.depth (Evaluation.allowance limits budget + 1) t).getLast? =
          some (.diverges u)) ∧
    ∀ (depth : Option Nat) (count : Nat),
      (s.events depth count t).getLast? = some (.diverges u) →
        (∀ n, ∃ v, s.iterate n t = some v) ∧ (∃ k, s.iterate k t = some u) ∧
          ∀ n, ∃ v, s.iterate n u = some v ∧ v.AlphaEq u := by
  refine ⟨?_, ?_⟩
  · intro limits budget
    rw [kind_eq_diverges_iff, getLast?_events_iff, evaluate_eq]
    rfl
  · intro depth count h
    obtain ⟨k, hk, hmove⟩ := reached_of_events h
    obtain ⟨v, hstep, hloop⟩ := exists_step_of_move_loop hmove
    have hforever := exists_iterate_of_loop hstep hloop
    refine ⟨exists_iterate_of_reached hk ?_, ⟨k, hk⟩, hforever⟩
    intro n
    obtain ⟨w, hw, -⟩ := hforever n
    exact ⟨w, hw⟩

/-- `(λz. z) ((λx. x x) (λy. y y))` comes to a term whose step changes the names
of its binders and nothing else. -/
theorem diverges_forever_omega :
    let twice (x : String) : Term := .lam x none (.app (.var x) (.var x))
    let u : Term := .app (twice "x") (twice "y")
    let t : Term := .app (.lam "z" none (.var "z")) u
    (normalOrder.events none 2 t).getLast? = some (.diverges u) ∧ normalOrder.step u ≠ some u ∧
      (∀ n, ∃ v, normalOrder.iterate n t = some v) ∧
      ∀ n, ∃ v, normalOrder.iterate n u = some v ∧ v.AlphaEq u := by
  intro twice u t
  have h : (normalOrder.events none 2 t).getLast? = some (.diverges u) := by decide +kernel
  obtain ⟨hforever, -, hback⟩ := (diverges_forever normalOrder t u).2 none 2 h
  exact ⟨h, by decide +kernel, hforever, hback⟩

end Strategy

end LambdaShell
