import LambdaShell.Proofs.Evaluation.Iteration
import LambdaShell.Proofs.Nameless.Confluence
import LambdaShell.Proofs.Reduction.Contraction

/-!
# Evaluation — the strategies agree

Two strategies go through different terms, and even where they meet the
bound names differ, since a fresh name depends on the terms it was chosen
among. What they come to can still be brought together by further
contractions, up to bound names: confluence holds of nameless terms, and a
sequence of contractions of the nameless form is one of the term
(`exists_reduces`). Where both have come to a term without a redex there is
nothing left to contract, and the two terms are equal up to bound names.
-/

namespace LambdaShell

open Relation

namespace Term

/-- **Any number of contractions**, one after the other. -/
abbrev Reduces : Term → Term → Prop := ReflTransGen Contracts

theorem Reduces.nameless {t u : Term} (h : Reduces t u) (scope : List String) :
    Nameless.Reduces (t.nameless scope) (u.nameless scope) :=
  h.lift (Term.nameless scope) fun _ _ hc => Contracts.nameless hc scope

/-- **A sequence of contractions of the nameless form is one of the term.** -/
theorem exists_reduces {t : Term} {scope : List String} {v : Nameless}
    (h : Nameless.Reduces (t.nameless scope) v) : ∃ u, Reduces t u ∧ u.nameless scope = v := by
  induction h with
  | refl => exact ⟨t, .refl, rfl⟩
  | tail _ hbeta ih =>
    obtain ⟨u, htu, rfl⟩ := ih
    obtain ⟨w, huw, hw⟩ := exists_contracts hbeta
    exact ⟨w, htu.tail huw, hw⟩

/-- **Confluence up to bound names.** -/
theorem join_of_reduces {t u u' : Term} (h : Reduces t u) (h' : Reduces t u') :
    ∃ v v', Reduces u v ∧ Reduces u' v' ∧ v.AlphaEq v' := by
  obtain ⟨w, hw, hw'⟩ := Nameless.join_of_reduces (h.nameless []) (h'.nameless [])
  obtain ⟨v, huv, hv⟩ := exists_reduces hw
  obtain ⟨v', huv', hv'⟩ := exists_reduces hw'
  exact ⟨v, v', huv, huv', hv.trans hv'.symm⟩

end Term

/-! ## Terms without a redex -/

namespace Reduction

/-- Where normal order does not move, there is no redex. -/
theorem not_contracts_of_normalOrder {t : Term} (h : normalOrder t = none) (u : Term) :
    ¬ t.Contracts u := by
  intro hc
  fun_induction normalOrder t generalizing u with
  | case1 x a body arg => cases h
  | case2 fn arg _ fn' _ _ => cases h
  | case3 fn arg hfn hstep ihf iha =>
    -- neither part moves, and the function is no abstraction
    rw [Option.map_eq_none_iff] at h
    cases hc with
    | contract x a body => exact hfn x a body rfl
    | function _ hf => exact ihf hstep _ hf
    | argument _ ha => exact iha h _ ha
  | case4 x a body ih =>
    rw [Option.map_eq_none_iff] at h
    cases hc with
    | body _ _ hbody => exact ih h _ hbody
  | case5 x => cases hc

theorem eq_of_reduces_of_normalOrder {t u : Term} (ht : normalOrder t = none)
    (h : t.Reduces u) : u = t := by
  rcases ReflTransGen.cases_head h with rfl | ⟨v, hv, -⟩
  · rfl
  · exact absurd hv (not_contracts_of_normalOrder ht v)

end Reduction

namespace Strategy

/-- Every term of a trace is a reduct of the first. -/
theorem reduces_of_mem_trace {s : Strategy} {limits : Limits} {budget : Option Int} {t u : Term}
    (h : u ∈ (s.evaluate limits budget t).trace) : t.Reduces u := by
  refine forall_mem_trace (P := t.Reduces) ?_ .refl limits budget u h
  intro u v hstep hu
  exact hu.tail (contracts_of_step hstep)

/-- **Church and Rosser, for the strategies.** Whatever two evaluations of a term
go through, by two strategies and within limits and budgets of their own,
has a common reduct up to bound names. So where both stop at terms that hold
no redex at all, these terms are equal up to bound names. -/
theorem evaluations_join (s s' : Strategy) (limits limits' : Limits) (budget budget' : Option Int)
    (t : Term) :
    (∀ u ∈ (s.evaluate limits budget t).trace, ∀ u' ∈ (s'.evaluate limits' budget' t).trace,
      ∃ v v', u.Reduces v ∧ u'.Reduces v' ∧ v.AlphaEq v') ∧
    (normalOrder.step (s.evaluate limits budget t).term = none →
      normalOrder.step (s'.evaluate limits' budget' t).term = none →
        (s.evaluate limits budget t).term.AlphaEq (s'.evaluate limits' budget' t).term) := by
  have hjoin : ∀ u ∈ (s.evaluate limits budget t).trace,
      ∀ u' ∈ (s'.evaluate limits' budget' t).trace,
        ∃ v v', u.Reduces v ∧ u'.Reduces v' ∧ v.AlphaEq v' := by
    intro u hu u' hu'
    exact Term.join_of_reduces (reduces_of_mem_trace hu) (reduces_of_mem_trace hu')
  refine ⟨hjoin, ?_⟩
  intro hnormal hnormal'
  obtain ⟨v, v', hv, hv', halpha⟩ := hjoin _ (Evaluation.Outcome.term_mem_trace _) _
    (Evaluation.Outcome.term_mem_trace _)
  rw [Reduction.eq_of_reduces_of_normalOrder hnormal hv,
    Reduction.eq_of_reduces_of_normalOrder hnormal' hv'] at halpha
  exact halpha

/-- `(λx. λy. x) ((λw. y) y1)`: normal order renames the binder while `y1` is still
there, and call by value after it is gone, so the two normal forms have
different bound names. -/
theorem evaluations_join_renamed :
    let arg : Term := .app (.lam "w" none (.var "y")) (.var "y1")
    let t : Term := .app (.lam "x" none (.lam "y" none (.var "x"))) arg
    let o := normalOrder.evaluate .standard none t
    let o' := callByValue.evaluate .standard (some 7) t
    o.term = .lam "y2" none (.var "y") ∧ o'.term = .lam "y1" none (.var "y") ∧
      normalOrder.step o.term = none ∧ normalOrder.step o'.term = none ∧
      o.term.AlphaEq o'.term := by
  intro arg t o o'
  have hnormal : normalOrder.step o.term = none := by decide +kernel
  have hnormal' : normalOrder.step o'.term = none := by decide +kernel
  exact ⟨by decide +kernel, by decide +kernel, hnormal, hnormal',
    (evaluations_join normalOrder callByValue .standard .standard none (some 7) t).2 hnormal
      hnormal'⟩

end Strategy

end LambdaShell
