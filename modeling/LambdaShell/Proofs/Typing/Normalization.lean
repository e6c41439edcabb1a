import LambdaShell.Proofs.Evaluation.Ending
import LambdaShell.Proofs.Nameless.Reducibility
import LambdaShell.Proofs.Typing.Rules

/-!
# Typing — typed terms terminate

A term with a simple type is reducible at that type, whatever reducible
terms are put for its bound variables on the way down (`reducible_subst`).
The induction is on the term itself, with the checker's context and the
scope of the nameless form side by side; the free names of the context
stand for themselves, and they are reducible at every type. A reducible
term terminates, every step of a strategy is a contraction, so a strategy
comes to an end on a typed term. What is left is to read off what an
evaluation says of such a term.
-/

namespace LambdaShell

namespace Typing

open Nameless

variable {ctx : Context} {t : Term} {τ : SimpleType}

/-- **A substitution that suits a context**: what it puts for the names that the
context knows, seen through a scope, is reducible at their types. -/
def Suits (ctx : Context) (scope : List String) (σ : Nat → Nameless) : Prop :=
  ∀ x ρ, ctx.get? x = some (.simple ρ) → Reducible ρ ((Term.resolve x scope).subst σ)

/-- Without a scope every name stands for itself, which suits every context. -/
theorem suits_index (ctx : Context) : Suits ctx [] index := by
  intro x ρ _
  exact (candidate_reducible ρ).free x

/-- A reducible term for the name of a binder suits the context under it. -/
theorem Suits.cons {scope : List String} {σ : Nat → Nameless} (h : Suits ctx scope σ) (x : String)
    {ρ : SimpleType} {u : Nameless} (hu : Reducible ρ u) :
    Suits (ctx.insert x (.simple ρ)) (x :: scope) (cons u σ) := by
  intro y ρ' hy
  rw [OrderedMap.get?_insert] at hy
  by_cases hxy : x = y
  · -- the binder's own name, whose type is the one inserted
    subst hxy
    rw [if_pos rfl] at hy
    cases hy
    rw [Term.resolve_cons_self]
    exact hu
  · rw [if_neg hxy] at hy
    rw [Term.resolve_cons_of_ne (Ne.symm hxy), subst_cons_rename_succ]
    exact h y ρ' hy

/-- **A typed term is reducible**, under every substitution that suits its
context. -/
theorem reducible_subst (h : typeOf ctx t = .ok (.simple τ)) {scope : List String}
    {σ : Nat → Nameless} (hσ : Suits ctx scope σ) : Reducible τ ((t.nameless scope).subst σ) := by
  induction t generalizing ctx τ scope σ with
  | var x => exact hσ x τ (typeOf_var_eq_iff.1 h)
  | lam x a body ih =>
    obtain ⟨ρ, τ', rfl, hbody, rfl⟩ := typeOf_lam_eq_iff.1 h
    refine (candidate_reducible ρ).maps_lam (candidate_reducible τ') ?_
    intro u hu
    -- the argument joins the substitution, and the body is taken under both
    rw [instantiate_subst_up]
    exact ih hbody (hσ.cons x hu)
  | app fn arg ihf iha =>
    obtain ⟨ρ, hfn, harg⟩ := typeOf_app_eq_iff.1 h
    exact ihf hfn hσ _ (iha harg hσ)

/-- **A typed term terminates**, in whatever order its redexes are contracted. -/
theorem terminating_of_typeOf (h : typeOf ctx t = .ok (.simple τ)) :
    (t.nameless []).Terminating := by
  have hred := reducible_subst h (suits_index ctx)
  rw [subst_index] at hred
  exact (candidate_reducible τ).terminating hred

end Typing

namespace Strategy

variable {s : Strategy} {t : Term}

/-! ## Evaluation of a term that terminates -/

/-- A strategy comes to an end on a term that terminates. -/
theorem exists_iterate_eq_none (s : Strategy) (h : (t.nameless []).Terminating) :
    ∃ n, s.iterate n t = none := by
  generalize ht : t.nameless [] = v at h
  induction h generalizing t with
  | intro v _ ih =>
    cases hs : s.step t with
    | none => exact ⟨1, iterate_succ_of_stuck hs 0⟩
    | some u =>
      -- the step contracts a redex, and below that the strategy comes to an end
      have hbeta := beta_of_step hs []
      rw [ht] at hbeta
      obtain ⟨n, hn⟩ := ih _ hbeta rfl
      exact ⟨n + 1, by rw [iterate_succ_of_step hs, hn]⟩

end Strategy

end LambdaShell
