import LambdaShell.Proofs.Nameless.Reduction
import Mathlib.Logic.Relation

/-!
# Nameless terms — reduction is confluent

Two contractions from one term duplicate, change or drop each other's
redexes, so that the two results cannot in general be brought together by
one contraction each. `Parallel` contracts any number of the redexes of a
term at once, and there one step each is enough: of all the steps from a
term, the one that leaves out no redex is the largest (`complete`), and
every other step can be completed to it (`Parallel.complete`).

Sequences of contractions and sequences of parallel steps reach the same
terms, and what holds of the ones holds of the others (`join_of_reduces`).
-/

namespace LambdaShell

namespace Nameless

open Relation

/-- **Any number of contractions**, one after the other. -/
abbrev Reduces : Nameless → Nameless → Prop := ReflTransGen Beta

/-! ## Sequences of contractions in a part of a term -/

theorem Reduces.app {fn fn' arg arg' : Nameless} (hfn : Reduces fn fn') (harg : Reduces arg arg') :
    Reduces (app fn arg) (app fn' arg') := by
  have hleft : Reduces (.app fn arg) (.app fn' arg) :=
    hfn.lift (fun fn => Nameless.app fn arg) fun _ _ h => .function arg h
  have hright : Reduces (.app fn' arg) (.app fn' arg') :=
    harg.lift (Nameless.app fn') fun _ _ h => .argument fn' h
  exact hleft.trans hright

theorem Reduces.lam {body body' : Nameless} (h : Reduces body body') :
    Reduces (lam body) (lam body') :=
  ReflTransGen.lift Nameless.lam (fun _ _ h => Beta.body h) _ _ h

/-! ## Parallel contraction -/

/-- **Contraction of any number of redexes at once**, of those that are in the
term from the beginning. -/
inductive Parallel : Nameless → Nameless → Prop where
  | index (i : Nat) : Parallel (index i) (index i)
  | free (x : String) : Parallel (free x) (free x)
  | lam {body body' : Nameless} : Parallel body body' → Parallel (lam body) (lam body')
  | app {fn fn' arg arg' : Nameless} :
      Parallel fn fn' → Parallel arg arg' → Parallel (app fn arg) (app fn' arg')
  /-- The application itself is contracted, after redexes in its two parts. -/
  | contract {body body' arg arg' : Nameless} :
      Parallel body body' → Parallel arg arg' →
        Parallel (app (lam body) arg) (body'.instantiate arg')

namespace Parallel

variable {t t' : Nameless}

/-- No redex need be contracted. -/
theorem refl (t : Nameless) : Parallel t t := by
  induction t with
  | index i => exact .index i
  | free x => exact .free x
  | lam body ih => exact .lam ih
  | app fn arg ihf iha => exact .app ihf iha

theorem of_beta (h : Beta t t') : Parallel t t' := by
  induction h with
  | contract body arg => exact .contract (.refl body) (.refl arg)
  | function arg _ ih => exact .app ih (.refl arg)
  | argument fn _ ih => exact .app (.refl fn) ih
  | body _ ih => exact .lam ih

theorem reduces (h : Parallel t t') : Reduces t t' := by
  induction h with
  | index i => exact .refl
  | free x => exact .refl
  | lam _ ih => exact ih.lam
  | app _ _ ihf iha => exact ihf.app iha
  | contract _ _ ihb iha =>
    -- the parts first, then the application itself
    exact (ihb.lam.app iha).tail (.contract _ _)

/-- A substitution keeps the redexes of the term it is made in. -/
theorem subst_left (h : Parallel t t') (σ : Nat → Nameless) :
    Parallel (t.subst σ) (t'.subst σ) := by
  induction h generalizing σ with
  | index i => exact .refl _
  | free x => exact .free x
  | lam _ ih => exact .lam (ih (up σ))
  | app _ _ ihf iha => exact .app (ihf σ) (iha σ)
  | contract _ _ ihb iha =>
    rw [subst_instantiate]
    exact .contract (ihb (up σ)) (iha σ)

theorem rename (h : Parallel t t') (ρ : Nat → Nat) : Parallel (t.rename ρ) (t'.rename ρ) := by
  rw [rename_eq_subst, rename_eq_subst]
  exact h.subst_left _

/-- **Parallel steps go through a substitution**, in the term and in what is put
for its indices at the same time. -/
theorem subst (h : Parallel t t') {σ σ' : Nat → Nameless} (hσ : ∀ i, Parallel (σ i) (σ' i)) :
    Parallel (t.subst σ) (t'.subst σ') := by
  have hup : ∀ {σ σ' : Nat → Nameless}, (∀ i, Parallel (σ i) (σ' i)) →
      ∀ i, Parallel (up σ i) (up σ' i) := by
    intro σ σ' hσ i
    cases i with
    | zero => exact .index 0
    | succ i => exact (hσ i).rename Nat.succ
  induction h generalizing σ σ' with
  | index i => exact hσ i
  | free x => exact .free x
  | lam _ ih => exact .lam (ih (hup hσ))
  | app _ _ ihf iha => exact .app (ihf hσ) (iha hσ)
  | contract _ _ ihb iha =>
    rw [subst_instantiate]
    exact .contract (ihb (hup hσ)) (iha hσ)

theorem instantiate {body body' arg arg' : Nameless} (hbody : Parallel body body')
    (harg : Parallel arg arg') : Parallel (body.instantiate arg) (body'.instantiate arg') := by
  refine hbody.subst fun i => ?_
  cases i with
  | zero => exact harg
  | succ i => exact .index i

end Parallel

/-! ## The largest step -/

/-- **All redexes of a term contracted at once.** -/
def complete : Nameless → Nameless
  | app (lam body) arg => body.complete.instantiate arg.complete
  | app fn arg => app fn.complete arg.complete
  | lam body => lam body.complete
  | index i => index i
  | free x => free x

/-- **Every parallel step can be completed** to the one that leaves out no redex. -/
theorem Parallel.complete {t t' : Nameless} (h : Parallel t t') : Parallel t' t.complete := by
  induction h with
  | index i => exact .index i
  | free x => exact .free x
  | lam _ ih => exact .lam ih
  | contract _ _ ihb iha => exact ihb.instantiate iha
  | @app fn fn' arg arg' hfn _ ihf iha =>
    cases hfn with
    | index i => exact .app ihf iha
    | free x => exact .app ihf iha
    | app _ _ => exact .app ihf iha
    | contract _ _ => exact .app ihf iha
    | lam _ =>
      -- a redex that the step has left out: it is still there to be contracted
      cases ihf with
      | lam ihbody => exact .contract ihbody iha

/-! ## Confluence -/

theorem reduces_iff_parallel {t u : Nameless} : Reduces t u ↔ ReflTransGen Parallel t u :=
  ⟨ReflTransGen.mono (fun _ _ => Parallel.of_beta) t u,
    reflTransGen_closed (fun _ _ => Parallel.reduces) t u⟩

/-- **Reduction is confluent.** Whatever two sequences of contractions make of a
term can be reduced to a common term. -/
theorem join_of_reduces {t u u' : Nameless} (h : Reduces t u) (h' : Reduces t u') :
    ∃ v, Reduces u v ∧ Reduces u' v := by
  rw [reduces_iff_parallel] at h h'
  have hdiamond : ∀ t u u', Parallel t u → Parallel t u' →
      ∃ v, ReflGen Parallel u v ∧ ReflTransGen Parallel u' v := by
    intro t u u' hu hu'
    exact ⟨t.complete, .single hu.complete, .single hu'.complete⟩
  obtain ⟨v, hv, hv'⟩ := church_rosser hdiamond h h'
  exact ⟨v, reduces_iff_parallel.2 hv, reduces_iff_parallel.2 hv'⟩

end Nameless

end LambdaShell
