import LambdaShell.Proofs.Nameless.Confluence

/-!
# Nameless terms — standard reductions

A reduction may contract its redexes in any order. It can be rearranged so
that the redexes at the head come first, and after them, in each part of
what is left, again those at the head: such a reduction is `Standard`, and
that every reduction can be so rearranged is `Standard.of_reduces`.

The two disciplines that contract at the head are read off the standard
form. The steps at its front are those of call by name, so a term that has
an abstraction among its reducts is brought to one by call by name
(`exists_callByName_lam`). And where a standard reduction ends at a term
without redex it left none behind on its way, which makes it a reduction in
normal order (`Standard.steps_normalOrder`).
-/

namespace LambdaShell

namespace Nameless

open Relation

variable {t t' u v : Nameless}

/-- **Any number of steps of a strategy**, one after the other. -/
abbrev Steps (s : Strategy) : Nameless → Nameless → Prop :=
  ReflTransGen fun t u => step s t = some u

/-- **A term without redex.** -/
def Normal (t : Nameless) : Prop := ∀ u, ¬ Beta t u

/-! ## Steps at the head -/

theorem callByName_app {fn fn' : Nameless} (h : callByName fn = some fn') (arg : Nameless) :
    callByName (app fn arg) = some (app fn' arg) := by
  -- what moves by name is no abstraction
  have hlam : ∀ body, fn = lam body → False := by
    rintro body rfl
    cases h
  rw [callByName.eq_2 _ _ hlam, h, Option.map_some]

/-- Substitution keeps the redex at the head. -/
theorem callByName_subst (h : callByName t = some u) (σ : Nat → Nameless) :
    callByName (t.subst σ) = some (u.subst σ) := by
  fun_induction callByName t generalizing u with
  | case1 body arg =>
    cases h
    rw [subst_instantiate]
    rfl
  | case2 fn arg _ ih =>
    obtain ⟨fn', hfn, rfl⟩ := Option.map_eq_some_iff.1 h
    exact callByName_app (ih hfn) (arg.subst σ)
  | case3 body => cases h
  | case4 i => cases h
  | case5 x => cases h

/-- **A step by name is a step in normal order.** -/
theorem normalOrder_of_callByName (h : callByName t = some u) : normalOrder t = some u := by
  fun_induction callByName t generalizing u with
  | case1 body arg => exact h
  | case2 fn arg hfn ih =>
    obtain ⟨fn', hstep, rfl⟩ := Option.map_eq_some_iff.1 h
    rw [normalOrder.eq_2 _ _ hfn, ih hstep]
  | case3 body => cases h
  | case4 i => cases h
  | case5 x => cases h

/-! ## Standard reductions -/

/-- **A standard reduction**: steps at the head, then standard reductions in the
parts. -/
inductive Standard : Nameless → Nameless → Prop where
  | index (i : Nat) : Standard (index i) (index i)
  | free (x : String) : Standard (free x) (free x)
  | lam {body body' : Nameless} : Standard body body' → Standard (lam body) (lam body')
  | app {fn fn' arg arg' : Nameless} :
      Standard fn fn' → Standard arg arg' → Standard (app fn arg) (app fn' arg')
  /-- A step at the head comes before everything else. -/
  | head {t u v : Nameless} : callByName t = some u → Standard u v → Standard t v

namespace Standard

/-- No redex need be contracted. -/
theorem refl (t : Nameless) : Standard t t := by
  induction t with
  | index i => exact .index i
  | free x => exact .free x
  | lam body ih => exact .lam ih
  | app fn arg ihf iha => exact .app ihf iha

theorem of_steps (h : Steps .callByName t u) (hu : Standard u v) : Standard t v := by
  induction h using ReflTransGen.head_induction_on with
  | refl => exact hu
  | head hstep _ ih => exact .head hstep ih

theorem rename (h : Standard t t') (ρ : Nat → Nat) : Standard (t.rename ρ) (t'.rename ρ) := by
  induction h generalizing ρ with
  | index i => exact .index (ρ i)
  | free x => exact .free x
  | lam _ ih => exact .lam (ih (upRenaming ρ))
  | app _ _ ihf iha => exact .app (ihf ρ) (iha ρ)
  | head hstep _ ih =>
    refine .head ?_ (ih ρ)
    rw [rename_eq_subst, rename_eq_subst]
    exact callByName_subst hstep _

/-- **Standard reductions go through a substitution**, in the term and in what is
put for its indices at the same time. -/
theorem subst (h : Standard t t') {σ σ' : Nat → Nameless} (hσ : ∀ i, Standard (σ i) (σ' i)) :
    Standard (t.subst σ) (t'.subst σ') := by
  induction h generalizing σ σ' with
  | index i => exact hσ i
  | free x => exact .free x
  | lam _ ih =>
    refine .lam (ih ?_)
    intro i
    cases i with
    | zero => exact .index 0
    | succ i => exact (hσ i).rename Nat.succ
  | app _ _ ihf iha => exact .app (ihf hσ) (iha hσ)
  | head hstep _ ih => exact .head (callByName_subst hstep σ) (ih hσ)

theorem instantiate {body body' arg arg' : Nameless} (hbody : Standard body body')
    (harg : Standard arg arg') : Standard (body.instantiate arg) (body'.instantiate arg') := by
  refine hbody.subst fun i => ?_
  cases i with
  | zero => exact harg
  | succ i => exact .index i

/-- **A standard reduction to an abstraction** first comes to one at the head. -/
theorem exists_lam {body' : Nameless} (h : Standard t (.lam body')) :
    ∃ body, Steps .callByName t (.lam body) ∧ Standard body body' := by
  generalize hu : Nameless.lam body' = u at h
  induction h with
  | index i => cases hu
  | free x => cases hu
  | app _ _ _ _ => cases hu
  | lam hbody _ =>
    cases hu
    exact ⟨_, .refl, hbody⟩
  | head hstep _ ih =>
    obtain ⟨body, hsteps, hbody⟩ := ih hu
    exact ⟨body, .head hstep hsteps, hbody⟩

/-- **One more contraction** can be moved to its place in a standard reduction. -/
theorem tail (h : Standard t u) (hv : Beta u v) : Standard t v := by
  induction h generalizing v with
  | index i => cases hv
  | free x => cases hv
  | head hstep _ ih => exact .head hstep (ih hv)
  | lam _ ih =>
    cases hv with
    | body hbody => exact .lam (ih hbody)
  | @app fn fn' arg arg' hfn harg ihf iha =>
    cases hv with
    | function _ hf => exact .app (ihf hf) harg
    | argument _ ha => exact .app hfn (iha ha)
    | contract body' _ =>
      -- the function comes to an abstraction at the head, and so the redex is there
      obtain ⟨body, hsteps, hbody⟩ := hfn.exists_lam
      have hleft : Steps .callByName (.app fn arg) (.app (.lam body) arg) :=
        hsteps.lift (fun fn => Nameless.app fn arg) fun _ _ hstep => callByName_app hstep arg
      exact of_steps (hleft.tail rfl) (hbody.instantiate harg)

/-- **Every reduction has a standard form.** -/
theorem of_reduces (h : Reduces t u) : Standard t u := by
  induction h with
  | refl => exact .refl t
  | tail _ hbeta ih => exact ih.tail hbeta

end Standard

/-- **Call by name finds an abstraction whenever there is one** among the reducts. -/
theorem exists_callByName_lam {body' : Nameless} (h : Reduces t (lam body')) :
    ∃ body, Steps .callByName t (lam body) := by
  obtain ⟨body, hsteps, -⟩ := (Standard.of_reduces h).exists_lam
  exact ⟨body, hsteps⟩

/-! ## Normal order -/

/-- Where the function is no abstraction, normal order works in the function and,
once it does not move any more, in the argument. -/
theorem normalOrder_app {fn : Nameless} (h : fn.isLam = false) (arg : Nameless) :
    normalOrder (app fn arg) =
      match normalOrder fn with
      | some fn' => some (app fn' arg)
      | none => (normalOrder arg).map (app fn) := by
  refine normalOrder.eq_2 fn arg ?_
  rintro body rfl
  cases h

theorem normalOrder_app_eq_none_iff {fn arg : Nameless} :
    normalOrder (app fn arg) = none ↔
      fn.isLam = false ∧ normalOrder fn = none ∧ normalOrder arg = none := by
  cases hlam : fn.isLam with
  | true =>
    cases fn with
    | lam body => simp [normalOrder]
    | _ => cases hlam
  | false =>
    rw [normalOrder_app hlam]
    cases normalOrder fn <;> simp

/-- **A term without redex** is one that normal order does not move. -/
theorem normal_iff : Normal t ↔ normalOrder t = none := by
  refine ⟨?_, ?_⟩
  · intro h
    cases hs : normalOrder t with
    | none => rfl
    | some u => exact absurd (beta_of_normalOrder hs) (h u)
  · intro h u hu
    induction hu with
    | contract body arg => cases h
    | function arg _ ih => exact ih (normalOrder_app_eq_none_iff.1 h).2.1
    | argument fn _ ih => exact ih (normalOrder_app_eq_none_iff.1 h).2.2
    | body _ ih => exact ih (Option.map_eq_none_iff.1 h)

instance (t : Nameless) : Decidable (Normal t) := decidable_of_iff _ normal_iff.symm

/-- A step in normal order leaves an abstraction an abstraction. -/
theorem isLam_of_normalOrder (h : normalOrder t = some u) (hu : u.isLam = false) :
    t.isLam = false := by
  cases t with
  | lam body =>
    obtain ⟨body', -, rfl⟩ := Option.map_eq_some_iff.1 h
    cases hu
  | index i => rfl
  | free x => rfl
  | app fn arg => rfl

/-- Normal order works in a function that does not become an abstraction. -/
theorem steps_function {fn fn' : Nameless} (h : Steps .normalOrder fn fn')
    (hfn' : fn'.isLam = false) (arg : Nameless) :
    Steps .normalOrder (app fn arg) (app fn' arg) := by
  induction h with
  | refl => exact .refl
  | @tail fn₁ fn₂ _ hstep ih =>
    have hfn₁ : fn₁.isLam = false := isLam_of_normalOrder hstep hfn'
    refine (ih hfn₁).tail ?_
    show normalOrder _ = _
    rw [normalOrder_app hfn₁, show normalOrder fn₁ = some fn₂ from hstep]

/-- Normal order works in the argument of a function that has no redex left. -/
theorem steps_argument {fn arg arg' : Nameless} (hlam : fn.isLam = false)
    (hfn : normalOrder fn = none) (h : Steps .normalOrder arg arg') :
    Steps .normalOrder (app fn arg) (app fn arg') := by
  refine h.lift (Nameless.app fn) ?_
  intro arg₁ arg₂ hstep
  show normalOrder _ = _
  rw [normalOrder_app hlam, hfn, show normalOrder arg₁ = some arg₂ from hstep]
  rfl

theorem steps_lam {body body' : Nameless} (h : Steps .normalOrder body body') :
    Steps .normalOrder (lam body) (lam body') := by
  refine h.lift Nameless.lam ?_
  intro body₁ body₂ hstep
  show normalOrder _ = _
  rw [normalOrder, show normalOrder body₁ = some body₂ from hstep]
  rfl

/-- **A standard reduction to a term without redex is one in normal order.** -/
theorem Standard.steps_normalOrder (h : Standard t u) (hu : normalOrder u = none) :
    Steps .normalOrder t u := by
  induction h with
  | index i => exact .refl
  | free x => exact .refl
  | lam _ ih => exact steps_lam (ih (Option.map_eq_none_iff.1 hu))
  | head hstep _ ih => exact .head (normalOrder_of_callByName hstep) (ih hu)
  | @app fn fn' arg arg' _ _ ihf iha =>
    -- the function is done before the argument is begun
    obtain ⟨hlam, hfn, harg⟩ := normalOrder_app_eq_none_iff.1 hu
    exact (steps_function (ihf hfn) hlam arg).trans (steps_argument hlam hfn (iha harg))

/-- **Normal order finds the term without redex** whenever there is one among the
reducts. -/
theorem steps_normalOrder_of_reduces (h : Reduces t u) (hu : Normal u) :
    Steps .normalOrder t u :=
  (Standard.of_reduces h).steps_normalOrder (normal_iff.1 hu)

end Nameless

end LambdaShell
