import LambdaShell.Latex
import LambdaShell.Proofs.Reduction.Throughout

/-!
# Typing — derivations and types

A derivation is built along with the type by a recursion of its own. The
two agree (`derive_agrees`): the type that is given beside a derivation is
the one at its root and the one that checking gives, and where checking
fails there is no derivation either.

What stands at a node of a derivation is said once, for the root
(`derive_cases`): a rule applied as it should be, a fault that comes up
here, or a fault that is passed on from the last premise. Above it there
are derivations of the same making, at most two, and so every derivation
has a proof tree (`exists_latex_derivation`).

Checking fails in one way only, when an arrow is to be built from a fault.
This takes an annotation that is a fault; a term without one has a type or
a fault, but never no answer (`typeOf_ne_error`).
-/

namespace LambdaShell

namespace Typing

variable {ctx : Context} {t : Term} {d : Derivation} {ty : Ty}

/-! ## What can stand at a node -/

namespace Derivation

/-- **The judgement at the root** of a derivation. -/
structure Concludes (d : Derivation) (ctx : Context) (t : Term) (ty : Ty) : Prop where
  ctx_eq : d.ctx = ctx
  term_eq : d.term = t
  ty_eq : d.ty = ty

/-- **A rule applied as it should be**, to all its premises. -/
inductive Instance : Derivation → Prop where
  | var {ctx : Context} {x : String} {τ : SimpleType} :
      ctx.get? x = some (.simple τ) → Instance (node ctx (.var x) (.simple τ) .var [])
  | abs {ctx : Context} {x : String} {body : Term} {σ τ : SimpleType} {d : Derivation} :
      d.Concludes (ctx.insert x (.simple σ)) body (.simple τ) →
        Instance (node ctx (.lam x (some (.simple σ)) body) (.simple (.arrow σ τ)) .abs [d])
  | app {ctx : Context} {fn arg : Term} {σ τ : SimpleType} {d d' : Derivation} :
      d.Concludes ctx fn (.simple (.arrow σ τ)) → d'.Concludes ctx arg (.simple σ) →
        Instance (node ctx (.app fn arg) (.simple τ) .app [d, d'])

/-- **A fault comes up at a node**: as far as there are premises, they have types. -/
inductive Introduces : TypeFault → Derivation → Prop where
  | unbound {ctx : Context} {x : String} :
      ctx.get? x = none → Introduces (.unbound x) (node ctx (.var x) (.fault (.unbound x)) .var [])
  /-- The context has the fault for the variable. -/
  | assumed {ctx : Context} {x : String} {reason : TypeFault} :
      ctx.get? x = some (.fault reason) →
        Introduces reason (node ctx (.var x) (.fault reason) .var [])
  | unannotated {ctx : Context} {x : String} {body : Term} :
      Introduces (.unannotated x) (node ctx (.lam x none body) (.fault (.unannotated x)) .abs [])
  | notFunction {ctx : Context} {fn arg : Term} {name : String} {d : Derivation} :
      d.Concludes ctx fn (.simple (.base name)) →
        Introduces .notFunction (node ctx (.app fn arg) (.fault .notFunction) .app [d])
  | argumentMismatch {ctx : Context} {fn arg : Term} {σ τ ρ : SimpleType} {d d' : Derivation} :
      d.Concludes ctx fn (.simple (.arrow σ τ)) → d'.Concludes ctx arg (.simple ρ) → ρ ≠ σ →
        Introduces .argumentMismatch
          (node ctx (.app fn arg) (.fault .argumentMismatch) .app [d, d'])

/-- **A fault is passed on** from the last premise. -/
inductive Passes : TypeFault → Derivation → Prop where
  | body {ctx : Context} {x : String} {domain : Ty} {body : Term} {reason : TypeFault}
      {d : Derivation} :
      d.Concludes (ctx.insert x domain) body (.fault reason) →
        Passes reason (node ctx (.lam x (some domain) body) (.fault reason) .abs [d])
  | function {ctx : Context} {fn arg : Term} {reason : TypeFault} {d : Derivation} :
      d.Concludes ctx fn (.fault reason) →
        Passes reason (node ctx (.app fn arg) (.fault reason) .app [d])
  | argument {ctx : Context} {fn arg : Term} {σ τ : SimpleType} {reason : TypeFault}
      {d d' : Derivation} :
      d.Concludes ctx fn (.simple (.arrow σ τ)) → d'.Concludes ctx arg (.fault reason) →
        Passes reason (node ctx (.app fn arg) (.fault reason) .app [d, d'])

/-- **What can stand at a node**: a rule applied as it should be, a fault that comes up
here, or one that is passed on. -/
inductive WellMade : Derivation → Prop where
  | rule {d : Derivation} : d.Instance → WellMade d
  | introduces {d : Derivation} {reason : TypeFault} : d.Introduces reason → WellMade d
  | passes {d : Derivation} {reason : TypeFault} : d.Passes reason → WellMade d

/-- **The derivation is the one that is found** for its own judgement. -/
def Derived (d : Derivation) : Prop := derive d.ctx d.term = .ok (d, d.ty)

end Derivation

/-- **What is derived for a term is a judgement on it**, of the type that is given
beside it. -/
theorem concludes_of_derive (h : derive ctx t = .ok (d, ty)) : d.Concludes ctx t ty := by
  revert h
  fun_cases derive ctx t <;> intro h <;> cases h <;> exact ⟨rfl, rfl, rfl⟩

theorem derived_of_derive (h : derive ctx t = .ok (d, ty)) : d.Derived := by
  obtain ⟨hctx, ht, hty⟩ := concludes_of_derive h
  rw [Derivation.Derived, hctx, ht, hty, h]

theorem wellMade_var (ctx : Context) (x : String) :
    (Derivation.node ctx (.var x) (typeOfVar ctx x) .var []).WellMade := by
  unfold typeOfVar
  cases hx : ctx.get? x with
  | none => exact .introduces (.unbound hx)
  | some ty =>
    cases ty with
    | simple τ => exact .rule (.var hx)
    | fault reason => exact .introduces (.assumed hx)

theorem wellMade_app {fn arg : Term} {σ τ : SimpleType} {d d' : Derivation}
    (hfn : d.Concludes ctx fn (.simple (.arrow σ τ))) (harg : d'.Concludes ctx arg ty) :
    (Derivation.node ctx (.app fn arg) (applyType σ τ ty) .app [d, d']).WellMade := by
  cases ty with
  | fault reason => exact .passes (.argument hfn harg)
  | simple ρ =>
    by_cases hρ : ρ = σ
    · have htype : applyType σ τ (.simple ρ) = .simple τ := if_pos hρ
      rw [htype]
      subst hρ
      exact .rule (.app hfn harg)
    · have htype : applyType σ τ (.simple ρ) = .fault .argumentMismatch := if_neg hρ
      rw [htype]
      exact .introduces (.argumentMismatch hfn harg hρ)

/-- **What is derived, read off its root.** The root is well made, and what stands above
it is derived for smaller terms. -/
theorem derive_cases (h : derive ctx t = .ok (d, ty)) :
    d.WellMade ∧ ∀ p ∈ d.premises, p.Derived ∧ p.term.size < t.size := by
  -- a premise is derived for a part of the term
  have habove : ∀ {ctx' t' p ty'}, derive ctx' t' = .ok (p, ty') → t'.size < t.size →
      p.Derived ∧ p.term.size < t.size := by
    intro ctx' t' p ty' hp hsize
    rw [(concludes_of_derive hp).term_eq]
    exact ⟨derived_of_derive hp, hsize⟩
  revert h
  fun_cases derive ctx t with
  | case1 x =>
    intro h
    cases h
    exact ⟨wellMade_var ctx x, nofun⟩
  | case2 x body =>
    intro h
    cases h
    exact ⟨.introduces .unannotated, nofun⟩
  | case3 => exact nofun
  | case4 x domain body _ d' reason hbody =>
    intro h
    cases h
    have hd' := habove hbody (Nat.lt_succ_self _)
    exact ⟨.passes (.body (concludes_of_derive hbody)), List.forall_mem_singleton.2 hd'⟩
  | case5 => exact nofun
  | case6 x domain body _ d' τ hbody ty' harrow =>
    intro h
    cases h
    have hd' := habove hbody (Nat.lt_succ_self _)
    refine ⟨?_, List.forall_mem_singleton.2 hd'⟩
    -- an arrow can only be built from an annotation that is a type
    cases domain with
    | simple σ =>
      cases harrow
      exact .rule (.abs (concludes_of_derive hbody))
    | fault reason => cases harrow
  | case7 => exact nofun
  | case8 fn arg _ d' reason hfn =>
    intro h
    cases h
    have hd' := habove hfn (by simp only [Term.size]; omega)
    exact ⟨.passes (.function (concludes_of_derive hfn)), List.forall_mem_singleton.2 hd'⟩
  | case9 fn arg _ d' name hfn =>
    intro h
    cases h
    have hd' := habove hfn (by simp only [Term.size]; omega)
    exact ⟨.introduces (.notFunction (concludes_of_derive hfn)), List.forall_mem_singleton.2 hd'⟩
  | case10 => exact nofun
  | case11 fn arg _ d₁ σ τ hfn d₂ ty' harg =>
    intro h
    cases h
    have hd₁ := habove hfn (by simp only [Term.size]; omega)
    have hd₂ := habove harg (by simp only [Term.size]; omega)
    refine ⟨wellMade_app (concludes_of_derive hfn) (concludes_of_derive harg), fun p hp => ?_⟩
    rcases List.mem_pair.1 hp with rfl | rfl
    · exact hd₁
    · exact hd₂

namespace Derivation

theorem Derived.wellMade (h : d.Derived) : d.WellMade := (derive_cases h).1

/-- What stands above the root is derived, and for a smaller term. -/
theorem Derived.premise {p : Derivation} (h : d.Derived) (hp : p ∈ d.premises) :
    p.Derived ∧ p.term.size < d.term.size :=
  (derive_cases h).2 p hp

theorem WellMade.length_premises_le (h : d.WellMade) : d.premises.length ≤ 2 := by
  cases h with
  | rule h => cases h <;> simp [premises]
  | introduces h => cases h <;> simp [premises]
  | passes h => cases h <;> simp [premises]

end Derivation

/-! ## Proof trees -/

theorem exists_allProofLines {ds : List Derivation}
    (h : ∀ d ∈ ds, ∃ lines, Latex.proofLines d = .ok lines) :
    ∃ lines, Latex.allProofLines ds = .ok lines := by
  induction ds with
  | nil => exact ⟨[], rfl⟩
  | cons d ds ih =>
    obtain ⟨first, hfirst⟩ := h d List.mem_cons_self
    obtain ⟨rest, hrest⟩ := ih fun d' hd' => h d' (List.mem_cons_of_mem _ hd')
    exact ⟨first ++ rest, by rw [Latex.allProofLines, hfirst, hrest]⟩

/-- **Every derivation that is found has a proof tree.** -/
theorem exists_proofLines {d : Derivation} (h : d.Derived) :
    ∃ lines, Latex.proofLines d = .ok lines := by
  have habove : ∀ p ∈ d.premises, ∃ lines, Latex.proofLines p = .ok lines := by
    intro p hp
    obtain ⟨hderived, hsize⟩ := h.premise hp
    exact exists_proofLines hderived
  obtain ⟨above, habove⟩ := exists_allProofLines habove
  have hlength := h.wellMade.length_premises_le
  obtain ⟨ctx, t, ty, rule, premises⟩ := d
  have hown : ∃ own, Latex.inference premises.length rule (Latex.judgement ctx t ty) = .ok own := by
    have hcases : premises.length = 0 ∨ premises.length = 1 ∨ premises.length = 2 := by
      have : premises.length ≤ 2 := hlength
      omega
    rcases hcases with hn | hn | hn <;> exact ⟨_, by rw [hn]; rfl⟩
  obtain ⟨own, hown⟩ := hown
  have habove : Latex.allProofLines premises = .ok above := habove
  exact ⟨above ++ own, by rw [Latex.proofLines, habove, hown]⟩
termination_by d.term.size

/-- **A derivation can be shown.** -/
theorem exists_latex_derivation (h : derive ctx t = .ok (d, ty)) :
    ∃ text, Latex.derivation d = .ok text := by
  obtain ⟨lines, hlines⟩ := exists_proofLines (derived_of_derive h)
  exact ⟨_, by rw [Latex.derivation, hlines]⟩

/-! ## Derivations and types -/

/-- **The type beside a derivation** is the one that checking gives. -/
theorem map_snd_derive (ctx : Context) (t : Term) :
    (derive ctx t).map Prod.snd = typeOf ctx t := by
  induction t generalizing ctx with
  | var x => rfl
  | lam x a body ih =>
    cases a with
    | none => rfl
    | some domain =>
      rw [derive, typeOf, ← ih]
      rcases derive (ctx.insert x domain) body with e | ⟨d, τ | reason⟩
      · rfl
      · dsimp only [Except.map]
        cases domain.arrow (.simple τ) <;> rfl
      · rfl
  | app fn arg ihf iha =>
    rw [derive, typeOf, ← ihf, ← iha]
    rcases derive ctx fn with e | ⟨d, (name | ⟨σ, τ⟩) | reason⟩
    · rfl
    · rfl
    · dsimp only [Except.map]
      cases derive ctx arg <;> rfl
    · rfl

theorem derive_eq_error_iff {e : ArrowError} :
    derive ctx t = .error e ↔ typeOf ctx t = .error e := by
  rw [← map_snd_derive]
  cases derive ctx t <;> simp [Except.map]

theorem typeOf_of_derive (h : derive ctx t = .ok (d, ty)) : typeOf ctx t = .ok ty := by
  rw [← map_snd_derive, h]
  rfl

/-! ## Terms without faults -/

/-- **Checking does not fail** on a term whose annotations are types. -/
theorem typeOf_ne_error (ht : t.declaresTypes = true) (ctx : Context) (e : ArrowError) :
    typeOf ctx t ≠ .error e := by
  induction t generalizing ctx with
  | var x => exact nofun
  | lam x a body ih =>
    obtain ⟨⟨-, ha⟩, hbody⟩ := Term.every_lam.1 ht
    cases a with
    | none => exact nofun
    | some domain =>
      cases domain with
      | fault reason => cases ha
      | simple σ =>
        intro h
        rw [typeOf] at h
        cases hty : typeOf (ctx.insert x (.simple σ)) body with
        | error e' =>
          rw [hty] at h
          cases h
          exact ih hbody _ hty
        | ok ty => cases ty <;> rw [hty] at h <;> cases h
  | app fn arg ihf iha =>
    obtain ⟨hf, ha⟩ := Term.every_app.1 ht
    intro h
    rw [typeOf] at h
    cases hfn : typeOf ctx fn with
    | error e' =>
      rw [hfn] at h
      cases h
      exact ihf hf _ hfn
    | ok ty =>
      rw [hfn] at h
      match ty with
      | .fault reason => cases h
      | .simple (.base name) => cases h
      | .simple (.arrow σ τ) =>
        cases harg : typeOf ctx arg with
        | error e' =>
          simp only [harg] at h
          cases h
          exact iha ha _ harg
        | ok ty => simp only [harg] at h; cases h

/-! ## Agreement -/

/-- **There is one way to fail**: an arrow is to be built from a fault. -/
theorem eq_faultOperand_of_typeOf {e : ArrowError} (h : typeOf ctx t = .error e) :
    e = .faultOperand := by
  revert h
  fun_induction typeOf ctx t with
  | case1 => exact nofun
  | case2 => exact nofun
  | case3 ctx x domain body e' hbody ih =>
    intro h
    cases h
    exact ih hbody
  | case4 => exact nofun
  | case5 ctx x domain body τ hbody ih =>
    -- the body has a type, so it is the annotation that is a fault
    intro h
    cases domain with
    | simple σ => cases h
    | fault reason => cases h; rfl
  | case6 ctx fn arg e' hfn ih =>
    intro h
    cases h
    exact ih hfn
  | case7 => exact nofun
  | case8 => exact nofun
  | case9 ctx fn arg σ τ hfn e' harg ihf iha =>
    intro h
    cases h
    exact iha harg
  | case10 => exact nofun

/-- **Checking and deriving agree.** In every context and on every term, faults among the
assumptions and the annotations included, both fail, and in the same way, or
both give an answer; then the type beside the derivation, the type at its
root and the type that checking gives are the same, down to the reason of a
fault. If the annotations of the term are types, neither fails, whatever the
context holds, and an answer that is no fault is built from base types and
arrows alone. -/
theorem derive_agrees (ctx : Context) (t : Term) :
    (derive ctx t = .error .faultOperand ∧ typeOf ctx t = .error .faultOperand ∨
      ∃ d ty, derive ctx t = .ok (d, ty) ∧ d.ty = ty ∧ typeOf ctx t = .ok ty) ∧
    (t.declaresTypes = true →
      ∃ d ty, derive ctx t = .ok (d, ty) ∧ d.ty = ty ∧ typeOf ctx t = .ok ty ∧
        (ty.isFault = false → ∃ τ, ty = .simple τ)) := by
  cases hderive : derive ctx t with
  | error e =>
    have htype : typeOf ctx t = .error e := derive_eq_error_iff.1 hderive
    obtain rfl : e = .faultOperand := eq_faultOperand_of_typeOf htype
    exact ⟨.inl ⟨rfl, htype⟩, fun ht => absurd htype (typeOf_ne_error ht ctx _)⟩
  | ok result =>
    obtain ⟨d, ty⟩ := result
    have hroot : d.ty = ty := (concludes_of_derive hderive).ty_eq
    have htype : typeOf ctx t = .ok ty := typeOf_of_derive hderive
    refine ⟨.inr ⟨d, ty, rfl, hroot, htype⟩, fun _ => ⟨d, ty, rfl, hroot, htype, ?_⟩⟩
    intro hty
    cases ty with
    | simple τ => exact ⟨τ, rfl⟩
    | fault reason => cases hty

/-- Where the context has a fault for `x`, both find this fault for `(λx:A. x) x`, in which
`x` is once bound and once not. -/
theorem derive_agrees_assumed_fault :
    let reason : TypeFault := .stated "broken"
    let ctx : Context := .ofList [("x", .fault reason)]
    let t : Term := .app (.lam "x" (some (.simple (.base "A"))) (.var "x")) (.var "x")
    t.declaresTypes = true ∧
      ∃ d, derive ctx t = .ok (d, .fault reason) ∧ d.ty = .fault reason ∧
        typeOf ctx t = .ok (.fault reason) := by
  intro reason ctx t
  have ht : t.declaresTypes = true := by decide
  have htype : typeOf ctx t = .ok (.fault reason) := by decide +kernel
  obtain ⟨d, ty, hderive, hroot, htype', -⟩ := (derive_agrees ctx t).2 ht
  obtain rfl : Ty.fault reason = ty := Except.ok.inj (htype.symm.trans htype')
  exact ⟨ht, d, hderive, hroot, htype⟩

/-- The body of `λx:error. λy:A. y` has a type, but there is no arrow to it from a fault. -/
example : derive .empty (.lam "x" (some (.fault (.stated "broken")))
    (.lam "y" (some (.simple (.base "A"))) (.var "y"))) = .error .faultOperand := rfl

end Typing

end LambdaShell
