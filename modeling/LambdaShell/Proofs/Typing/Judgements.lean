import LambdaShell.Proofs.Typing.Derivations
import LambdaShell.Proofs.Typing.Rules
import Mathlib.Logic.Function.Basic

/-!
# Typing — the judgement

The simply typed calculus has three rules, and `HasType` is nothing but
them. Its assumptions are a partial function from names to types, which a
binder overrides at its own name; there is no order, no entry that is
replaced in place, and no fault. The checker decides this judgement
(`typeOf_decides`): what it finds is derivable, what is derivable it finds,
and it gives a fault exactly to the terms that have no type.

That a fault is never given to a term with a type rests on the checker
giving one answer to every term. So a type that can be derived is the one it
gives, and a fault is no type.
-/

namespace LambdaShell

namespace Typing

variable {ctx : Context} {t : Term} {τ : SimpleType}

/-- **What is assumed of the free names**: the type of each, if it has one. -/
abbrev Assumptions := String → Option SimpleType

/-- **The typing judgement**, by its three rules. -/
inductive HasType : Assumptions → Term → SimpleType → Prop where
  /-- A variable has the type that is assumed of it. -/
  | var {Γ : Assumptions} {x : String} {τ : SimpleType} : Γ x = some τ → HasType Γ (.var x) τ
  /-- An abstraction is a function on the type it declares, if its body has a type when
  this is assumed of the binder, whatever was assumed of the name before. -/
  | abs {Γ : Assumptions} {x : String} {σ τ : SimpleType} {body : Term} :
      HasType (Function.update Γ x (some σ)) body τ →
        HasType Γ (.lam x (some (.simple σ)) body) (.arrow σ τ)
  /-- An application has the codomain of a function whose domain is the type of the
  argument. -/
  | app {Γ : Assumptions} {fn arg : Term} {σ τ : SimpleType} :
      HasType Γ fn (.arrow σ τ) → HasType Γ arg σ → HasType Γ (.app fn arg) τ

/-! ## Contexts as assumptions -/

/-- **What a context assumes**: its entries, where a fault assumes nothing. -/
def assumed (ctx : Context) : Assumptions := fun x =>
  match ctx.get? x with
  | some (.simple τ) => some τ
  | _ => none

theorem assumed_eq_some_iff {x : String} :
    assumed ctx x = some τ ↔ ctx.get? x = some (.simple τ) := by
  unfold assumed
  rcases ctx.get? x with _ | _ | _ <;> simp

/-- **A new entry overrides an old one**, wherever it is kept. -/
theorem assumed_insert (ctx : Context) (x : String) (σ : SimpleType) :
    assumed (ctx.insert x (.simple σ)) = Function.update (assumed ctx) x (some σ) := by
  funext y
  unfold assumed
  rw [OrderedMap.get?_insert]
  by_cases hyx : y = x
  · rw [if_pos hyx.symm, hyx, Function.update_self]
  · rw [if_neg fun e => hyx e.symm, Function.update_of_ne hyx]

/-! ## The checker -/

/-- What the checker finds is derivable. -/
theorem hasType_of_typeOf (h : typeOf ctx t = .ok (.simple τ)) : HasType (assumed ctx) t τ := by
  induction t generalizing ctx τ with
  | var x => exact .var (assumed_eq_some_iff.2 (typeOf_var_eq_iff.1 h))
  | lam x a body ih =>
    obtain ⟨σ, ρ, rfl, hbody, rfl⟩ := typeOf_lam_eq_iff.1 h
    have hderived := ih hbody
    rw [assumed_insert] at hderived
    exact .abs hderived
  | app fn arg ihf iha =>
    obtain ⟨σ, hfn, harg⟩ := typeOf_app_eq_iff.1 h
    exact .app (ihf hfn) (iha harg)

/-- What is derivable the checker finds, in every context that assumes the same. -/
theorem typeOf_of_hasType {Γ : Assumptions} (h : HasType Γ t τ) (hΓ : assumed ctx = Γ) :
    typeOf ctx t = .ok (.simple τ) := by
  induction h generalizing ctx with
  | var hx =>
    rw [← hΓ] at hx
    exact typeOf_var_eq_iff.2 (assumed_eq_some_iff.1 hx)
  | @abs Γ x σ τ body _ ih =>
    have hbody : typeOf (ctx.insert x (.simple σ)) body = .ok (.simple τ) :=
      ih (by rw [assumed_insert, hΓ])
    exact typeOf_lam_eq_iff.2 ⟨σ, τ, rfl, hbody, rfl⟩
  | app _ _ ihf iha => exact typeOf_app_eq_iff.2 ⟨_, ihf hΓ, iha hΓ⟩

theorem typeOf_eq_iff_hasType :
    typeOf ctx t = .ok (.simple τ) ↔ HasType (assumed ctx) t τ :=
  ⟨hasType_of_typeOf, fun h => typeOf_of_hasType h rfl⟩

/-- **The checker decides typing.** On a term whose annotations are types, in whatever
context, it gives a simple type exactly if this type is derivable for the
term, and a fault exactly if none is. -/
theorem typeOf_decides (ht : t.declaresTypes = true) (ctx : Context) :
    (∀ τ, typeOf ctx t = .ok (.simple τ) ↔ HasType (assumed ctx) t τ) ∧
      ((∃ reason, typeOf ctx t = .ok (.fault reason)) ↔ ¬ ∃ τ, HasType (assumed ctx) t τ) := by
  refine ⟨fun τ => typeOf_eq_iff_hasType, ?_, ?_⟩
  · rintro ⟨reason, hfault⟩ ⟨τ, hτ⟩
    rw [typeOf_eq_iff_hasType.2 hτ] at hfault
    cases hfault
  · intro hnone
    cases htype : typeOf ctx t with
    | error e => exact absurd htype (typeOf_ne_error ht ctx e)
    | ok ty =>
      cases ty with
      | simple τ => exact absurd ⟨τ, hasType_of_typeOf htype⟩ hnone
      | fault reason => exact ⟨reason, rfl⟩

/-- Where `x` is assumed to be of type `A`, it is of type `B` under a binder that says so:
`λx:B. x` has the type `B -> B`, and `(λx:B. x) x` has none. -/
theorem typeOf_decides_shadowed :
    let a : SimpleType := .base "A"
    let b : SimpleType := .base "B"
    let ctx : Context := .ofList [("x", .simple a)]
    let identity : Term := .lam "x" (some (.simple b)) (.var "x")
    HasType (assumed ctx) identity (.arrow b b) ∧
      ¬ ∃ τ, HasType (assumed ctx) (.app identity (.var "x")) τ := by
  intro a b ctx identity
  have hidentity : typeOf ctx identity = .ok (.simple (.arrow b b)) := by decide +kernel
  have hself : typeOf ctx (.app identity (.var "x")) = .ok (.fault .argumentMismatch) := by
    decide +kernel
  exact ⟨((typeOf_decides (by decide) ctx).1 _).1 hidentity,
    (typeOf_decides (by decide) ctx).2.1 ⟨_, hself⟩⟩

end Typing

end LambdaShell
