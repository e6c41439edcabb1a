import LambdaShell.Typing.Check

/-!
# Typing — the rules, read backwards

When a term has a simple type, its parts have the types that the rule for
it asks for. There is one statement for each form of term, and it is all
that is used of the checker: the order in which it looks at the parts and
the faults it gives to other terms play no role here.
-/

namespace LambdaShell

namespace Typing

variable {ctx : Context} {τ : SimpleType}

theorem typeOf_var_eq_iff {x : String} :
    typeOf ctx (.var x) = .ok (.simple τ) ↔ ctx.get? x = some (.simple τ) := by
  unfold typeOf typeOfVar
  cases ctx.get? x <;> simp

/-- An abstraction with a simple type is annotated with a simple type. -/
theorem typeOf_lam_eq_iff {x : String} {a : Option Ty} {body : Term} :
    typeOf ctx (.lam x a body) = .ok (.simple τ) ↔
      ∃ σ ρ, a = some (.simple σ) ∧ typeOf (ctx.insert x (.simple σ)) body = .ok (.simple ρ) ∧
        τ = .arrow σ ρ := by
  constructor
  · intro h
    rcases a with _ | domain
    · cases h
    rw [typeOf] at h
    rcases hbody : typeOf (ctx.insert x domain) body with e | ty <;> rw [hbody] at h
    · cases h
    rcases ty with ρ | reason
    · -- the arrow is built from the annotation, which is no fault then
      rcases domain with σ | reason
      · cases h
        exact ⟨σ, ρ, rfl, hbody, rfl⟩
      · cases h
    · cases h
  · rintro ⟨σ, ρ, rfl, hbody, rfl⟩
    rw [typeOf, hbody]
    rfl

theorem applyType_eq_iff {σ ρ : SimpleType} {ty : Ty} :
    applyType σ ρ ty = .simple τ ↔ ty = .simple σ ∧ ρ = τ := by
  rcases ty with type | reason
  · by_cases h : type = σ <;> simp [applyType, h]
  · simp [applyType]

theorem typeOf_app_eq_iff {fn arg : Term} :
    typeOf ctx (.app fn arg) = .ok (.simple τ) ↔
      ∃ σ, typeOf ctx fn = .ok (.simple (.arrow σ τ)) ∧ typeOf ctx arg = .ok (.simple σ) := by
  constructor
  · intro h
    rw [typeOf] at h
    rcases hfn : typeOf ctx fn with e | ty <;> rw [hfn] at h
    · cases h
    rcases ty with ty | reason
    · rcases ty with name | ⟨σ, ρ⟩
      · cases h
      · rcases harg : typeOf ctx arg with e | ty <;> simp only [harg] at h
        · cases h
        · obtain ⟨rfl, rfl⟩ := applyType_eq_iff.1 (Except.ok.inj h)
          exact ⟨σ, rfl, rfl⟩
    · cases h
  · rintro ⟨σ, hfn, harg⟩
    simp [typeOf, hfn, harg, applyType]

end Typing

end LambdaShell
