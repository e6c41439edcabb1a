import LambdaShell.Term.Nameless

/-!
# Nameless terms — substitution

Substitution of a term for every index at once. Under a binder the index of
the binder itself stays and all others are one higher, in the indices as in
the terms put in their place; nothing is ever captured, so substitutions
compose without conditions. What a reduction does, `instantiate`, is the
special case that puts a term for the index 0 and lowers the others.
-/

namespace LambdaShell

namespace Nameless

/-- A renaming of indices, seen from under a binder. -/
def upRenaming (ρ : Nat → Nat) : Nat → Nat
  | 0 => 0
  | i + 1 => ρ i + 1

/-- The term with its indices renamed. -/
def rename (ρ : Nat → Nat) : Nameless → Nameless
  | index i => index (ρ i)
  | free x => free x
  | lam body => lam (body.rename (upRenaming ρ))
  | app fn arg => app (fn.rename ρ) (arg.rename ρ)

/-- A substitution, seen from under a binder. -/
def up (σ : Nat → Nameless) : Nat → Nameless
  | 0 => index 0
  | i + 1 => (σ i).rename Nat.succ

/-- **Substitution for all indices.** -/
def subst (σ : Nat → Nameless) : Nameless → Nameless
  | index i => σ i
  | free x => free x
  | lam body => lam (body.subst (up σ))
  | app fn arg => app (fn.subst σ) (arg.subst σ)

/-- The substitution of `a` for the index 0 and of `σ` for the others. -/
def cons (a : Nameless) (σ : Nat → Nameless) : Nat → Nameless
  | 0 => a
  | i + 1 => σ i

/-- **The body of an abstraction with `arg` for its own index**; the indices of
the binders around it are one lower. -/
def instantiate (body arg : Nameless) : Nameless := body.subst (cons arg index)

/-! ## How substitutions compose -/

theorem up_index : up index = index := by
  funext i
  cases i <;> rfl

@[simp] theorem subst_index (t : Nameless) : t.subst index = t := by
  induction t with
  | index i => rfl
  | free x => rfl
  | lam body ih => rw [subst, up_index, ih]
  | app fn arg ihf iha => rw [subst, ihf, iha]

theorem rename_rename (ρ ρ' : Nat → Nat) (t : Nameless) :
    (t.rename ρ).rename ρ' = t.rename fun i => ρ' (ρ i) := by
  induction t generalizing ρ ρ' with
  | index i => rfl
  | free x => rfl
  | lam body ih =>
    have hup : (fun i => upRenaming ρ' (upRenaming ρ i)) = upRenaming fun i => ρ' (ρ i) := by
      funext i
      cases i <;> rfl
    simp only [rename, ih, hup]
  | app fn arg ihf iha => simp only [rename, ihf, iha]

theorem subst_rename (ρ : Nat → Nat) (σ : Nat → Nameless) (t : Nameless) :
    (t.rename ρ).subst σ = t.subst fun i => σ (ρ i) := by
  induction t generalizing ρ σ with
  | index i => rfl
  | free x => rfl
  | lam body ih =>
    have hup : (fun i => up σ (upRenaming ρ i)) = up fun i => σ (ρ i) := by
      funext i
      cases i <;> rfl
    simp only [rename, subst, ih, hup]
  | app fn arg ihf iha => simp only [rename, subst, ihf, iha]

/-- A renaming is the substitution of indices for indices. -/
theorem rename_eq_subst (ρ : Nat → Nat) (t : Nameless) :
    t.rename ρ = t.subst fun i => index (ρ i) := by
  rw [← subst_rename, subst_index]

theorem rename_subst (σ : Nat → Nameless) (ρ : Nat → Nat) (t : Nameless) :
    (t.subst σ).rename ρ = t.subst fun i => (σ i).rename ρ := by
  induction t generalizing σ ρ with
  | index i => rfl
  | free x => rfl
  | lam body ih =>
    have hup : (fun i => (up σ i).rename (upRenaming ρ)) = up fun i => (σ i).rename ρ := by
      funext i
      cases i with
      | zero => rfl
      | succ i =>
        -- both raise the indices of `σ i` and rename them, in either order
        simp only [up, rename_rename, upRenaming]
    simp only [rename, subst, ih, hup]
  | app fn arg ihf iha => simp only [rename, subst, ihf, iha]

/-- **Two substitutions one after the other** are one. -/
theorem subst_subst (σ σ' : Nat → Nameless) (t : Nameless) :
    (t.subst σ).subst σ' = t.subst fun i => (σ i).subst σ' := by
  induction t generalizing σ σ' with
  | index i => rfl
  | free x => rfl
  | lam body ih =>
    have hup : (fun i => (up σ i).subst (up σ')) = up fun i => (σ i).subst σ' := by
      funext i
      cases i with
      | zero => rfl
      | succ i =>
        simp only [up, subst_rename, rename_subst]
    simp only [subst, ih, hup]
  | app fn arg ihf iha => simp only [subst, ihf, iha]

/-- A term that does not use the index 0 is not changed by its instantiation. -/
theorem subst_cons_rename_succ (a : Nameless) (σ : Nat → Nameless) (t : Nameless) :
    (t.rename Nat.succ).subst (cons a σ) = t.subst σ := by
  rw [subst_rename]
  rfl

/-- Instantiating after a substitution under the binder. -/
theorem instantiate_subst_up (body arg : Nameless) (σ : Nat → Nameless) :
    (body.subst (up σ)).instantiate arg = body.subst (cons arg σ) := by
  have hcons : (fun i => (up σ i).subst (cons arg index)) = cons arg σ := by
    funext i
    cases i with
    | zero => rfl
    | succ i => exact (subst_cons_rename_succ arg index (σ i)).trans (subst_index _)
  rw [instantiate, subst_subst, hcons]

/-- **Substitution goes through an instantiation**, into the body and the
argument. -/
theorem subst_instantiate (body arg : Nameless) (σ : Nat → Nameless) :
    (body.instantiate arg).subst σ = (body.subst (up σ)).instantiate (arg.subst σ) := by
  have hcons : (fun i => (cons arg index i).subst σ) = cons (arg.subst σ) σ := by
    funext i
    cases i <;> rfl
  rw [instantiate_subst_up, instantiate, subst_subst, hcons]

end Nameless

end LambdaShell
