import LambdaShell.Proofs.Nameless.Annotated

/-!
# Nameless terms — substitution for one index

Substitution for all indices at once is convenient in proofs. The usual
definition has one index to replace and moves along with the binders: under
each of them the index to replace is one higher, and so are the indices of
the term that is put in its place; the indices beyond it are one lower,
since a binder is gone. Both are the same (`Annotated.putAt_zero`), and so
substitution for a name is the usual substitution for the index that the
name stands for, with annotations and without
(`Term.subst_puts_at_zero`).
-/

namespace LambdaShell

namespace Nameless

/-- The indices from `cutoff` on, one higher. -/
def raise (cutoff : Nat) : Nameless → Nameless
  | index i => if i < cutoff then index i else index (i + 1)
  | free x => free x
  | lam body => lam (body.raise (cutoff + 1))
  | app fn arg => app (fn.raise cutoff) (arg.raise cutoff)

/-- **The term with `a` for the index `k`**, and the indices beyond it one lower. -/
def putAt : Nameless → Nat → Nameless → Nameless
  | index i, k, a => if i < k then index i else if i = k then a else index (i - 1)
  | free x, _, _ => free x
  | lam body, k, a => lam (body.putAt (k + 1) (a.raise 0))
  | app fn arg, k, a => app (fn.putAt k a) (arg.putAt k a)

end Nameless

namespace Annotated

open Nameless (upRenaming)

/-- The indices from `cutoff` on, one higher. -/
def raise (cutoff : Nat) : Annotated → Annotated
  | index i => if i < cutoff then index i else index (i + 1)
  | free x => free x
  | lam declared body => lam declared (body.raise (cutoff + 1))
  | app fn arg => app (fn.raise cutoff) (arg.raise cutoff)

/-- **The term with `a` for the index `k`**, and the indices beyond it one lower. -/
def putAt : Annotated → Nat → Annotated → Annotated
  | index i, k, a => if i < k then index i else if i = k then a else index (i - 1)
  | free x, _, _ => free x
  | lam declared body, k, a => lam declared (body.putAt (k + 1) (a.raise 0))
  | app fn arg, k, a => app (fn.putAt k a) (arg.putAt k a)

/-! ## As substitutions for all indices -/

/-- The renaming that leaves out the index `cutoff`. -/
def skipping (cutoff i : Nat) : Nat := if i < cutoff then i else i + 1

theorem upRenaming_skipping (cutoff : Nat) :
    upRenaming (skipping cutoff) = skipping (cutoff + 1) := by
  funext i
  cases i with
  | zero => simp [upRenaming, skipping]
  | succ i => simp only [upRenaming, skipping, Nat.add_lt_add_iff_right]; split <;> rfl

theorem raise_eq_rename (cutoff : Nat) (t : Annotated) :
    t.raise cutoff = t.rename (skipping cutoff) := by
  induction t generalizing cutoff with
  | index i => simp only [raise, rename, skipping]; split <;> rfl
  | free x => rfl
  | lam declared body ih => rw [raise, rename, ih, upRenaming_skipping]
  | app fn arg ihf iha => rw [raise, rename, ihf, iha]

/-- The substitution for all indices that puts `a` for the index `k`. -/
def placing (k : Nat) (a : Annotated) (i : Nat) : Annotated :=
  if i < k then index i else if i = k then a else index (i - 1)

/-- Under a binder the place is one further, and the term is raised. -/
theorem up_placing (k : Nat) (a : Annotated) :
    up (placing k a) = placing (k + 1) (a.raise 0) := by
  have hraise : a.raise 0 = a.rename Nat.succ := by
    rw [raise_eq_rename]
    congr 1
  funext i
  cases i with
  | zero => rfl
  | succ i =>
    simp only [up, placing, Nat.add_lt_add_iff_right, Nat.add_right_cancel_iff, hraise]
    rcases Nat.lt_trichotomy i k with hlt | rfl | hgt
    · simp only [if_pos hlt, rename]
    · simp
    · -- an index beyond the place was lowered and is raised again
      have hpred : (i - 1).succ = i + 1 - 1 := by omega
      simp only [if_neg (Nat.not_lt_of_gt hgt), if_neg (Nat.ne_of_gt hgt), rename, hpred]

theorem putAt_eq_subst (k : Nat) (a t : Annotated) : t.putAt k a = t.subst (placing k a) := by
  induction t generalizing k a with
  | index i => rfl
  | free x => rfl
  | lam declared body ih => rw [putAt, subst, ih, up_placing]
  | app fn arg ihf iha => rw [putAt, subst, ihf, iha]

/-- **To put a term for the index 0 is to instantiate.** -/
theorem putAt_zero (body a : Annotated) : body.putAt 0 a = body.instantiate a := by
  have hplacing : placing 0 a = cons a index := by
    funext i
    cases i <;> rfl
  rw [putAt_eq_subst, hplacing, instantiate]

/-! ## Erasing the annotations -/

theorem erase_raise (cutoff : Nat) (t : Annotated) :
    (t.raise cutoff).erase = t.erase.raise cutoff := by
  induction t generalizing cutoff with
  | index i => simp only [raise, erase, Nameless.raise]; split <;> rfl
  | free x => rfl
  | lam declared body ih => simp only [raise, erase, Nameless.raise, ih]
  | app fn arg ihf iha => simp only [raise, erase, Nameless.raise, ihf, iha]

theorem erase_putAt (k : Nat) (a t : Annotated) :
    (t.putAt k a).erase = t.erase.putAt k a.erase := by
  induction t generalizing k a with
  | index i =>
    simp only [putAt, erase, Nameless.putAt]
    split
    · rfl
    · split <;> rfl
  | free x => rfl
  | lam declared body ih => simp only [putAt, erase, Nameless.putAt, ih, erase_raise]
  | app fn arg ihf iha => simp only [putAt, erase, Nameless.putAt, ihf, iha]

end Annotated

/-- **Capture-avoiding substitution is correct.** Seen from any scope, in which names
may be repeated, the substitution of a term for a name puts the nameless form
of the term for the index of the name, which is 0 when the name is added to
the scope as its innermost one. The same is true of the nameless forms that
keep the annotations of their binders. -/
theorem Term.subst_puts_at_zero (t : Term) (x : String) (r : Term) (scope : List String) :
    (t.subst x r).nameless scope = (t.nameless (x :: scope)).putAt 0 (r.nameless scope) ∧
      (t.subst x r).annotated scope =
        (t.annotated (x :: scope)).putAt 0 (r.annotated scope) := by
  have hannotated : (t.subst x r).annotated scope =
      (t.annotated (x :: scope)).putAt 0 (r.annotated scope) := by
    rw [Annotated.putAt_zero, annotated_subst]
  refine ⟨?_, hannotated⟩
  rw [← erase_annotated, hannotated, Annotated.erase_putAt, erase_annotated, erase_annotated]

end LambdaShell
