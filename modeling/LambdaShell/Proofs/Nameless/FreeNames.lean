import LambdaShell.Proofs.Nameless.Annotated

/-!
# Nameless terms — free names

The nameless form of a term keeps the names that are free in it and its
levels of nesting (`mem_names_nameless`, `depth_nameless`), so both can be
spoken of without the term. A substitution for a name, where no binder is
around, is the replacement of the free name in the nameless form
(`nameless_subst_nil`): what is put in has no index that a binder could
take, and goes in as it is. Two such replacements one after the other are
one, and so substitutions for two names can change places
(`subst_subst_alphaEq`).
-/

namespace LambdaShell

namespace Nameless

/-! ## Names and nesting -/

/-- **The free names of a nameless term**, once per occurrence. -/
def names : Nameless → List String
  | index _ => []
  | free x => [x]
  | lam body => body.names
  | app fn arg => fn.names ++ arg.names

/-- The number of levels on the longest path to a variable. -/
def depth : Nameless → Nat
  | index _ => 1
  | free _ => 1
  | lam body => body.depth + 1
  | app fn arg => max fn.depth arg.depth + 1

/-- Whether a nameless term is nested at most as deeply as a limit allows. -/
def fits (limit : Option Nat) (m : Nameless) : Bool :=
  match limit with
  | none => true
  | some n => m.depth ≤ n

theorem fits_of_depth_le {limit : Option Nat} {m n : Nameless} (h : m.depth ≤ n.depth)
    (hn : n.fits limit = true) : m.fits limit = true := by
  cases limit with
  | none => rfl
  | some k =>
    simp only [fits, decide_eq_true_eq] at hn ⊢
    omega

theorem fits_lam {limit : Option Nat} {body : Nameless} (h : (lam body).fits limit = true) :
    body.fits limit = true :=
  fits_of_depth_le (by simp only [depth]; omega) h

theorem fits_app {limit : Option Nat} {fn arg : Nameless} (h : (app fn arg).fits limit = true) :
    fn.fits limit = true ∧ arg.fits limit = true :=
  ⟨fits_of_depth_le (by simp only [depth]; omega) h,
    fits_of_depth_le (by simp only [depth]; omega) h⟩

/-! ## Replacing free names -/

/-- **The nameless term with `φ x` for every free name `x`**, put in as it is. -/
def replaceFree (φ : String → Nameless) : Nameless → Nameless
  | index i => index i
  | free x => φ x
  | lam body => lam (body.replaceFree φ)
  | app fn arg => app (fn.replaceFree φ) (arg.replaceFree φ)

/-- The replacement of one name; the others stay. -/
def single (x : String) (m : Nameless) (y : String) : Nameless := if y = x then m else free y

/-- **A nameless term without loose indices**: renaming them changes nothing. -/
def Sealed (m : Nameless) : Prop := ∀ ρ, m.rename ρ = m

theorem sealed_free (x : String) : (free x).Sealed := fun _ => rfl

theorem Sealed.single {m : Nameless} (h : m.Sealed) (x y : String) : (single x m y).Sealed := by
  unfold Nameless.single
  split
  · exact h
  · exact sealed_free y

/-- A renaming of indices does not meet sealed terms that are put in. -/
theorem rename_replaceFree {φ : String → Nameless} (hφ : ∀ x, (φ x).Sealed) (ρ : Nat → Nat)
    (m : Nameless) : (m.replaceFree φ).rename ρ = (m.rename ρ).replaceFree φ := by
  induction m generalizing ρ with
  | index i => rfl
  | free x => exact hφ x ρ
  | lam body ih => simp only [replaceFree, rename, ih]
  | app fn arg ihf iha => simp only [replaceFree, rename, ihf, iha]

/-- **Two replacements one after the other** are one. -/
theorem replaceFree_replaceFree (φ ψ : String → Nameless) (m : Nameless) :
    (m.replaceFree φ).replaceFree ψ = m.replaceFree fun x => (φ x).replaceFree ψ := by
  induction m with
  | index i => rfl
  | free x => rfl
  | lam body ih => rw [replaceFree, replaceFree, ih, replaceFree]
  | app fn arg ihf iha => rw [replaceFree, replaceFree, ihf, iha, replaceFree]

theorem replaceFree_single_of_not_mem {x : String} {m : Nameless} (h : x ∉ m.names)
    (n : Nameless) : m.replaceFree (single x n) = m := by
  induction m with
  | index i => rfl
  | free y =>
    have hyx : y ≠ x := fun e => h (List.mem_singleton.2 e.symm)
    rw [replaceFree, single, if_neg hyx]
  | lam body ih => rw [replaceFree, ih h]
  | app fn arg ihf iha =>
    rw [names, List.mem_append, not_or] at h
    rw [replaceFree, ihf h.1, iha h.2]

/-- **The replacements of two names change places**, if what is put for the second
does not have the first in it: then the second is replaced in what is put for the first. -/
theorem replaceFree_single_comm {x y : String} {n k : Nameless} (hxy : x ≠ y) (hx : x ∉ k.names)
    (m : Nameless) :
    (m.replaceFree (single x n)).replaceFree (single y k) =
      (m.replaceFree (single y k)).replaceFree (single x (n.replaceFree (single y k))) := by
  rw [replaceFree_replaceFree, replaceFree_replaceFree]
  congr 1
  funext z
  by_cases hzx : z = x
  · have hzy : z ≠ y := by rw [hzx]; exact hxy
    rw [single, if_pos hzx, single, if_neg hzy, replaceFree, single, if_pos hzx]
  · by_cases hzy : z = y
    · have hk := replaceFree_single_of_not_mem hx (n.replaceFree (single y k))
      simp only [single, if_neg hzx, if_pos hzy, replaceFree, hk]
    · simp only [single, if_neg hzx, if_neg hzy, replaceFree]

end Nameless

namespace Term

open Nameless (Sealed single)

/-! ## The nameless form of a term -/

theorem findIdx?_of_not_mem {x : String} {scope : List String} (h : x ∉ scope) :
    scope.findIdx? (· = x) = none := by
  rw [List.findIdx?_eq_none_iff]
  intro y hy
  exact decide_eq_false fun e => h (e ▸ hy)

theorem resolve_of_not_mem {x : String} {scope : List String} (h : x ∉ scope) :
    resolve x scope = .free x := by
  rw [resolve, findIdx?_of_not_mem h]

theorem exists_resolve_of_mem {x : String} {scope : List String} (h : x ∈ scope) :
    ∃ i, resolve x scope = .index i := by
  unfold resolve
  cases hfind : scope.findIdx? (· = x) with
  | some i => exact ⟨i, rfl⟩
  | none => exact absurd (List.findIdx?_eq_none_iff.1 hfind x h) (by simp)

theorem mem_names_resolve {x y : String} {scope : List String} :
    x ∈ (resolve y scope).names ↔ x = y ∧ x ∉ scope := by
  by_cases hy : y ∈ scope
  · obtain ⟨i, hi⟩ := exists_resolve_of_mem hy
    rw [hi]
    simp only [Nameless.names, List.not_mem_nil, false_iff]
    rintro ⟨rfl, hx⟩
    exact hx hy
  · rw [resolve_of_not_mem hy]
    simp only [Nameless.names, List.mem_singleton]
    exact ⟨fun hx => ⟨hx, by rw [hx]; exact hy⟩, And.left⟩

/-- **The free names of the nameless form** are those of the term that no binder
around it binds. -/
theorem mem_names_nameless {x : String} {t : Term} {scope : List String} :
    x ∈ (t.nameless scope).names ↔ x ∈ t.freeVars ∧ x ∉ scope := by
  induction t generalizing scope with
  | var y =>
    rw [mem_freeVars_var]
    exact mem_names_resolve
  | lam y a body ih =>
    simp only [nameless, Nameless.names, ih, mem_freeVars_lam, List.mem_cons, not_or, and_assoc]
  | app fn arg ihf iha =>
    simp only [nameless, Nameless.names, List.mem_append, ihf, iha, mem_freeVars_app, or_and_right]

@[simp] theorem mem_names_nameless_nil {x : String} {t : Term} :
    x ∈ (t.nameless []).names ↔ x ∈ t.freeVars := by
  simp [mem_names_nameless]

/-- **The nameless form is nested as the term is.** -/
@[simp] theorem depth_nameless (scope : List String) (t : Term) :
    (t.nameless scope).depth = t.depth := by
  induction t generalizing scope with
  | var x =>
    unfold nameless resolve
    split <;> rfl
  | lam x a body ih => rw [nameless, Nameless.depth, ih, depth]
  | app fn arg ihf iha => rw [nameless, Nameless.depth, ihf, iha, depth]

@[simp] theorem fits_nameless (scope : List String) (t : Term) (limit : Option Nat) :
    (t.nameless scope).fits limit = t.fits limit := by
  cases limit with
  | none => rfl
  | some n => rw [Nameless.fits, fits, depth_nameless]

/-- A binder around a term does not show in its form if it binds none of its
free names. -/
theorem nameless_eq_nil {scope : List String} {t : Term} (h : ∀ x ∈ t.freeVars, x ∉ scope) :
    t.nameless scope = t.nameless [] := by
  rw [← erase_annotated, ← erase_annotated, annotated_congr]
  intro y hy
  rw [Annotated.ofName, findIdx?_of_not_mem (h y hy)]
  rfl

/-- Where no binder is around a term, its form has no loose indices. -/
theorem sealed_nameless_nil (t : Term) : (t.nameless []).Sealed := by
  intro ρ
  have hrename : (t.annotated []).rename ρ = t.annotated [] := rename_annotated fun y _ => rfl
  rw [← erase_annotated, ← Annotated.erase_rename, hrename]

/-! ## Substitution at the top -/

/-- A substitution for indices in one scope is a replacement of free names in
another, if it is so for the free names of the term. -/
theorem subst_nameless_of_agree {scope scope' : List String} {σ : Nat → Nameless}
    {φ : String → Nameless} (hφ : ∀ x, (φ x).Sealed) {t : Term}
    (h : ∀ y ∈ t.freeVars, (resolve y scope).subst σ = (resolve y scope').replaceFree φ) :
    (t.nameless scope).subst σ = (t.nameless scope').replaceFree φ := by
  induction t generalizing scope scope' σ with
  | var x => exact h x (by simp)
  | lam x a body ih =>
    refine congrArg Nameless.lam (ih fun y hy => ?_)
    by_cases hyx : y = x
    · rw [hyx, resolve_cons_self, resolve_cons_self]
      rfl
    · have hup : (resolve y (x :: scope)).subst (Nameless.up σ) =
          ((resolve y scope).subst σ).rename Nat.succ := by
        rw [resolve_cons_of_ne hyx, Nameless.subst_rename, Nameless.rename_subst]
        rfl
      rw [hup, h y (by simp [hy, hyx]), Nameless.rename_replaceFree hφ, resolve_cons_of_ne hyx]
  | app fn arg ihf iha =>
    have hf := ihf fun y hy => h y (by simp [hy])
    have ha := iha fun y hy => h y (by simp [hy])
    simp only [nameless, Nameless.subst, Nameless.replaceFree, hf, ha]

/-- **Substitution for a name replaces the free name** in the nameless form. -/
theorem nameless_subst_nil (t : Term) (x : String) (r : Term) :
    (t.subst x r).nameless [] = (t.nameless []).replaceFree (single x (r.nameless [])) := by
  rw [nameless_subst, Nameless.instantiate]
  refine subst_nameless_of_agree (fun y => (sealed_nameless_nil r).single x y) fun y _ => ?_
  by_cases hyx : y = x
  · simp [hyx, resolve, single, Nameless.subst, Nameless.cons, Nameless.replaceFree]
  · have hxy : ¬ x = y := fun e => hyx e.symm
    simp [hyx, hxy, resolve, single, Nameless.subst, Nameless.replaceFree]

/-- **Substitutions for two names change places**, up to bound names, if the name that is
substituted for first is not free in what comes second: then the second
substitution is made in the replacement of the first. Neither the binders
that take fresh names on the way nor the names they take are the same. -/
theorem subst_subst_alphaEq {x y : String} {v : Term} (hxy : x ≠ y) (hx : x ∉ v.freeVars)
    (t u : Term) :
    ((t.subst x u).subst y v).AlphaEq ((t.subst y v).subst x (u.subst y v)) := by
  have hx' : x ∉ (v.nameless []).names := by rwa [mem_names_nameless_nil]
  simp only [AlphaEq, nameless_subst_nil]
  exact Nameless.replaceFree_single_comm hxy hx' _

/-- `z` for `x` and then `z1` for `y` in `λz. x (λz1. y)` gives `λz2. z (λz2. z1)`; in the
other order it gives `λz3. z (λz2. z1)`. -/
theorem subst_subst_alphaEq_renamed :
    let t : Term := .lam "z" none (.app (.var "x") (.lam "z1" none (.var "y")))
    let u : Term := .var "z"
    let v : Term := .var "z1"
    let result (name : String) : Term :=
      .lam name none (.app (.var "z") (.lam "z2" none (.var "z1")))
    "x" ∉ v.freeVars ∧ (t.subst "x" u).subst "y" v = result "z2" ∧
      (t.subst "y" v).subst "x" (u.subst "y" v) = result "z3" ∧
      ((t.subst "x" u).subst "y" v).AlphaEq ((t.subst "y" v).subst "x" (u.subst "y" v)) := by
  intro t u v result
  have hx : "x" ∉ v.freeVars := by decide
  exact ⟨hx, by decide +kernel, by decide +kernel, subst_subst_alphaEq (by decide) hx t u⟩

end Term

end LambdaShell
