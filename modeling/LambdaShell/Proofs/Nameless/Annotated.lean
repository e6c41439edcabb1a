import LambdaShell.Proofs.Nameless.Substitution
import LambdaShell.Proofs.Term.Fresh

/-!
# Nameless terms — what substitution does to them

Substitution of a term for a name is the substitution of its nameless form
for an index (`nameless_subst`). The names that binders take on the way
leave no trace in the nameless form, whatever they are, as long as they are
fresh.

The equation is proved for nameless terms that keep the annotations of
their binders, and read off for those that do not by erasing annotations on
both sides. The induction follows the definition of substitution, and what
it carries is an agreement of two scopes: under the substitution for
indices, every free name but the one replaced means in the one scope what
it means in the other.
-/

namespace LambdaShell

/-- **Nameless terms that keep the annotations of their binders.** -/
inductive Annotated where
  /-- A bound variable, by the number of binders it skips. -/
  | index (i : Nat)
  /-- A free variable, which keeps its name. -/
  | free (name : String)
  /-- An abstraction, perhaps with the type of its argument. -/
  | lam (declared : Option Ty) (body : Annotated)
  /-- An application. -/
  | app (fn arg : Annotated)
deriving DecidableEq, Repr

namespace Annotated

open Nameless (upRenaming)

/-- The term with its indices renamed. -/
def rename (ρ : Nat → Nat) : Annotated → Annotated
  | index i => index (ρ i)
  | free x => free x
  | lam a body => lam a (body.rename (upRenaming ρ))
  | app fn arg => app (fn.rename ρ) (arg.rename ρ)

/-- A substitution, seen from under a binder. -/
def up (σ : Nat → Annotated) : Nat → Annotated
  | 0 => index 0
  | i + 1 => (σ i).rename Nat.succ

/-- **Substitution for all indices.** -/
def subst (σ : Nat → Annotated) : Annotated → Annotated
  | index i => σ i
  | free x => free x
  | lam a body => lam a (body.subst (up σ))
  | app fn arg => app (fn.subst σ) (arg.subst σ)

/-- The substitution of `a` for the index 0 and of `σ` for the others. -/
def cons (a : Annotated) (σ : Nat → Annotated) : Nat → Annotated
  | 0 => a
  | i + 1 => σ i

/-- **The body of an abstraction with `arg` for its own index**; the indices of
the binders around it are one lower. -/
def instantiate (body arg : Annotated) : Annotated := body.subst (cons arg index)

theorem upRenaming_id : upRenaming id = id := by
  funext i
  cases i <;> rfl

@[simp] theorem rename_id (t : Annotated) : t.rename id = t := by
  induction t with
  | index i => rfl
  | free x => rfl
  | lam a body ih => rw [rename, upRenaming_id, ih]
  | app fn arg ihf iha => rw [rename, ihf, iha]

/-! ## Erasing the annotations -/

/-- The nameless term without the annotations. -/
def erase : Annotated → Nameless
  | index i => .index i
  | free x => .free x
  | lam _ body => .lam body.erase
  | app fn arg => .app fn.erase arg.erase

@[simp] theorem erase_rename (ρ : Nat → Nat) (t : Annotated) :
    (t.rename ρ).erase = t.erase.rename ρ := by
  induction t generalizing ρ with
  | index i => rfl
  | free x => rfl
  | lam a body ih => simp only [rename, erase, Nameless.rename, ih]
  | app fn arg ihf iha => simp only [rename, erase, Nameless.rename, ihf, iha]

@[simp] theorem erase_subst (σ : Nat → Annotated) (t : Annotated) :
    (t.subst σ).erase = t.erase.subst fun i => (σ i).erase := by
  induction t generalizing σ with
  | index i => rfl
  | free x => rfl
  | lam a body ih =>
    have hup : (fun i => (up σ i).erase) = Nameless.up fun i => (σ i).erase := by
      funext i
      cases i with
      | zero => rfl
      | succ i => exact erase_rename Nat.succ (σ i)
    simp only [subst, erase, Nameless.subst, ih, hup]
  | app fn arg ihf iha => simp only [subst, erase, Nameless.subst, ihf, iha]

theorem erase_instantiate (body arg : Annotated) :
    (body.instantiate arg).erase = body.erase.instantiate arg.erase := by
  have hcons : (fun i => (cons arg index i).erase) = Nameless.cons arg.erase .index := by
    funext i
    cases i <;> rfl
  rw [instantiate, erase_subst, hcons, Nameless.instantiate]

/-! ## Names in a scope -/

/-- A variable seen from under the binders `scope`, innermost first. -/
def ofName (x : String) (scope : List String) : Annotated :=
  match scope.findIdx? (· = x) with
  | some i => index i
  | none => free x

theorem erase_ofName (x : String) (scope : List String) :
    (ofName x scope).erase = Term.resolve x scope := by
  unfold ofName Term.resolve
  cases scope.findIdx? (· = x) <;> rfl

@[simp] theorem ofName_cons_self (x : String) (scope : List String) :
    ofName x (x :: scope) = index 0 := by
  simp [ofName, List.findIdx?_cons]

theorem ofName_cons_of_ne {x y : String} (h : y ≠ x) (scope : List String) :
    ofName y (x :: scope) = (ofName y scope).rename Nat.succ := by
  have hxy : ¬ x = y := fun e => h e.symm
  simp only [ofName, List.findIdx?_cons, hxy, decide_false, Bool.false_eq_true, if_false]
  cases scope.findIdx? (· = y) <;> rfl

/-- A substitution under a binder, at a name that is not the binder's. -/
theorem subst_up_ofName {x y : String} (h : y ≠ x) (σ : Nat → Annotated) (scope : List String) :
    (ofName y (x :: scope)).subst (up σ) = ((ofName y scope).subst σ).rename Nat.succ := by
  rw [ofName_cons_of_ne h]
  unfold ofName
  cases scope.findIdx? (· = y) <;> rfl

section Agreement

variable {x y : String} {scope scope' : List String}

/-! Two scopes agree on a name under a binder if they agree on it outside,
unless it is the binder's own. -/

theorem ofName_cons_congr (h : y ≠ x → ofName y scope = ofName y scope') :
    ofName y (x :: scope) = ofName y (x :: scope') := by
  by_cases hyx : y = x
  · rw [hyx, ofName_cons_self, ofName_cons_self]
  · rw [ofName_cons_of_ne hyx, ofName_cons_of_ne hyx, h hyx]

theorem rename_up_agree {ρ : Nat → Nat}
    (h : y ≠ x → (ofName y scope).rename ρ = ofName y scope') :
    (ofName y (x :: scope)).rename (upRenaming ρ) = ofName y (x :: scope') := by
  by_cases hyx : y = x
  · rw [hyx, ofName_cons_self, ofName_cons_self]
    rfl
  · have hup : (ofName y (x :: scope)).rename (upRenaming ρ) =
        ((ofName y scope).rename ρ).rename Nat.succ := by
      rw [ofName_cons_of_ne hyx]
      unfold ofName
      cases scope.findIdx? (· = y) <;> rfl
    rw [hup, h hyx, ofName_cons_of_ne hyx]

theorem subst_up_agree {σ : Nat → Annotated}
    (h : y ≠ x → (ofName y scope).subst σ = ofName y scope') :
    (ofName y (x :: scope)).subst (up σ) = ofName y (x :: scope') := by
  by_cases hyx : y = x
  · rw [hyx, ofName_cons_self, ofName_cons_self]
    rfl
  · rw [subst_up_ofName hyx, h hyx, ofName_cons_of_ne hyx]

end Agreement

end Annotated

namespace Term

open Annotated (ofName up cons index)

/-- **The nameless form of a term, with annotations**, under the binders
`scope`, innermost first. -/
def annotated (scope : List String) : Term → Annotated
  | var x => ofName x scope
  | lam x a body => .lam a (body.annotated (x :: scope))
  | app fn arg => .app (fn.annotated scope) (arg.annotated scope)

theorem erase_annotated (scope : List String) (t : Term) :
    (t.annotated scope).erase = t.nameless scope := by
  induction t generalizing scope with
  | var x => exact Annotated.erase_ofName x scope
  | lam x a body ih => simp only [annotated, Annotated.erase, nameless, ih]
  | app fn arg ihf iha => simp only [annotated, Annotated.erase, nameless, ihf, iha]

/-! ## Names in a scope -/

@[simp] theorem resolve_cons_self (x : String) (scope : List String) :
    resolve x (x :: scope) = .index 0 := by
  rw [← Annotated.erase_ofName, Annotated.ofName_cons_self, Annotated.erase]

theorem resolve_cons_of_ne {x y : String} (h : y ≠ x) (scope : List String) :
    resolve y (x :: scope) = (resolve y scope).rename Nat.succ := by
  rw [← Annotated.erase_ofName, ← Annotated.erase_ofName, Annotated.ofName_cons_of_ne h,
    Annotated.erase_rename]

/-! ## Change of scope -/

/-- A renaming of indices that carries the meaning of every free name from one
scope to another carries the form of the term. -/
theorem rename_annotated {scope scope' : List String} {ρ : Nat → Nat} {t : Term}
    (h : ∀ y ∈ t.freeVars, (ofName y scope).rename ρ = ofName y scope') :
    (t.annotated scope).rename ρ = t.annotated scope' := by
  induction t generalizing scope scope' ρ with
  | var x => exact h x (by simp)
  | lam x a body ih =>
    refine congrArg (Annotated.lam a) (ih fun y hy => ?_)
    exact Annotated.rename_up_agree fun hyx => h y (by simp [hy, hyx])
  | app fn arg ihf iha =>
    have hf := ihf fun y hy => h y (by simp [hy])
    have ha := iha fun y hy => h y (by simp [hy])
    simp only [annotated, Annotated.rename, hf, ha]

/-- A scope counts for no more than what it says of the free names. -/
theorem annotated_congr {scope scope' : List String} {t : Term}
    (h : ∀ y ∈ t.freeVars, ofName y scope = ofName y scope') :
    t.annotated scope = t.annotated scope' := by
  have hid : (t.annotated scope).rename id = t.annotated scope' :=
    rename_annotated fun y hy => by rw [Annotated.rename_id, h y hy]
  rwa [Annotated.rename_id] at hid

/-- Under one more binder that binds nothing in the term, the indices are one
higher. -/
theorem annotated_cons_of_not_mem {x : String} {t : Term} (h : x ∉ t.freeVars)
    (scope : List String) : t.annotated (x :: scope) = (t.annotated scope).rename Nat.succ := by
  refine (rename_annotated fun y hy => ?_).symm
  have hne : y ≠ x := by
    rintro rfl
    exact h hy
  exact (Annotated.ofName_cons_of_ne hne scope).symm

/-- A substitution for indices that leaves every free name its meaning leaves
the form of the term. -/
theorem subst_annotated {scope scope' : List String} {σ : Nat → Annotated} {t : Term}
    (h : ∀ y ∈ t.freeVars, (ofName y scope).subst σ = ofName y scope') :
    (t.annotated scope).subst σ = t.annotated scope' := by
  induction t generalizing scope scope' σ with
  | var x => exact h x (by simp)
  | lam x a body ih =>
    refine congrArg (Annotated.lam a) (ih fun y hy => ?_)
    exact Annotated.subst_up_agree fun hyx => h y (by simp [hy, hyx])
  | app fn arg ihf iha =>
    have hf := ihf fun y hy => h y (by simp [hy])
    have ha := iha fun y hy => h y (by simp [hy])
    simp only [annotated, Annotated.subst, hf, ha]

/-! ## Change of a name -/

/-- The free names of a term after a change of name. -/
theorem mem_freeVars_replaceName {x y z : String} {t : Term}
    (h : z ∈ (t.replaceName x y).freeVars) : z = y ∨ z ∈ t.freeVars ∧ z ≠ x := by
  induction t with
  | var w =>
    simp only [replaceName] at h
    split at h
    · exact Or.inl (by simpa using h)
    · rename_i hw
      have hz : z = w := by simpa using h
      exact Or.inr ⟨by simp [hz], by rw [hz]; exact hw⟩
  | lam w a body ih =>
    simp only [replaceName] at h
    split at h
    · rename_i hw
      rw [mem_freeVars_lam] at h
      exact Or.inr ⟨mem_freeVars_lam.2 h, by rw [← hw]; exact h.2⟩
    · rw [mem_freeVars_lam] at h
      exact (ih h.1).imp_right fun hz => ⟨mem_freeVars_lam.2 ⟨hz.1, h.2⟩, hz.2⟩
  | app fn arg ihf iha =>
    simp only [replaceName, mem_freeVars_app] at h
    rcases h with h | h
    · exact (ihf h).imp_right fun hz => ⟨mem_freeVars_app.2 (Or.inl hz.1), hz.2⟩
    · exact (iha h).imp_right fun hz => ⟨mem_freeVars_app.2 (Or.inr hz.1), hz.2⟩

/-- **A change of name does not show** where the new name means in its scope
what the old one meant, if the term does not bind the new name. -/
theorem annotated_replaceName {x y : String} {scope scope' : List String} {t : Term}
    (hb : y ∉ t.boundVars) (hxy : ofName y scope' = ofName x scope)
    (h : ∀ z ∈ t.freeVars, z ≠ x → ofName z scope' = ofName z scope) :
    (t.replaceName x y).annotated scope' = t.annotated scope := by
  induction t generalizing scope scope' with
  | var w =>
    simp only [replaceName]
    split
    · rename_i hw
      rw [hw]
      exact hxy
    · rename_i hw
      exact h w (by simp) hw
  | lam w a body ih =>
    simp only [boundVars, List.mem_cons, not_or] at hb
    simp only [replaceName]
    split
    · -- the binder is the old name, so the body does not see the change
      rename_i hw
      subst hw
      refine congrArg (Annotated.lam a) (annotated_congr fun z hz => ?_)
      exact Annotated.ofName_cons_congr fun hzw => h z (by simp [hz, hzw]) hzw
    · rename_i hw
      refine congrArg (Annotated.lam a) (ih hb.2 ?_ fun z hz hzx => ?_)
      · rw [Annotated.ofName_cons_of_ne hb.1, hxy,
          Annotated.ofName_cons_of_ne fun e => hw e.symm]
      · exact Annotated.ofName_cons_congr fun hzw => h z (by simp [hz, hzw]) hzx
  | app fn arg ihf iha =>
    simp only [boundVars, List.mem_append, not_or] at hb
    have hf := ihf hb.1 hxy fun z hz => h z (by simp [hz])
    have ha := iha hb.2 hxy fun z hz => h z (by simp [hz])
    simp only [replaceName, annotated, hf, ha]

/-! ## Substitution -/

/-- **Substitution for a name is substitution for indices**, whenever the latter
gives the name the meaning of the replacement and every other free name of
the term the meaning it has around the result. -/
theorem subst_annotated_of_agree {name : String} {t replacement : Term}
    {scope scope' : List String} {σ : Nat → Annotated}
    (hname : (ofName name scope).subst σ = replacement.annotated scope')
    (h : ∀ y ∈ t.freeVars, y ≠ name → (ofName y scope).subst σ = ofName y scope') :
    (t.annotated scope).subst σ = (t.subst name replacement).annotated scope' := by
  fun_induction Term.subst t name replacement generalizing scope scope' σ with
  | case1 => exact hname
  | case2 x hx => exact h x (by simp) hx
  | case3 fn arg ihf iha =>
    have hf := ihf hname fun y hy => h y (by simp [hy])
    have ha := iha hname fun y hy => h y (by simp [hy])
    simp only [annotated, Annotated.subst, hf, ha]
  | case4 x a body hx =>
    -- the name is not free in the abstraction, so nothing happens to it
    refine subst_annotated fun y hy => h y hy ?_
    rintro rfl
    rw [mem_freeVars_lam] at hy
    exact hx.elim (fun e => hy.2 e.symm) fun hn => hn hy.1
  | case5 x a body hx hcapture y =>
    rename_i ih
    simp only [not_or, not_not] at hx
    have hyr : y ∉ replacement.freeVars := freshBinder_not_mem_replacement
    have hyb : y ∉ body.freeVars := freshBinder_not_mem_freeVars
    have hny : name ≠ y := by
      rintro rfl
      exact hyb hx.2
    -- first the binder takes its new name, then the body is substituted in
    have hrename : (body.replaceName x y).annotated (y :: scope) = body.annotated (x :: scope) := by
      refine annotated_replaceName freshBinder_not_mem_boundVars (by simp) fun z hz hzx => ?_
      have hzy : z ≠ y := by
        rintro rfl
        exact hyb hz
      rw [Annotated.ofName_cons_of_ne hzy, Annotated.ofName_cons_of_ne hzx]
    refine congrArg (Annotated.lam a) ?_
    rw [← hrename]
    refine ih ?_ fun z hz hzn => Annotated.subst_up_agree fun hzy => ?_
    · rw [Annotated.subst_up_ofName hny, hname, annotated_cons_of_not_mem hyr]
    · have hzb := (mem_freeVars_replaceName hz).resolve_left hzy
      exact h z (by simp [hzb.1, hzb.2]) hzn
  | case6 x a body hx hcapture ih =>
    simp only [not_or, not_not] at hx
    refine congrArg (Annotated.lam a) ?_
    refine ih ?_ fun z hz hzn => Annotated.subst_up_agree fun hzx => ?_
    · rw [Annotated.subst_up_ofName (fun e => hx.1 e.symm), hname,
        annotated_cons_of_not_mem hcapture]
    · exact h z (by simp [hz, hzx]) hzn

/-- **Substitution for a name instantiates its index**, annotations included. -/
theorem annotated_subst (t : Term) (x : String) (r : Term) (scope : List String) :
    (t.subst x r).annotated scope =
      (t.annotated (x :: scope)).instantiate (r.annotated scope) := by
  refine (subst_annotated_of_agree ?_ fun y _ hyx => ?_).symm
  · rw [Annotated.ofName_cons_self]
    rfl
  · rw [Annotated.ofName_cons_of_ne hyx]
    unfold ofName
    cases scope.findIdx? (· = y) <;> rfl

/-- **Substitution for a name instantiates its index.** -/
theorem nameless_subst (t : Term) (x : String) (r : Term) (scope : List String) :
    (t.subst x r).nameless scope = (t.nameless (x :: scope)).instantiate (r.nameless scope) := by
  rw [← erase_annotated, annotated_subst, Annotated.erase_instantiate, erase_annotated,
    erase_annotated]

end Term

end LambdaShell
