import LambdaShell.Proofs.Environment.Unfolding
import Mathlib.Data.List.Permutation

/-!
# Environments — the names of an expansion

Expansion goes through the free names of a term in order and replaces one
after another. Since what comes in with a meaning has no known name left,
no replacement meets an earlier one, and the whole is the replacement of
all names at once by their expanded meanings (`Unfolds.eq_replaceFree`).

What is free in the result can then be said without expanding anything: the
names without a meaning at which the references from the term come to an
end (`Ultimate`). A name that is mentioned is never lost on the way, as
every meaning goes in with all its free names.
-/

namespace LambdaShell

namespace Environment

open Relation (ReflTransGen)

variable {env : Environment} {depth : Option Nat} {m n : Nameless} {t u : Term} {x : String}

/-! ## All names at once -/

/-- **The form that takes the place of a name**: that of its expanded meaning, or the
name itself if it has none. -/
def formOf (env : Environment) (depth : Option Nat) (x : String) : Nameless :=
  match env.lookup x with
  | none => .free x
  | some meaning =>
    match env.expand depth meaning with
    | .ok expanded => expanded.nameless []
    | .error _ => .free x

namespace Unfolds

/-- A term unfolds as its names do, all of them at once. -/
theorem eq_replaceFree {φ : String → Nameless} (h : Unfolds env depth m n)
    (hφ : ∀ x ∈ m.names, Unfolds env depth (.free x) (φ x)) : n = m.replaceFree φ := by
  induction m generalizing n with
  | index i =>
    cases h
    rfl
  | free x => exact h.unique (hφ x List.mem_cons_self)
  | lam body ih =>
    cases h with
    | lam h => exact congrArg Nameless.lam (ih h hφ)
  | app fn arg ihf iha =>
    cases h with
    | app hf ha =>
      have hfn := ihf hf fun x hx => hφ x (List.mem_append_left _ hx)
      have harg := iha ha fun x hx => hφ x (List.mem_append_right _ hx)
      rw [hfn, harg, Nameless.replaceFree]

/-- The meaning of a name that unfolds can be expanded. -/
theorem exists_expand {meaning : Term} (h : Unfolds env depth (.free x) n)
    (hx : env.lookup x = some meaning) :
    ∃ v, env.expand depth meaning = .ok v ∧ v.nameless [] = n := by
  obtain ⟨hmeaning, hn, hunfolds⟩ := h.meaning hx
  exact expand_of_unfolds hunfolds hmeaning hn

/-- **A name unfolds to the form that takes its place.** -/
theorem formOf_eq (h : Unfolds env depth (.free x) n) : env.formOf depth x = n := by
  unfold formOf
  cases hx : env.lookup x with
  | none => exact (Unfolds.unknown hx).unique h
  | some meaning =>
    obtain ⟨v, hv, hform⟩ := h.exists_expand hx
    simp only [hv]
    exact hform

end Unfolds

/-! ## What is left free -/

/-- **A name mentions another** that is free in its meaning, known or not. -/
def Mentions (env : Environment) (x y : String) : Prop :=
  ∃ meaning, env.lookup x = some meaning ∧ y ∈ meaning.freeVars

/-- **The ultimate names of a term**: those without a meaning that are free in the
term or in a meaning that it leads to. -/
def Ultimate (env : Environment) (t : Term) (x : String) : Prop :=
  env.lookup x = none ∧ ∃ y ∈ t.freeVars, ReflTransGen env.Mentions y x

/-- An unknown name leads nowhere. -/
theorem eq_of_mentions_of_unknown {y : String} (h : ReflTransGen env.Mentions x y)
    (hx : env.lookup x = none) : y = x := by
  rcases h.cases_head with rfl | ⟨z, ⟨meaning, hmeaning, -⟩, -⟩
  · rfl
  · rw [hx] at hmeaning
    cases hmeaning

/-- A known name leads to the unknown ones that its meaning leads to. -/
theorem mentions_iff_of_known {y : String} {meaning : Term} (hx : env.lookup x = some meaning)
    (hy : env.lookup y = none) :
    ReflTransGen env.Mentions x y ↔ ∃ z ∈ meaning.freeVars, ReflTransGen env.Mentions z y := by
  constructor
  · intro h
    rcases h.cases_head with rfl | ⟨z, ⟨meaning', hmeaning', hz⟩, hrest⟩
    · rw [hx] at hy
      cases hy
    · obtain rfl : meaning' = meaning := Option.some.inj (hmeaning'.symm.trans hx)
      exact ⟨z, hz, hrest⟩
  · rintro ⟨z, hz, hrest⟩
    exact hrest.head ⟨meaning, hx, hz⟩

/-- **The names of what a term unfolds to**: the unknown ones that its own lead to. -/
theorem Unfolds.mem_names_iff (h : Unfolds env depth m n) :
    x ∈ n.names ↔ env.lookup x = none ∧ ∃ y ∈ m.names, ReflTransGen env.Mentions y x := by
  induction h with
  | index i => simp [Nameless.names]
  | @unknown y hy =>
    simp only [Nameless.names, List.mem_singleton, exists_eq_left]
    constructor
    · rintro rfl
      exact ⟨hy, .refl⟩
    · rintro ⟨-, hreach⟩
      exact eq_of_mentions_of_unknown hreach hy
  | @known y meaning n hy _ _ _ ih =>
    simp only [ih, Nameless.names, List.mem_singleton, exists_eq_left, Term.mem_names_nameless_nil]
    exact and_congr_right fun hx => (mentions_iff_of_known hy hx).symm
  | lam _ ih => exact ih
  | app _ _ ihf iha =>
    simp only [Nameless.names, List.mem_append, ihf, iha, or_and_right, exists_or, and_or_left]

/-! ## Expansion -/

/-- **Expansion is the full unfolding.** Where it succeeds on a term, it succeeds on the
meaning of each of its free names; the nameless form of the result is that
of the term with every known free name replaced by the form of its expanded
meaning; no free name of the result has a meaning; the names that are free
in it, and those that are reported to be in the way of an evaluation, are
the ultimate ones of the term; and a second expansion changes nothing. -/
theorem expand_replaces_all (h : env.expand depth t = .ok u) :
    (∀ x ∈ t.freeVars, ∀ meaning, env.lookup x = some meaning →
        ∃ v, env.expand depth meaning = .ok v) ∧
      u.nameless [] = (t.nameless []).replaceFree (env.formOf depth) ∧
      (∀ x ∈ u.freeVars, env.lookup x = none) ∧
      (∀ x, x ∈ u.freeVars ↔ env.Ultimate t x) ∧
      (∀ x, x ∈ u.issues.map Term.Issue.name ↔ env.Ultimate t x) ∧
      env.expand depth u = .ok u := by
  obtain ⟨-, hu, hunfolds⟩ := unfolds_of_expand h
  have hname : ∀ x ∈ (t.nameless []).names, Unfolds env depth (.free x) (env.formOf depth x) := by
    intro x hx
    obtain ⟨k, hk⟩ := hunfolds.exists_of_mem_names x hx
    rw [hk.formOf_eq]
    exact hk
  have hunknown : ∀ x ∈ u.freeVars, env.lookup x = none := fun x hx =>
    hunfolds.lookup_eq_none x (Term.mem_names_nameless_nil.2 hx)
  have hfree : ∀ x, x ∈ u.freeVars ↔ env.Ultimate t x := by
    intro x
    rw [← Term.mem_names_nameless_nil, hunfolds.mem_names_iff]
    simp only [Term.mem_names_nameless_nil, Ultimate]
  have hissues : ∀ x, x ∈ u.issues.map Term.Issue.name ↔ x ∈ u.freeVars := by
    intro x
    simp [Term.issues, Term.mem_freeNames]
  refine ⟨?_, hunfolds.eq_replaceFree hname, hunknown, hfree, ?_, expand_of_unknown hunknown hu⟩
  · intro x hx meaning hmeaning
    obtain ⟨v, hv, -⟩ := (hname x (Term.mem_names_nameless_nil.2 hx)).exists_expand hmeaning
    exact ⟨v, hv⟩
  · exact fun x => (hissues x).trans (hfree x)

/-- With `B = K z` and `K = λx. y`, the term `λy. B y` is expanded to
`λy1. (λx. y) z y1`: the name `y` comes in from a meaning of a meaning, under
a binder of that name, and is ultimate together with `z`. -/
theorem expand_replaces_all_captured :
    let env := ofList [⟨"B", .app (.var "K") (.var "z")⟩, ⟨"K", .lam "x" none (.var "y")⟩]
    let t : Term := .lam "y" none (.app (.var "B") (.var "y"))
    let meaning : Term := .app (.lam "x" none (.var "y")) (.var "z")
    let u : Term := .lam "y1" none (.app meaning (.var "y1"))
    env.expand none t = .ok u ∧
      u.nameless [] = (t.nameless []).replaceFree (env.formOf none) ∧
      (∀ x, env.Ultimate t x ↔ x = "y" ∨ x = "z") ∧ env.expand none u = .ok u := by
  intro env t meaning u
  have hu : env.expand none t = .ok u := by cbv
  obtain ⟨-, hform, -, hfree, -, hagain⟩ := expand_replaces_all hu
  refine ⟨hu, hform, fun x => ?_, hagain⟩
  have hvars : u.freeVars = ["y", "z"] := by decide
  rw [← hfree, hvars, List.mem_pair]

end Environment

end LambdaShell
