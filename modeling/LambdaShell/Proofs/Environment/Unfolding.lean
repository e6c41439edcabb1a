import LambdaShell.Environment.Expansion
import LambdaShell.Proofs.Nameless.FreeNames
import LambdaShell.Proofs.Reduction.Closed
import Mathlib.Logic.Relation

/-!
# Environments — what expansion computes

Expansion replaces names one after another and keeps the way it came, to
notice when it would never end. What it computes can be said without an
order and without a way: a nameless term unfolds to another one if every
free name with a meaning gives way to what its meaning unfolds to
(`Unfolds`). The relation has a derivation only where the replacing comes
to an end, so it also says when there is an expansion: a term that unfolds
mentions no name that is reached from itself (`Unfolds.not_cyclic`), and
expansion succeeds exactly on the terms that unfold, with what they unfold
to (`unfolds_of_expand`, `expand_of_unfolds`).
-/

namespace LambdaShell

namespace Environment

open Nameless (single)

variable {env : Environment} {depth : Option Nat} {m n : Nameless} {x y : String}

/-- **What a nameless term unfolds to**: every free name with a meaning is replaced
by what its meaning unfolds to. Meanings and what becomes of them are nested
within the limit. -/
inductive Unfolds (env : Environment) (depth : Option Nat) : Nameless → Nameless → Prop where
  | index (i : Nat) : Unfolds env depth (.index i) (.index i)
  | unknown {x : String} : env.lookup x = none → Unfolds env depth (.free x) (.free x)
  | known {x : String} {meaning : Term} {n : Nameless} :
      env.lookup x = some meaning → meaning.fits depth = true → n.fits depth = true →
        Unfolds env depth (meaning.nameless []) n → Unfolds env depth (.free x) n
  | lam {m n : Nameless} : Unfolds env depth m n → Unfolds env depth (.lam m) (.lam n)
  | app {m n m' n' : Nameless} :
      Unfolds env depth m n → Unfolds env depth m' n' →
        Unfolds env depth (.app m m') (.app n n')

namespace Unfolds

theorem unique {n' : Nameless} (h : Unfolds env depth m n) (h' : Unfolds env depth m n') :
    n = n' := by
  induction h generalizing n' with
  | index i => cases h'; rfl
  | unknown hx =>
    cases h' with
    | unknown _ => rfl
    | known hx' _ _ _ => rw [hx] at hx'; cases hx'
  | known hx _ _ _ ih =>
    cases h' with
    | unknown hx' => rw [hx] at hx'; cases hx'
    | known hx' _ _ h' =>
      rw [hx] at hx'
      cases hx'
      exact ih h'
  | lam _ ih =>
    cases h' with
    | lam h' => rw [ih h']
  | app _ _ ihf iha =>
    cases h' with
    | app hf ha => rw [ihf hf, iha ha]

/-- **No name with a meaning is left.** -/
theorem lookup_eq_none (h : Unfolds env depth m n) : ∀ x ∈ n.names, env.lookup x = none := by
  induction h with
  | index i => exact fun x hx => absurd hx List.not_mem_nil
  | unknown hx =>
    intro y hy
    rw [List.mem_singleton.1 hy]
    exact hx
  | known _ _ _ _ ih => exact ih
  | lam _ ih => exact ih
  | app _ _ ihf iha =>
    intro x hx
    exact (List.mem_append.1 hx).elim (ihf x) (iha x)

/-- Every free name of a term that unfolds does so on its own. -/
theorem exists_of_mem_names (h : Unfolds env depth m n) :
    ∀ x ∈ m.names, ∃ k, Unfolds env depth (.free x) k := by
  induction h with
  | index i => exact fun x hx => absurd hx List.not_mem_nil
  | unknown hx =>
    intro y hy
    rw [List.mem_singleton.1 hy]
    exact ⟨_, .unknown hx⟩
  | known hx hfits hfits' h _ =>
    intro y hy
    rw [List.mem_singleton.1 hy]
    exact ⟨_, .known hx hfits hfits' h⟩
  | lam _ ih => exact ih
  | app _ _ ihf iha =>
    intro x hx
    exact (List.mem_append.1 hx).elim (ihf x) (iha x)

/-- A known name unfolds to what its meaning unfolds to. -/
theorem meaning {meaning : Term} (h : Unfolds env depth (.free x) n)
    (hx : env.lookup x = some meaning) :
    meaning.fits depth = true ∧ n.fits depth = true ∧
      Unfolds env depth (meaning.nameless []) n := by
  cases h with
  | unknown hx' => rw [hx] at hx'; cases hx'
  | known hx' hfits hfits' h =>
    rw [hx] at hx'
    cases hx'
    exact ⟨hfits, hfits', h⟩

end Unfolds

/-- A term without known names unfolds to itself. -/
theorem unfolds_self (h : ∀ x ∈ m.names, env.lookup x = none) : Unfolds env depth m m := by
  induction m with
  | index i => exact .index i
  | free x => exact .unknown (h x List.mem_cons_self)
  | lam body ih => exact .lam (ih h)
  | app fn arg ihf iha =>
    exact .app (ihf fun x hx => h x (List.mem_append_left _ hx))
      (iha fun x hx => h x (List.mem_append_right _ hx))

/-- **A name may be unfolded ahead of the others**, to the same end. -/
theorem unfolds_replaceFree_iff {k : Nameless} (hx : Unfolds env depth (.free x) k) :
    Unfolds env depth (m.replaceFree (single x k)) n ↔ Unfolds env depth m n := by
  induction m generalizing n with
  | index i => exact Iff.rfl
  | free y =>
    by_cases hyx : y = x
    · -- what the name unfolds to stays as it is from then on
      have hk : Unfolds env depth k k := unfolds_self hx.lookup_eq_none
      rw [hyx, Nameless.replaceFree, single, if_pos rfl]
      constructor
      · intro h
        rw [h.unique hk]
        exact hx
      · intro h
        rw [h.unique hx]
        exact hk
    · rw [Nameless.replaceFree, single, if_neg hyx]
  | lam body ih =>
    constructor
    · rintro (_ | _ | _ | h)
      exact .lam (ih.1 h)
    · rintro (_ | _ | _ | h)
      exact .lam (ih.2 h)
  | app fn arg ihf iha =>
    constructor
    · rintro (_ | _ | _ | _ | ⟨hf, ha⟩)
      exact .app (ihf.1 hf) (iha.1 ha)
    · rintro (_ | _ | _ | _ | ⟨hf, ha⟩)
      exact .app (ihf.2 hf) (iha.2 ha)

/-! ## Names that refer to names -/

/-- **A name refers to another** that is free in its meaning and has one too. -/
def Refers (env : Environment) (x y : String) : Prop :=
  ∃ meaning, env.lookup x = some meaning ∧ y ∈ meaning.freeVars ∧ env.lookup y ≠ none

/-- **A name that is reached from itself does not unfold**, nor does a term in
which it is free. -/
theorem Unfolds.not_cyclic (h : Unfolds env depth m n) :
    ∀ x ∈ m.names, ¬ Relation.TransGen env.Refers x x := by
  induction h with
  | index i => exact fun x hx => absurd hx List.not_mem_nil
  | unknown hx =>
    intro y hy hcycle
    rw [List.mem_singleton.1 hy] at hcycle
    obtain ⟨z, ⟨meaning, hmeaning, -⟩, -⟩ := Relation.TransGen.head'_iff.1 hcycle
    rw [hx] at hmeaning
    cases hmeaning
  | known hx _ _ _ ih =>
    intro y hy hcycle
    rw [List.mem_singleton.1 hy] at hcycle
    -- the cycle can as well be entered at the name after this one
    obtain ⟨z, hfirst, hback⟩ := Relation.TransGen.head'_iff.1 hcycle
    obtain ⟨meaning, hmeaning, hz, -⟩ := id hfirst
    rw [hx] at hmeaning
    cases hmeaning
    exact ih z (Term.mem_names_nameless_nil.2 hz) (Relation.TransGen.tail' hback hfirst)
  | lam _ ih => exact ih
  | app _ _ ihf iha =>
    intro x hx
    exact (List.mem_append.1 hx).elim (ihf x) (iha x)

/-! ## The names that expansion goes through -/

/-- **All free names of a term that have a meaning are listed.** -/
def Covers (env : Environment) (names : List String) (t : Term) : Prop :=
  ∀ x ∈ t.freeVars, env.lookup x ≠ none → x ∈ names

theorem covers_freeNames (env : Environment) (t : Term) : env.Covers t.freeNames t :=
  fun _ hx _ => Term.mem_freeNames.2 hx

namespace Covers

variable {names : List String} {name : String} {t : Term}

/-- With no name listed there is nothing to unfold. -/
theorem unfolds (h : env.Covers [] t) : Unfolds env depth (t.nameless []) (t.nameless []) := by
  refine unfolds_self fun x hx => ?_
  by_contra hknown
  exact List.not_mem_nil (h x (Term.mem_names_nameless_nil.1 hx) hknown)

/-- A name without a meaning need not be listed. -/
theorem of_unknown (h : env.Covers (name :: names) t) (hname : env.lookup name = none) :
    env.Covers names t := by
  intro x hx hknown
  refine (List.mem_cons.1 (h x hx hknown)).resolve_left ?_
  rintro rfl
  exact hknown hname

/-- A name is done with when it is replaced by a term without known names. -/
theorem subst {r : Term} (h : env.Covers (name :: names) t)
    (hr : ∀ x ∈ (r.nameless []).names, env.lookup x = none) :
    env.Covers names (t.subst name r) := by
  intro x hx hknown
  rcases Term.mem_freeVars_subst hx with ⟨hx, hne⟩ | hx
  · exact (List.mem_cons.1 (h x hx hknown)).resolve_left hne
  · exact absurd (hr x (Term.mem_names_nameless_nil.2 hx)) hknown

end Covers

/-- The way to a name goes on to the names in its meaning. -/
theorem reaches_of_append {chain : List String} {name : String} {meaning : Term}
    (hmeaning : env.lookup name = some meaning)
    (hchain : ∀ c ∈ chain, Relation.TransGen env.Refers c name) :
    ∀ c ∈ chain ++ [name], ∀ x ∈ meaning.freeNames, env.lookup x ≠ none →
      Relation.TransGen env.Refers c x := by
  intro c hc x hx hknown
  have hrefers : env.Refers name x := ⟨meaning, hmeaning, Term.mem_freeNames.1 hx, hknown⟩
  rcases List.mem_append.1 hc with hc | hc
  · exact (hchain c hc).tail hrefers
  · rw [List.mem_singleton.1 hc]
    exact .single hrefers

/-! ## Expansion -/

/-- **Expansion along all known names of a term unfolds it.** -/
theorem unfolds_of_expandEach {chain names : List String} {t u : Term}
    (h : env.expandEach depth chain names t = .ok u) (hnames : env.Covers names t) :
    Unfolds env depth (t.nameless []) (u.nameless []) ∧ u.fits depth = true := by
  fun_induction expandEach env depth chain names t generalizing u with
  | case1 chain t hfits =>
    cases h
    exact ⟨hnames.unfolds, hfits⟩
  | case2 => cases h
  | case3 chain t name names hunknown ih => exact ih h (hnames.of_unknown hunknown)
  | case4 => cases h
  | case5 chain t name names meaning hmeaning hnew hfits expanded hexpanded ihmeaning ihrest =>
    obtain ⟨hunfolds, hfits'⟩ := ihmeaning hexpanded (env.covers_freeNames meaning)
    have hname : Unfolds env depth (.free name) (expanded.nameless []) :=
      .known hmeaning hfits (by rw [Term.fits_nameless]; exact hfits') hunfolds
    -- the names that come in with the meaning are all unknown
    have hrest := ihrest h (hnames.subst hunfolds.lookup_eq_none)
    rw [Term.nameless_subst_nil] at hrest
    exact ⟨(unfolds_replaceFree_iff hname).1 hrest.1, hrest.2⟩
  | case6 => cases h
  | case7 => cases h

/-- **Expansion does not fail on a term that unfolds**, whatever way leads to its
names. -/
theorem expandEach_ne_error {chain names : List String} {t : Term} {e : ExpansionError}
    (h : Unfolds env depth (t.nameless []) n) (hn : n.fits depth = true)
    (hnames : env.Covers names t) (hunfold : ∀ x ∈ names, ∃ k, Unfolds env depth (.free x) k)
    (hchain : ∀ c ∈ chain, ∀ x ∈ names, env.lookup x ≠ none →
      Relation.TransGen env.Refers c x) :
    env.expandEach depth chain names t ≠ .error e := by
  intro herror
  fun_induction expandEach env depth chain names t generalizing n e with
  | case1 => cases herror
  | case2 chain t hfits =>
    rw [← hnames.unfolds.unique h, Term.fits_nameless] at hn
    exact hfits hn
  | case3 chain t name names hunknown ih =>
    exact ih h hn (hnames.of_unknown hunknown) (fun x hx => hunfold x (List.mem_cons_of_mem _ hx))
      (fun c hc x hx => hchain c hc x (List.mem_cons_of_mem _ hx)) herror
  | case4 chain t name names meaning hmeaning hvisited =>
    -- a name on the way to itself would not unfold
    obtain ⟨k, hk⟩ := hunfold name List.mem_cons_self
    have hcycle := hchain name hvisited name List.mem_cons_self (by rw [hmeaning]; simp)
    exact hk.not_cyclic name List.mem_cons_self hcycle
  | case5 chain t name names meaning hmeaning hnew hfits expanded hexpanded ihmeaning ihrest =>
    obtain ⟨hunfolds, hfits'⟩ := unfolds_of_expandEach hexpanded (env.covers_freeNames meaning)
    have hname : Unfolds env depth (.free name) (expanded.nameless []) :=
      .known hmeaning hfits (by rw [Term.fits_nameless]; exact hfits') hunfolds
    have hrest : Unfolds env depth ((t.subst name expanded).nameless []) n := by
      rw [Term.nameless_subst_nil]
      exact (unfolds_replaceFree_iff hname).2 h
    exact ihrest hrest hn (hnames.subst hunfolds.lookup_eq_none)
      (fun x hx => hunfold x (List.mem_cons_of_mem _ hx))
      (fun c hc x hx => hchain c hc x (List.mem_cons_of_mem _ hx)) herror
  | case6 chain t name names meaning hmeaning hnew hfits e' hfailed ihmeaning =>
    obtain ⟨k, hk⟩ := hunfold name List.mem_cons_self
    obtain ⟨-, hk', hunfolds⟩ := hk.meaning hmeaning
    refine ihmeaning hunfolds hk' (env.covers_freeNames meaning) (fun x hx => ?_) ?_ hfailed
    · exact hunfolds.exists_of_mem_names x (Term.mem_names_nameless_nil.2 (Term.mem_freeNames.1 hx))
    · refine reaches_of_append hmeaning fun c hc => ?_
      exact hchain c hc name List.mem_cons_self (by rw [hmeaning]; simp)
  | case7 chain t name names meaning hmeaning hnew hfits =>
    obtain ⟨k, hk⟩ := hunfold name List.mem_cons_self
    exact hfits (hk.meaning hmeaning).1

/-- **What is expanded unfolds** to its expansion. -/
theorem unfolds_of_expand {t u : Term} (h : env.expand depth t = .ok u) :
    t.fits depth = true ∧ u.fits depth = true ∧
      Unfolds env depth (t.nameless []) (u.nameless []) := by
  unfold expand at h
  split at h
  · rename_i hfits
    obtain ⟨hunfolds, hu⟩ := unfolds_of_expandEach h (env.covers_freeNames t)
    exact ⟨hfits, hu, hunfolds⟩
  · cases h

/-- **What unfolds is expanded** to a term of the form it unfolds to. -/
theorem expand_of_unfolds {t : Term} (h : Unfolds env depth (t.nameless []) n)
    (ht : t.fits depth = true) (hn : n.fits depth = true) :
    ∃ u, env.expand depth t = .ok u ∧ u.nameless [] = n := by
  have hunfold : ∀ x ∈ t.freeNames, ∃ k, Unfolds env depth (.free x) k := fun x hx =>
    h.exists_of_mem_names x (Term.mem_names_nameless_nil.2 (Term.mem_freeNames.1 hx))
  rw [expand, if_pos ht]
  cases hexpand : env.expandEach depth [] t.freeNames t with
  | ok u => exact ⟨u, rfl, (unfolds_of_expandEach hexpand (env.covers_freeNames t)).1.unique h⟩
  | error e =>
    exact absurd hexpand (expandEach_ne_error h hn (env.covers_freeNames t) hunfold
      fun c hc => absurd hc List.not_mem_nil)

/-! ## Expansion of and by terms without known names -/

/-- Names without a meaning are passed over. -/
theorem expandEach_of_unknown {chain names : List String}
    (hnames : ∀ x ∈ names, env.lookup x = none) (ht : t.fits depth = true) :
    env.expandEach depth chain names t = .ok t := by
  induction names with
  | nil => rw [expandEach, if_pos ht]
  | cons name names ih =>
    have hname : env.lookup name = none := hnames name List.mem_cons_self
    rw [expandEach]
    split
    · exact ih fun x hx => hnames x (List.mem_cons_of_mem _ hx)
    · rename_i hknown
      rw [hname] at hknown
      cases hknown

/-- A term without known names is its own expansion. -/
theorem expand_of_unknown (hnames : ∀ x ∈ t.freeVars, env.lookup x = none)
    (ht : t.fits depth = true) : env.expand depth t = .ok t := by
  rw [expand, if_pos ht]
  exact expandEach_of_unknown (fun x hx => hnames x (Term.mem_freeNames.1 hx)) ht

/-- A term without free names is its own expansion. -/
theorem expand_of_closed (env : Environment) (hclosed : t.freeNames = [])
    (hfits : t.fits depth = true) : env.expand depth t = .ok t := by
  refine expand_of_unknown (fun x hx => ?_) hfits
  rw [← Term.mem_freeNames, hclosed] at hx
  exact absurd hx List.not_mem_nil

/-- A name whose meaning has no free names is replaced by its meaning. -/
theorem expandEach_cons_of_closed {chain names : List String} {name : String} {meaning : Term}
    (hlookup : env.lookup name = some meaning) (hnew : name ∉ chain)
    (hclosed : meaning.freeNames = []) (hfits : meaning.fits depth = true) :
    env.expandEach depth chain (name :: names) t =
      env.expandEach depth chain names (t.subst name meaning) := by
  rw [expandEach]
  split
  · rename_i hnone
    rw [hlookup] at hnone
    cases hnone
  · rename_i meaning' hknown
    obtain rfl : meaning = meaning' := Option.some.inj (hlookup.symm.trans hknown)
    have hself : env.expandEach depth (chain ++ [name]) meaning.freeNames meaning =
        .ok meaning := by
      rw [hclosed, expandEach, if_pos hfits]
    rw [dif_neg hnew, if_pos hfits, hself]

end Environment

end LambdaShell
