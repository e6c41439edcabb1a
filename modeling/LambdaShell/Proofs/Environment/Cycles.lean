import LambdaShell.Proofs.Environment.Unfolding
import Mathlib.Data.List.Chain
import Mathlib.Data.List.Permutation

/-!
# Environments — cycles are found, and nothing else

Definitions may refer to one another in any order, and expansion follows
the references. It gives up only at a name that it is already expanding.
Then the names it came by form a path of references from the term that
returns to itself at its end (`ReturningWay`), which is what the error shows:
a definition that is merely used twice is no reason to stop.

Conversely, no cycle that the term leads to is missed. An expansion that
succeeds shows that the term unfolds, and so does every name that it leads
to; a name on a cycle does not.
-/

namespace LambdaShell

namespace Environment

open Relation (ReflTransGen TransGen)

variable {env : Environment} {depth : Option Nat} {t : Term} {chain : List String} {x y : String}

/-! ## Paths of references -/

/-- **A way from a term**: a path of references whose first name is free in the term. -/
structure Way (env : Environment) (t : Term) (way : List String) : Prop where
  first : ∀ x ∈ way.head?, x ∈ t.freeVars
  refers : way.IsChain env.Refers

/-- **A way that returns to itself at its end**: its last name occurs once among the
names before it, which are all different. -/
def ReturningWay (env : Environment) (t : Term) (chain : List String) : Prop :=
  ∃ way last, chain = way ++ [last] ∧ env.Way t chain ∧ way.Nodup ∧ way.count last = 1

/-- **A term leads to a cycle** if one can be reached from a known name that is free
in it. -/
def LeadsToCycle (env : Environment) (t : Term) : Prop :=
  ∃ x ∈ t.freeVars, env.lookup x ≠ none ∧
    ∃ y, ReflTransGen env.Refers x y ∧ TransGen env.Refers y y

theorem way_singleton (hx : x ∈ t.freeVars) : env.Way t [x] where
  first := by
    intro y hy
    rw [← Option.mem_some_iff.1 hy]
    exact hx
  refers := List.isChain_singleton x

/-- A way goes on along a reference of its last name. -/
theorem Way.append (h : env.Way t (chain ++ [x])) (hxy : env.Refers x y) :
    env.Way t (chain ++ [x] ++ [y]) where
  first := by
    rw [List.head?_append_of_ne_nil _ (by simp)]
    exact h.first
  refers := by
    rw [List.append_assoc]
    exact List.isChain_append_cons_cons.2 ⟨h.refers, hxy, List.isChain_singleton y⟩

theorem transGen_of_isChain {l : List String} (h : (x :: (l ++ [y])).IsChain env.Refers) :
    TransGen env.Refers x y := by
  induction l generalizing x with
  | nil => exact .single (List.isChain_pair.1 h)
  | cons z l ih =>
    obtain ⟨hxz, hrest⟩ := List.isChain_cons_cons.1 h
    exact .head hxz (ih hrest)

/-- Only a known name leads anywhere. -/
theorem lookup_ne_none_of_transGen (h : TransGen env.Refers x y) : env.lookup x ≠ none := by
  obtain ⟨_, ⟨meaning, hmeaning, -⟩, -⟩ := TransGen.head'_iff.1 h
  exact Option.ne_none_iff_exists'.2 ⟨meaning, hmeaning⟩

/-- **A way that returns goes round a cycle.** -/
theorem ReturningWay.leadsToCycle (h : env.ReturningWay t chain) : env.LeadsToCycle t := by
  obtain ⟨way, last, rfl, hway, -, honce⟩ := h
  -- the cycle begins where the last name comes first
  have hlast : last ∈ way := List.count_pos_iff.1 (by omega)
  obtain ⟨before, after, rfl⟩ := List.append_of_mem hlast
  have hsplit : before ++ last :: after ++ [last] = before ++ last :: (after ++ [last]) := by simp
  rw [hsplit] at hway
  obtain ⟨hbefore, hcycle⟩ := List.isChain_split.1 hway.refers
  have hback : TransGen env.Refers last last := transGen_of_isChain hcycle
  cases before with
  | nil =>
    have hfirst : last ∈ t.freeVars := hway.first last rfl
    exact ⟨last, hfirst, lookup_ne_none_of_transGen hback, last, .refl, hback⟩
  | cons first before =>
    have hfirst : first ∈ t.freeVars := hway.first first rfl
    have hreach : TransGen env.Refers first last := transGen_of_isChain hbefore
    exact ⟨first, hfirst, lookup_ne_none_of_transGen hreach, last, hreach.to_reflTransGen, hback⟩

/-! ## A cycle that is reported -/

/-- **The chain of an error is a way that returns.** The invariant is that the names
being expanded are different and that each known name to come continues the
way to them. -/
theorem returns_of_expandEach {names chain' : List String} {s : Term}
    (h : env.expandEach depth chain names s = .error (.cyclic chain')) (hchain : chain.Nodup)
    (hways : ∀ x ∈ names, env.lookup x ≠ none → env.Way t (chain ++ [x])) :
    env.ReturningWay t chain' := by
  fun_induction expandEach env depth chain names s with
  | case1 => cases h
  | case2 => cases h
  | case3 chain s name names _ ih =>
    exact ih h hchain fun x hx => hways x (List.mem_cons_of_mem _ hx)
  | case4 chain s name names meaning hmeaning hvisited =>
    cases h
    have hway := hways name List.mem_cons_self (Option.ne_none_iff_exists'.2 ⟨meaning, hmeaning⟩)
    exact ⟨chain, name, rfl, hway, hchain, List.count_eq_one_of_mem hchain hvisited⟩
  | case5 chain s name names meaning _ _ _ expanded _ _ ihrest =>
    exact ihrest h hchain fun x hx => hways x (List.mem_cons_of_mem _ hx)
  | case6 chain s name names meaning hmeaning hnew _ e hfailed ih =>
    cases h
    have hway := hways name List.mem_cons_self (Option.ne_none_iff_exists'.2 ⟨meaning, hmeaning⟩)
    have hnodup : (chain ++ [name]).Nodup :=
      List.nodup_append.2 ⟨hchain, List.nodup_singleton name, by
        rintro c hc _ hname rfl
        exact hnew (List.mem_singleton.1 hname ▸ hc)⟩
    refine ih hfailed hnodup fun x hx hknown => hway.append ?_
    exact ⟨meaning, hmeaning, Term.mem_freeNames.1 hx, hknown⟩
  | case7 => cases h

theorem returns_of_expand (h : env.expand depth t = .error (.cyclic chain)) :
    env.ReturningWay t chain := by
  unfold expand at h
  split at h
  · refine returns_of_expandEach h List.nodup_nil fun x hx _ => ?_
    exact way_singleton (Term.mem_freeNames.1 hx)
  · cases h

/-! ## A cycle that is there -/

/-- What a name leads to unfolds if the name does. -/
theorem exists_unfolds_of_reaches (hx : ∃ k, Unfolds env depth (.free x) k)
    (h : ReflTransGen env.Refers x y) : ∃ k, Unfolds env depth (.free y) k := by
  induction h with
  | refl => exact hx
  | tail _ hrefers ih =>
    obtain ⟨k, hk⟩ := ih
    obtain ⟨meaning, hmeaning, hz, -⟩ := hrefers
    obtain ⟨-, -, hunfolds⟩ := hk.meaning hmeaning
    exact hunfolds.exists_of_mem_names _ (Term.mem_names_nameless_nil.2 hz)

/-- **What is expanded leads to no cycle.** -/
theorem not_leadsToCycle_of_expand {u : Term} (h : env.expand depth t = .ok u) :
    ¬ env.LeadsToCycle t := by
  rintro ⟨x, hx, -, y, hreach, hcycle⟩
  obtain ⟨-, -, hunfolds⟩ := unfolds_of_expand h
  have hunfold := hunfolds.exists_of_mem_names x (Term.mem_names_nameless_nil.2 hx)
  obtain ⟨k, hk⟩ := exists_unfolds_of_reaches hunfold hreach
  exact hk.not_cyclic y List.mem_cons_self hcycle

/-! ## Without a limit of nesting -/

theorem expandEach_ne_tooDeep (names : List String) :
    env.expandEach none chain names t ≠ .error .tooDeep := by
  intro h
  fun_induction expandEach env none chain names t with
  | case1 => cases h
  | case2 chain t hfits => exact hfits rfl
  | case3 chain t name names _ ih => exact ih h
  | case4 => cases h
  | case5 chain t name names meaning _ _ _ expanded _ _ ihrest => exact ihrest h
  | case6 chain t name names meaning _ _ _ e hfailed ih =>
    cases h
    exact ih hfailed
  | case7 chain t name names meaning _ _ hfits => exact hfits rfl

theorem expand_ne_tooDeep (env : Environment) (t : Term) :
    env.expand none t ≠ .error .tooDeep := by
  rw [expand, if_pos (Term.fits_none t)]
  exact expandEach_ne_tooDeep t.freeNames

/-- **Cycles are found exactly.** Without a limit of nesting, expansion always ends with
an expanded term or with the report of a cycle. With or without one, unless
a term is nested too deeply, it reports a cycle if and only if the term leads
to one. And the chain that is reported is always a way from the term that
returns to itself at its end. -/
theorem expand_finds_cycles (env : Environment) (t : Term) :
    ((∃ u, env.expand none t = .ok u) ∨ ∃ chain, env.expand none t = .error (.cyclic chain)) ∧
      (∀ depth, env.expand depth t ≠ .error .tooDeep →
        ((∃ chain, env.expand depth t = .error (.cyclic chain)) ↔ env.LeadsToCycle t)) ∧
      ∀ depth chain, env.expand depth t = .error (.cyclic chain) → env.ReturningWay t chain := by
  have hcases : ∀ depth, env.expand depth t ≠ .error .tooDeep →
      (∃ u, env.expand depth t = .ok u) ∨ ∃ chain, env.expand depth t = .error (.cyclic chain) := by
    intro depth hdepth
    cases hexpand : env.expand depth t with
    | ok u => exact .inl ⟨u, rfl⟩
    | error e =>
      cases e with
      | cyclic chain => exact .inr ⟨chain, rfl⟩
      | tooDeep => exact absurd hexpand hdepth
  refine ⟨hcases none (env.expand_ne_tooDeep t), fun depth hdepth => ⟨?_, ?_⟩, ?_⟩
  · rintro ⟨chain, hchain⟩
    exact (returns_of_expand hchain).leadsToCycle
  · intro hcycle
    refine (hcases depth hdepth).resolve_left ?_
    rintro ⟨u, hu⟩
    exact not_leadsToCycle_of_expand hu hcycle
  · exact fun depth chain h => returns_of_expand h

/-- With `D = I J`, `I = λx. x`, `J = λx. I (K x)`, `K = λJ. L J` and `L = K`, the term `(λK. K) D`
leads to a cycle of `K` and `L`. The binders named `K` and `J` are none of it, and
neither is `I`, to which two ways lead. -/
theorem expand_finds_cycles_behind :
    let env := ofList [⟨"D", .app (.var "I") (.var "J")⟩, ⟨"I", .lam "x" none (.var "x")⟩,
      ⟨"J", .lam "x" none (.app (.var "I") (.app (.var "K") (.var "x")))⟩,
      ⟨"K", .lam "J" none (.app (.var "L") (.var "J"))⟩, ⟨"L", .var "K"⟩]
    let t : Term := .app (.lam "K" none (.var "K")) (.var "D")
    let chain := ["D", "J", "K", "L", "K"]
    env.expand none t = .error (.cyclic chain) ∧ env.ReturningWay t chain ∧
      env.LeadsToCycle t := by
  intro env t chain
  have h : env.expand none t = .error (.cyclic chain) := by cbv
  obtain ⟨-, hiff, hreturns⟩ := expand_finds_cycles env t
  refine ⟨h, hreturns none chain h, (hiff none ?_).1 ⟨chain, h⟩⟩
  rw [h]
  simp

end Environment

end LambdaShell
