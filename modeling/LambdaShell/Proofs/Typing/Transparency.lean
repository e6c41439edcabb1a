import LambdaShell.Proofs.Environment.Unfolding
import LambdaShell.Proofs.Typing.Preservation
import Mathlib.Data.List.Permutation

/-!
# Typing — definitions can be typed on their own

The type of a term that uses definitions can be found in two ways: expand
the term and check the result, or check the term as it is and assume, for
each name that it uses, the type of what the name stands for. Both give
the same type (`typeOf_expand`).

Expansion puts the expanded meanings for the names one after another. Each
of these replacements neither takes a type away nor gives one, in a context
that has the type of the meaning for the name. The meaning itself was
checked without a context, and has its type in every other (`typeOf_of_empty`);
it was expanded without a way that led to it, which does not matter either
(`expandEach_of_subset`).
-/

namespace LambdaShell

namespace Environment

variable {env : Environment} {depth : Option Nat} {t u : Term} {chain chain' names : List String}

/-- **The way to a term does not matter** where its expansion succeeds: from a part of
the way it is expanded to the same term. -/
theorem expandEach_of_subset (h : env.expandEach depth chain names t = .ok u)
    (hchain : chain' ⊆ chain) : env.expandEach depth chain' names t = .ok u := by
  fun_induction expandEach env depth chain names t generalizing chain' u with
  | case1 chain t hfits =>
    rw [expandEach, if_pos hfits]
    exact h
  | case2 => cases h
  | case3 chain t name names hunknown ih =>
    rw [expandEach]
    split
    · exact ih h hchain
    · rename_i hknown
      rw [hunknown] at hknown
      cases hknown
  | case4 => cases h
  | case5 chain t name names meaning hmeaning hnew hfits expanded hexpanded ihmeaning ihrest =>
    have hnew' : name ∉ chain' := fun hname => hnew (hchain hname)
    have hexpanded' : env.expandEach depth (chain' ++ [name]) meaning.freeNames meaning =
        .ok expanded := by
      refine ihmeaning hexpanded ?_
      exact List.append_subset.2 ⟨fun x hx => List.mem_append_left _ (hchain hx),
        List.subset_append_right _ _⟩
    rw [expandEach]
    split
    · rename_i hunknown
      rw [hmeaning] at hunknown
      cases hunknown
    · rename_i meaning' hmeaning'
      obtain rfl : meaning = meaning' := Option.some.inj (hmeaning.symm.trans hmeaning')
      simp only [dif_neg hnew', if_pos hfits, hexpanded']
      exact ihrest h hchain
  | case6 => cases h
  | case7 => cases h

/-- What a meaning is expanded to on the way is its expansion. -/
theorem expand_of_expandEach (hfits : t.fits depth = true)
    (h : env.expandEach depth chain t.freeNames t = .ok u) : env.expand depth t = .ok u := by
  rw [expand, if_pos hfits]
  exact expandEach_of_subset h (List.nil_subset chain)

end Environment

namespace Typing

variable {env : Environment} {depth : Option Nat} {ctx ctx' : Context} {t u : Term}
  {τ : SimpleType}

/-! ## Typing without a context -/

/-- **A context may be extended**: what has a type keeps it where no less is assumed. -/
theorem typeOf_mono (h : typeOf ctx t = .ok (.simple τ))
    (hctx : ∀ x ρ, ctx.get? x = some (.simple ρ) → ctx'.get? x = some (.simple ρ)) :
    typeOf ctx' t = .ok (.simple τ) := by
  induction t generalizing ctx ctx' τ with
  | var x => exact typeOf_var_eq_iff.2 (hctx x τ (typeOf_var_eq_iff.1 h))
  | lam x a body ih =>
    obtain ⟨σ, ρ, rfl, hbody, rfl⟩ := typeOf_lam_eq_iff.1 h
    refine typeOf_lam_eq_iff.2 ⟨σ, ρ, rfl, ih hbody ?_, rfl⟩
    intro y ρ' hy
    rw [OrderedMap.get?_insert] at hy ⊢
    by_cases hxy : x = y
    · rw [if_pos hxy] at hy ⊢
      exact hy
    · rw [if_neg hxy] at hy ⊢
      exact hctx y ρ' hy
  | app fn arg ihf iha =>
    obtain ⟨σ, hfn, harg⟩ := typeOf_app_eq_iff.1 h
    exact typeOf_app_eq_iff.2 ⟨σ, ihf hfn hctx, iha harg hctx⟩

/-- What has a type without a context has it in every context. -/
theorem typeOf_of_empty (h : typeOf .empty t = .ok (.simple τ)) (ctx : Context) :
    typeOf ctx t = .ok (.simple τ) :=
  typeOf_mono h nofun

/-! ## Expansion -/

/-- **Expansion along names neither takes a type away nor gives one**, in a context that
has for each of them the type of its expanded meaning. -/
theorem typeOf_expandEach {chain names : List String}
    (h : env.expandEach depth chain names t = .ok u)
    (hnames : ∀ x ∈ names, ∀ meaning v, env.lookup x = some meaning →
      env.expand depth meaning = .ok v →
        ∃ σ, ctx.get? x = some (.simple σ) ∧ typeOf ctx v = .ok (.simple σ)) :
    typeOf ctx u = .ok (.simple τ) ↔ typeOf ctx t = .ok (.simple τ) := by
  fun_induction Environment.expandEach env depth chain names t generalizing u with
  | case1 => cases h; rfl
  | case2 => cases h
  | case3 chain t name names _ ih => exact ih h fun x hx => hnames x (List.mem_cons_of_mem _ hx)
  | case4 => cases h
  | case5 chain t name names meaning hmeaning _ hfits expanded hexpanded _ ihrest =>
    have hexpand := Environment.expand_of_expandEach hfits hexpanded
    obtain ⟨σ, hname, hσ⟩ := hnames name List.mem_cons_self meaning expanded hmeaning hexpand
    have hrest := ihrest h fun x hx => hnames x (List.mem_cons_of_mem _ hx)
    exact hrest.trans (typeOf_subst_iff hname hσ fun y _ _ => rfl)
  | case6 => cases h
  | case7 => cases h

/-- **Definitions are transparent to typing.** Let a term be expanded, and let the expanded
meaning of every name that is free in it and has a meaning be of some type
on its own. Then the expanded term has a type on its own exactly if the
term itself has this type in the context that assumes just these names to
be of these types. -/
theorem typeOf_expand {T : String → SimpleType} (h : env.expand depth t = .ok u)
    (hmeanings : ∀ x ∈ t.freeVars, ∀ meaning, env.lookup x = some meaning →
      ∃ v, env.expand depth meaning = .ok v ∧ typeOf .empty v = .ok (.simple (T x)))
    (hctx : ∀ x ty, ctx.get? x = some ty ↔
      x ∈ t.freeVars ∧ env.lookup x ≠ none ∧ ty = .simple (T x))
    (τ : SimpleType) :
    typeOf .empty u = .ok (.simple τ) ↔ typeOf ctx t = .ok (.simple τ) := by
  obtain ⟨hfits, -, hunfolds⟩ := Environment.unfolds_of_expand h
  -- the names that are left have no meaning, and nothing is assumed of them
  have hleft : typeOf .empty u = typeOf ctx u := by
    refine typeOf_congr fun x hx => ?_
    have hunknown := hunfolds.lookup_eq_none x (Term.mem_names_nameless_nil.2 hx)
    have hnone : ctx.get? x = none :=
      Option.eq_none_iff_forall_ne_some.2 fun ty hty => ((hctx x ty).1 hty).2.1 hunknown
    rw [hnone]
    rfl
  rw [Environment.expand, if_pos hfits] at h
  rw [hleft]
  refine typeOf_expandEach h fun x hx meaning v hmeaning hv => ⟨T x, ?_, ?_⟩
  · have hknown : env.lookup x ≠ none := by rw [hmeaning]; simp
    exact (hctx x _).2 ⟨Term.mem_freeNames.1 hx, hknown, rfl⟩
  · obtain ⟨v', hv', htype⟩ := hmeanings x (Term.mem_freeNames.1 hx) meaning hmeaning
    obtain rfl : v' = v := Except.ok.inj (hv'.symm.trans hv)
    exact typeOf_of_empty htype ctx

/-- With `I = λx:A. x` and `D = λy:A. I (I y)`, the term `λI:A. D I` uses the definition of `D`
and binds the name of another, which `D` refers to: it is typed where `D` is
assumed to be of type `A -> A` and nothing is assumed of `I`. -/
theorem typeOf_expand_shadowed :
    let a : SimpleType := .base "A"
    let identity : Term := .lam "x" (some (.simple a)) (.var "x")
    let twice (f : Term) : Term := .lam "y" (some (.simple a)) (.app f (.app f (.var "y")))
    let env : Environment := .ofList [⟨"I", identity⟩, ⟨"D", twice (.var "I")⟩]
    let t : Term := .lam "I" (some (.simple a)) (.app (.var "D") (.var "I"))
    let u : Term := .lam "I" (some (.simple a)) (.app (twice identity) (.var "I"))
    let ctx : Context := .ofList [("D", .simple (.arrow a a))]
    env.expand none t = .ok u ∧ typeOf ctx t = .ok (.simple (.arrow a a)) ∧
      typeOf .empty u = .ok (.simple (.arrow a a)) := by
  intro a identity twice env t u ctx
  have hexpand : env.expand none t = .ok u := by cbv
  have htype : typeOf ctx t = .ok (.simple (.arrow a a)) := by decide +kernel
  have hfree : t.freeVars = ["D"] := by decide +kernel
  have hdouble : env.lookup "D" = some (twice (.var "I")) := by decide +kernel
  refine ⟨hexpand, htype, (typeOf_expand (T := fun _ => .arrow a a) hexpand ?_ ?_ _).2 htype⟩
  · intro x hx meaning hmeaning
    rw [hfree, List.mem_singleton] at hx
    subst hx
    obtain rfl : twice (.var "I") = meaning := Option.some.inj (hdouble.symm.trans hmeaning)
    exact ⟨twice identity, by cbv, by decide +kernel⟩
  · intro x ty
    have hget : ctx.get? x = if "D" = x then some (.simple (.arrow a a)) else none :=
      OrderedMap.get?_insert _ "D" x _
    rw [hfree, List.mem_singleton, hget]
    by_cases hx : x = "D"
    · subst hx
      rw [if_pos rfl, hdouble]
      simp [eq_comm]
    · rw [if_neg fun e => hx e.symm]
      simp [hx]

end Typing

end LambdaShell
