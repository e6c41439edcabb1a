import LambdaShell.Proofs.Environment.Refinement
import LambdaShell.Proofs.Evaluation.Renaming

/-!
# Environments — definitions that are cut short

A definition by a term that is nested too deeply is cut short: the term has
already taken its place among the definitions when its nameless form turns
out to be out of reach. So such a definition fails and is made all the same
(`lookup_define`, `definitions_define`), while the terms go on to have the
names they had (`aliasOf_define_of_not_fits`).

From then on the forms lag behind the definitions. A form that is there is
that of the last definition of its name that was completed
(`LagsBehind`), and this is the present one exactly if the present one is
within the limit. So the name that is given to a term stands for that term
if and only if the present definition of the name was completed
(`Trails.alphaEq_iff_fits`).
-/

namespace LambdaShell

namespace Environment

variable {env : Environment} {depth : Option Nat} {x : String} {t u : Term}

/-! ## A definition, cut short or not -/

/-- The name means the term at once, whether its form is found or not. -/
theorem lookup_define (depth : Option Nat) (env : Environment) (x y : String) (t : Term) :
    (env.define depth x t).lookup y = if x = y then some t else env.lookup y := by
  rw [lookup, bindings_define, OrderedMap.get?_insert]
  rfl

theorem definitions_define (depth : Option Nat) (env : Environment) (x : String) (t : Term) :
    (env.define depth x t).definitions = Definition.into ⟨x, t⟩ env.definitions := by
  rw [← definitions_bind, definitions, bindings_define]
  rfl

/-- **A definition that is cut short gives no term another name.** -/
theorem aliasOf_define_of_not_fits (h : t.fits depth = false) (u : Term) :
    (env.define depth x t).aliasOf u = env.aliasOf u := by
  rw [define, h, if_neg Bool.false_ne_true]
  rfl

/-- A definition that is there already changes nothing when it is made again. -/
theorem into_definitions_of_lookup (h : env.lookup x = some t) :
    Definition.into ⟨x, t⟩ env.definitions = env.definitions := by
  have hany : env.definitions.any (·.name = x) = true := by
    rw [lookup_eq, Option.map_eq_some_iff] at h
    obtain ⟨d, hfind, -⟩ := h
    have hname := List.find?_some hfind
    exact List.any_eq_true.2 ⟨d, List.mem_of_find?_eq_some hfind, hname⟩
  rw [Definition.into, if_pos hany]
  conv_rhs => rw [← List.map_id env.definitions]
  refine List.map_congr_left fun d hd => ?_
  by_cases hname : d.name = x
  · -- the name has one meaning only
    have hterm := lookup_of_mem hd
    rw [hname, h] at hterm
    rw [if_pos hname, ← hname, Option.some.inj hterm]
    rfl
  · rw [if_neg hname, id]

/-- **The definitions stay as they are** only if the name means this very term already. -/
theorem definitions_define_eq_iff :
    (env.define depth x t).definitions = env.definitions ↔ env.lookup x = some t := by
  constructor
  · intro h
    rw [lookup_eq, ← h, ← lookup_eq, lookup_define, if_pos rfl]
  · intro h
    rw [definitions_define, into_definitions_of_lookup h]

/-! ## Forms that lag behind -/

/-- **A form that trails a meaning**: it is the form of a term within the limit, and that
of the meaning if the meaning is within the limit itself. -/
structure Trails (depth : Option Nat) (form : Nameless) (meaning : Term) : Prop where
  present : meaning.fits depth = true → meaning.nameless [] = form
  completed : ∃ t : Term, t.fits depth = true ∧ t.nameless [] = form

/-- A term that has the form is the meaning exactly if the meaning is within the limit:
the form is nested as deeply as the terms that have it. -/
theorem Trails.alphaEq_iff_fits {meaning : Term} (h : Trails depth (u.nameless []) meaning) :
    meaning.AlphaEq u ↔ meaning.fits depth = true := by
  constructor
  · intro halpha
    obtain ⟨t, ht, hform⟩ := h.completed
    have htu : t.AlphaEq u := hform
    rw [halpha.fits_eq depth, ← htu.fits_eq depth]
    exact ht
  · exact h.present

/-- **The forms lag behind the definitions**: each trails the meaning of its name. -/
def LagsBehind (depth : Option Nat) (env : Environment) : Prop :=
  ∀ x form, env.forms.get? x = some form →
    ∃ meaning, env.lookup x = some meaning ∧ Trails depth form meaning

theorem lagsBehind_empty (depth : Option Nat) : empty.LagsBehind depth := by
  intro x form h
  cases h

/-- A definition that is completed brings its form along. -/
theorem LagsBehind.bind (h : env.LagsBehind depth) (ht : t.fits depth = true) :
    (env.bind x t).LagsBehind depth := by
  intro y form hform
  have hlookup : (env.bind x t).lookup y = if x = y then some t else env.lookup y :=
    env.bindings.get?_insert x y t
  have hforms : (env.bind x t).forms.get? y =
      if x = y then some (t.nameless []) else env.forms.get? y :=
    env.forms.get?_insert x y (t.nameless [])
  rw [hforms] at hform
  rw [hlookup]
  split at hform
  · rename_i hxy
    rw [if_pos hxy]
    have heq : t.nameless [] = form := Option.some.inj hform
    exact ⟨t, rfl, fun _ => heq, t, ht, heq⟩
  · rename_i hxy
    rw [if_neg hxy]
    exact h y form hform

/-- A definition that is cut short leaves an older form behind. -/
theorem LagsBehind.bindFormless (h : env.LagsBehind depth) (ht : t.fits depth = false) :
    (env.bindFormless x t).LagsBehind depth := by
  intro y form hform
  obtain ⟨meaning, hmeaning, htrails⟩ := h y form hform
  have hlookup : (env.bindFormless x t).lookup y = if x = y then some t else env.lookup y :=
    env.bindings.get?_insert x y t
  rw [hlookup]
  split
  · refine ⟨t, rfl, ?_, htrails.completed⟩
    intro hfits
    rw [ht] at hfits
    cases hfits
  · exact ⟨meaning, hmeaning, htrails⟩

theorem LagsBehind.define (h : env.LagsBehind depth) (x : String) (t : Term) :
    (env.define depth x t).LagsBehind depth := by
  unfold Environment.define
  split
  · rename_i ht
    exact h.bind ht
  · rename_i ht
    exact h.bindFormless (Bool.eq_false_iff.2 ht)

/-- A removal takes the meaning and the form. -/
theorem LagsBehind.unbind (h : env.LagsBehind depth) (x : String) :
    (env.unbind x).LagsBehind depth := by
  intro y form hform
  have hlookup : (env.unbind x).lookup y = if x = y then none else env.lookup y :=
    env.bindings.get?_erase x y
  have hforms : (env.unbind x).forms.get? y = if x = y then none else env.forms.get? y :=
    env.forms.get?_erase x y
  rw [hforms] at hform
  rw [hlookup]
  split at hform
  · cases hform
  · rename_i hxy
    rw [if_neg hxy]
    exact h y form hform

theorem LagsBehind.defineAll (h : env.LagsBehind depth) (ds : List Definition) :
    (env.defineAll depth ds).1.LagsBehind depth := by
  induction ds generalizing env with
  | nil => exact h
  | cons d ds ih =>
    rw [Environment.defineAll]
    split
    · rename_i hd
      exact ih (h.bind hd)
    · rename_i hd
      exact h.bindFormless (Bool.eq_false_iff.2 hd)

/-- **One operation**, completed or not. -/
theorem LagsBehind.perform (h : env.LagsBehind depth) (op : Operation) :
    (op.perform depth env).LagsBehind depth := by
  cases op with
  | bind d => exact h.define d.name d.term
  | unbind name => exact h.unbind name
  | clear => exact lagsBehind_empty depth
  | load store directory library =>
    rw [Operation.perform_load]
    cases Library.load store directory library with
    | error e => exact h
    | ok ds => exact h.defineAll ds

/-- **Any operations**, completed or not. -/
theorem LagsBehind.foldl_perform (h : env.LagsBehind depth) (ops : List Operation) :
    (ops.foldl (Operation.perform depth) env).LagsBehind depth := by
  induction ops generalizing env with
  | nil => exact h
  | cons op ops ih => exact ih (h.perform op)

/-- **The name of a term**: its form, kept for the name, trails the meaning of the name. -/
theorem LagsBehind.exists_trails (h : env.LagsBehind depth) (hx : env.aliasOf u = some x) :
    ∃ meaning, env.lookup x = some meaning ∧ Trails depth (u.nameless []) meaning := by
  rw [aliasOf, Option.map_eq_some_iff] at hx
  obtain ⟨e, hfind, rfl⟩ := hx
  have hform : e.2 = u.nameless [] := by simpa using List.find?_some hfind
  rw [← hform]
  exact h e.1 e.2 (OrderedMap.get?_of_mem (List.mem_of_find?_eq_some hfind))

/-! ## What a definition that is cut short does -/

/-- **A definition that is cut short is made all the same.** After any operations, some of
which may have been cut short before, let a name be defined by a term that
is nested too deeply. All terms keep their names or stay without one, and all
other names keep their meanings. But the name means the term now, in the
place among the definitions that a completed definition would have; so the
definitions stay as they were only if the name meant this very term before.
And a name that is given to a term has a present meaning, which is the term
up to bound names exactly if it is within the limit: if it is not, the name
is given to the term by mistake. -/
theorem define_cut_short (depth : Option Nat) (ops : List Operation) :
    let env := ops.foldl (Operation.perform depth) empty
    (∀ x t, t.fits depth = false →
      (∀ u, (env.define depth x t).aliasOf u = env.aliasOf u) ∧
        (∀ y, y ≠ x → (env.define depth x t).lookup y = env.lookup y) ∧
        (env.define depth x t).lookup x = some t ∧
        (env.define depth x t).definitions = Definition.into ⟨x, t⟩ env.definitions ∧
        ((env.define depth x t).definitions = env.definitions ↔ env.lookup x = some t)) ∧
      ∀ u x, env.aliasOf u = some x →
        ∃ meaning, env.lookup x = some meaning ∧
          (meaning.AlphaEq u ↔ meaning.fits depth = true) := by
  intro env
  refine ⟨?_, ?_⟩
  · intro x t ht
    refine ⟨aliasOf_define_of_not_fits ht, ?_, ?_, env.definitions_define depth x t,
      definitions_define_eq_iff⟩
    · intro y hy
      rw [lookup_define, if_neg hy.symm]
    · rw [lookup_define, if_pos rfl]
  · intro u x hx
    have hlags : env.LagsBehind depth := (lagsBehind_empty depth).foldl_perform ops
    obtain ⟨meaning, hmeaning, htrails⟩ := hlags.exists_trails hx
    exact ⟨meaning, hmeaning, htrails.alphaEq_iff_fits⟩

/-- With two levels allowed, `λx. λy. x` is nested too deeply. `I` and `J` stand for
`λx. x`, then `I` is defined by the deep term. This is cut short, and so is
a definition of `K` by the same term. `I` is still the name of `λx. x`, and
means the deep term. -/
theorem define_cut_short_twice :
    let identity : Term := .lam "x" none (.var "x")
    let const : Term := .lam "x" none (.lam "y" none (.var "x"))
    let ops : List Operation :=
      [.bind ⟨"I", identity⟩, .bind ⟨"J", identity⟩, .bind ⟨"I", const⟩]
    let env := ops.foldl (Operation.perform (some 2)) empty
    let env' := env.define (some 2) "K" const
    const.fits (some 2) = false ∧
      (env'.lookup "K" = some const ∧ env'.lookup "J" = some identity ∧
        env'.aliasOf identity = some "I" ∧
        env'.definitions = [⟨"I", const⟩, ⟨"J", identity⟩, ⟨"K", const⟩]) ∧
      env.aliasOf identity = some "I" ∧
      ∃ meaning, env.lookup "I" = some meaning ∧ ¬ meaning.AlphaEq identity := by
  intro identity const ops env env'
  have hdeep : const.fits (some 2) = false := by decide
  have halias : env.aliasOf identity = some "I" := by decide +kernel
  have hI : env.lookup "I" = some const := by decide +kernel
  have hdefinitions : Definition.into ⟨"K", const⟩ env.definitions =
      [⟨"I", const⟩, ⟨"J", identity⟩, ⟨"K", const⟩] := by decide +kernel
  obtain ⟨hcut, hnamed⟩ := define_cut_short (some 2) ops
  obtain ⟨haliases, hothers, hK, hinto, -⟩ := hcut "K" const hdeep
  obtain ⟨meaning, hmeaning, hiff⟩ := hnamed identity "I" halias
  have hnot : ¬ meaning.AlphaEq identity := by
    have heq : const = meaning := Option.some.inj (hI.symm.trans hmeaning)
    rw [hiff, ← heq, hdeep]
    exact Bool.false_ne_true
  refine ⟨hdeep, ⟨hK, ?_, ?_, hinto.trans hdefinitions⟩, halias, meaning, hmeaning, hnot⟩
  · rw [hothers "J" (by decide)]
    decide +kernel
  · rw [haliases identity, halias]

/-- **The environment is not left as it was.** In an ordinary session `I` stands for
`λx. x`, and a term with a thousand binders is nested too deeply. A
definition of `I` by this term fails, and yet the definitions and the meaning
of `I` are others than before; and `I` is given as the name of `λx. x`, which
it no longer means. -/
theorem define_cut_short_replaces :
    let identity : Term := .lam "x" none (.var "x")
    let deep : Term := .abstractAll (List.replicate 1000 "x") (.var "x")
    let env := ofList [⟨"I", identity⟩]
    let env' := env.define Limits.standard.depth "I" deep
    deep.fits Limits.standard.depth = false ∧
      env'.definitions ≠ env.definitions ∧ env'.lookup "I" ≠ env.lookup "I" ∧
      env'.aliasOf identity = some "I" ∧ env'.lookup "I" = some deep ∧
      ¬ deep.AlphaEq identity := by
  intro identity deep env env'
  have hdeep : deep.fits Limits.standard.depth = false := by decide +kernel
  have hI : env.lookup "I" = some identity := by decide +kernel
  have hI' : env'.lookup "I" = some deep := by
    rw [lookup_define, if_pos rfl]
  have hne : deep ≠ identity := by decide +kernel
  refine ⟨hdeep, ?_, ?_, ?_, hI', by decide +kernel⟩
  · intro h
    have hsame := definitions_define_eq_iff.1 h
    rw [hI] at hsame
    exact hne (Option.some.inj hsame).symm
  · rw [hI', hI]
    exact fun h => hne (Option.some.inj h)
  · rw [aliasOf_define_of_not_fits hdeep]
    decide +kernel

end Environment

end LambdaShell
