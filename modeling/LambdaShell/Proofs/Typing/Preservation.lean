import LambdaShell.Proofs.Evaluation.Iteration
import LambdaShell.Proofs.Reduction.Contraction
import LambdaShell.Proofs.Typing.Rules

/-!
# Typing — reduction keeps types

A term keeps its type when one of its redexes is contracted. The step that
needs an argument is the contraction itself, which puts a term of some type
for a name that the context gives this type; this neither takes a type
away nor gives one (`typeOf_subst_iff`).

Contexts are ordered and an entry may stand anywhere in them, or be
overwritten where a binder is shadowed, while the types of a term hang on
the look-ups of its free names alone (`typeOf_congr`). So no statement here
says how two contexts are built. It says on which names they agree, and
that is kept under a binder whatever its name is (`get?_insert_congr`).
-/

namespace LambdaShell

namespace Typing

variable {ctx ctx' : Context} {t : Term} {τ : SimpleType}

/-! ## Contexts that agree -/

/-- Contexts that agree on a name outside a binder agree on it inside, and on the
binder's own name in any case. -/
theorem get?_insert_congr {x y : String} {ty : Ty}
    (h : y ≠ x → ctx'.get? y = ctx.get? y) :
    (ctx'.insert x ty).get? y = (ctx.insert x ty).get? y := by
  by_cases hyx : y = x
  · rw [hyx, OrderedMap.get?_insert_self, OrderedMap.get?_insert_self]
  · rw [OrderedMap.get?_insert_of_ne _ hyx, OrderedMap.get?_insert_of_ne _ hyx, h hyx]

/-- **A context counts for no more than what it says of the free names.** -/
theorem typeOf_congr (h : ∀ y ∈ t.freeVars, ctx'.get? y = ctx.get? y) :
    typeOf ctx' t = typeOf ctx t := by
  induction t generalizing ctx ctx' with
  | var x =>
    have hx := h x (by simp)
    simp only [typeOf, typeOfVar, hx]
  | lam x a body ih =>
    cases a with
    | none => rfl
    | some domain =>
      have hbody : typeOf (ctx'.insert x domain) body = typeOf (ctx.insert x domain) body := by
        refine ih fun y hy => get?_insert_congr fun hyx => ?_
        exact h y (by simp [hy, hyx])
      simp only [typeOf, hbody]
  | app fn arg ihf iha =>
    have hfn := ihf fun y hy => h y (by simp [hy])
    have harg := iha fun y hy => h y (by simp [hy])
    simp only [typeOf, hfn, harg]

/-- A binder that binds nothing in the term does not matter to its type. -/
theorem typeOf_insert_of_not_mem {x : String} (h : x ∉ t.freeVars) (ctx : Context) (ty : Ty) :
    typeOf (ctx.insert x ty) t = typeOf ctx t := by
  refine typeOf_congr fun y hy => ctx.get?_insert_of_ne ?_ ty
  rintro rfl
  exact h hy

/-! ## Change of a name -/

/-- **A change of name keeps the type** where the new name has the type of the old
one, if the term does not bind the new name. -/
theorem typeOf_replaceName {x y : String} {ty : Ty} (hb : y ∉ t.boundVars)
    (hx : ctx.get? x = some ty) (hy : ctx'.get? y = some ty)
    (h : ∀ z ∈ t.freeVars, z ≠ x → ctx'.get? z = ctx.get? z) :
    typeOf ctx' (t.replaceName x y) = typeOf ctx t := by
  induction t generalizing ctx ctx' with
  | var w =>
    simp only [Term.replaceName]
    split
    · rename_i hw
      simp only [typeOf, typeOfVar, hy, hw, hx]
    · rename_i hw
      have hw' := h w (by simp) hw
      simp only [typeOf, typeOfVar, hw']
  | lam w a body ih =>
    simp only [Term.boundVars, List.mem_cons, not_or] at hb
    simp only [Term.replaceName]
    split
    · -- the binder is the old name, so the body does not see the change
      rename_i hw
      refine typeOf_congr fun z hz => h z hz ?_
      rw [← hw]
      exact (Term.mem_freeVars_lam.1 hz).2
    · rename_i hw
      cases a with
      | none => rfl
      | some domain =>
        have hbody : typeOf (ctx'.insert w domain) (body.replaceName x y) =
            typeOf (ctx.insert w domain) body := by
          refine ih hb.2 ?_ ?_ ?_
          · rw [OrderedMap.get?_insert_of_ne _ (Ne.symm hw), hx]
          · rw [OrderedMap.get?_insert_of_ne _ hb.1, hy]
          · intro z hz hzx
            exact get?_insert_congr fun hzw => h z (by simp [hz, hzw]) hzx
        simp only [typeOf, hbody]
  | app fn arg ihf iha =>
    simp only [Term.boundVars, List.mem_append, not_or] at hb
    have hfn := ihf hb.1 hx hy fun z hz => h z (by simp [hz])
    have harg := iha hb.2 hx hy fun z hz => h z (by simp [hz])
    simp only [Term.replaceName, typeOf, hfn, harg]

/-! ## Substitution -/

/-- **Substitution neither takes a type away nor gives one**, if the replacement has, in the
context around the result, the type of the name it is put for, and the
contexts agree on every other free name of the term. -/
theorem typeOf_subst_iff {name : String} {r : Term} {σ : SimpleType}
    (hname : ctx.get? name = some (.simple σ)) (hr : typeOf ctx' r = .ok (.simple σ))
    (h : ∀ y ∈ t.freeVars, y ≠ name → ctx'.get? y = ctx.get? y) :
    typeOf ctx' (t.subst name r) = .ok (.simple τ) ↔ typeOf ctx t = .ok (.simple τ) := by
  -- the induction follows the substitution, which renames binders on its way
  fun_induction Term.subst t name r generalizing ctx ctx' τ with
  | case1 =>
    rw [hr, typeOf_var_eq_iff, hname]
    simp
  | case2 x hx => rw [typeOf_var_eq_iff, typeOf_var_eq_iff, h x (by simp) hx]
  | case3 fn arg ihf iha =>
    rw [typeOf_app_eq_iff, typeOf_app_eq_iff]
    refine exists_congr fun ρ => and_congr ?_ ?_
    · exact ihf hname hr fun y hy => h y (by simp [hy])
    · exact iha hname hr fun y hy => h y (by simp [hy])
  | case4 x a body hx =>
    -- the name is not free in the abstraction, so nothing happens to it
    have hsame : typeOf ctx' (.lam x a body) = typeOf ctx (.lam x a body) := by
      refine typeOf_congr fun y hy => h y hy ?_
      rintro rfl
      rw [Term.mem_freeVars_lam] at hy
      exact hx.elim (fun e => hy.2 e.symm) fun hn => hn hy.1
    rw [hsame]
  | case5 x a body hx hcapture y =>
    rename_i ih
    simp only [not_or, not_not] at hx
    have hyr : y ∉ r.freeVars := Term.freshBinder_not_mem_replacement
    have hyb : y ∉ body.freeVars := Term.freshBinder_not_mem_freeVars
    have hny : name ≠ y := by
      intro e
      rw [← e] at hyb
      exact hyb hx.2
    rw [typeOf_lam_eq_iff, typeOf_lam_eq_iff]
    refine exists_congr fun ρ => exists_congr fun ρ' => and_congr_right fun _ =>
      and_congr_left fun _ => ?_
    -- first the binder takes its new name, and its type goes with it
    have hrename : typeOf (ctx.insert y (.simple ρ)) (body.replaceName x y) =
        typeOf (ctx.insert x (.simple ρ)) body := by
      refine typeOf_replaceName Term.freshBinder_not_mem_boundVars
        (OrderedMap.get?_insert_self _ _ _) (OrderedMap.get?_insert_self _ _ _) ?_
      intro z hz hzx
      have hzy : z ≠ y := by
        rintro rfl
        exact hyb hz
      rw [OrderedMap.get?_insert_of_ne _ hzy, OrderedMap.get?_insert_of_ne _ hzx]
    -- then the body is substituted in, under a binder that captures nothing
    have hr' : typeOf (ctx'.insert y (.simple ρ)) r = .ok (.simple σ) := by
      rw [typeOf_insert_of_not_mem hyr, hr]
    rw [← hrename]
    refine ih ?_ hr' ?_
    · rw [OrderedMap.get?_insert_of_ne _ hny, hname]
    · intro z hz hzn
      refine get?_insert_congr fun hzy => ?_
      have hzb := (Term.mem_freeVars_replaceName hz).resolve_left hzy
      exact h z (by simp [hzb.1, hzb.2]) hzn
  | case6 x a body hx hcapture ih =>
    simp only [not_or, not_not] at hx
    rw [typeOf_lam_eq_iff, typeOf_lam_eq_iff]
    refine exists_congr fun ρ => exists_congr fun ρ' => and_congr_right fun _ =>
      and_congr_left fun _ => ?_
    have hr' : typeOf (ctx'.insert x (.simple ρ)) r = .ok (.simple σ) := by
      rw [typeOf_insert_of_not_mem hcapture, hr]
    refine ih ?_ hr' ?_
    · rw [OrderedMap.get?_insert_of_ne _ (Ne.symm hx.1), hname]
    · intro z hz hzn
      exact get?_insert_congr fun hzx => h z (by simp [hz, hzx]) hzn

/-! ## Contraction -/

/-- **A contraction keeps the type**, wherever in the term it takes place. -/
theorem typeOf_contracts {u : Term} (h : t.Contracts u) (ht : typeOf ctx t = .ok (.simple τ)) :
    typeOf ctx u = .ok (.simple τ) := by
  induction h generalizing ctx τ with
  | contract x a body arg =>
    obtain ⟨σ, hfn, harg⟩ := typeOf_app_eq_iff.1 ht
    obtain ⟨σ', τ', rfl, hbody, harrow⟩ := typeOf_lam_eq_iff.1 hfn
    cases harrow
    refine (typeOf_subst_iff (ctx.get?_insert_self x _) harg ?_).2 hbody
    intro y _ hyx
    exact (ctx.get?_insert_of_ne hyx _).symm
  | function arg _ ih =>
    obtain ⟨σ, hfn, harg⟩ := typeOf_app_eq_iff.1 ht
    exact typeOf_app_eq_iff.2 ⟨σ, ih hfn, harg⟩
  | argument fn _ ih =>
    obtain ⟨σ, hfn, harg⟩ := typeOf_app_eq_iff.1 ht
    exact typeOf_app_eq_iff.2 ⟨σ, hfn, ih harg⟩
  | body x a _ ih =>
    obtain ⟨σ, ρ, rfl, hbody, rfl⟩ := typeOf_lam_eq_iff.1 ht
    exact typeOf_lam_eq_iff.2 ⟨σ, ρ, rfl, ih hbody, rfl⟩

/-- **Subject reduction.** If the checker gives a term a type that is no fault, in
whatever context, it gives this same type in this context to what any
strategy makes of the term in one step, and to every term that an evaluation
goes through, within any limits and with any budget. -/
theorem typeOf_evaluate {ty : Ty} (ht : typeOf ctx t = .ok ty) (hty : ty.isFault = false)
    (s : Strategy) :
    (∀ u, s.step t = some u → typeOf ctx u = .ok ty) ∧
      ∀ (limits : Limits) (budget : Option Int),
        ∀ u ∈ (s.evaluate limits budget t).trace, typeOf ctx u = .ok ty := by
  cases ty with
  | fault reason => cases hty
  | simple τ =>
    refine ⟨fun u hu => typeOf_contracts (Strategy.contracts_of_step hu) ht, ?_⟩
    intro limits budget
    refine Strategy.forall_mem_trace (P := fun u => typeOf ctx u = .ok (.simple τ)) ?_ ht limits
      budget
    intro u v hstep hu
    exact typeOf_contracts (Strategy.contracts_of_step hstep) hu

/-- `(λx:A. λy:B. x) y` in a context in which `y` has the type `A`: the inner binder
has to be renamed, and takes its annotation along. -/
theorem typeOf_evaluate_captured :
    let a : SimpleType := .base "A"
    let b : SimpleType := .base "B"
    let ctx : Context := .ofList [("y", .simple a)]
    let t : Term := .app (.lam "x" (some (.simple a)) (.lam "y" (some (.simple b)) (.var "x")))
      (.var "y")
    let u : Term := .lam "y1" (some (.simple b)) (.var "y")
    typeOf ctx t = .ok (.simple (.arrow b a)) ∧ Strategy.callByValue.step t = some u ∧
      typeOf ctx u = .ok (.simple (.arrow b a)) := by
  intro a b ctx t u
  have ht : typeOf ctx t = .ok (.simple (.arrow b a)) := by decide +kernel
  have hstep : Strategy.callByValue.step t = some u := by decide +kernel
  exact ⟨ht, hstep, (typeOf_evaluate ht rfl .callByValue).1 u hstep⟩

end Typing

end LambdaShell
