import LambdaShell.Proofs.Nameless.FreeNames
import Mathlib.Order.Bounds.Defs

/-!
# Terms — what equality up to bound names is

Terms are compared by their nameless forms. The usual notion has no such
forms: it is the least equivalence that is kept by application and
abstraction, does not look at annotations, and lets a binder take any name
that is not free in its body. `Term.alphaEq_isLeast` says that the two are
the same.

One half is that the comparison of forms has these properties. That it is
kept by abstraction takes an argument, since the forms of the bodies are
compared where the binder is not around them: the form under a binder can be
made from the form without it, by letting the binder take its name
(`nameless_append`). The other half is a way of renamings between any two
terms of the same form. Where both are abstractions, their binders can take
one name that occurs in neither of them; then the bodies have the same form
and the same sizes as before, and the way goes on inside.
-/

namespace LambdaShell

/-! ## Binders that take names -/

/-- **The term with its free names taken by binders** around it, which are listed
innermost first and stand `level` binders further out. -/
def Nameless.captured (binders : List String) (level : Nat) : Nameless → Nameless
  | index i => index i
  | free x =>
    match binders.findIdx? (· = x) with
    | some i => index (i + level)
    | none => free x
  | lam body => lam (body.captured binders (level + 1))
  | app fn arg => app (fn.captured binders level) (arg.captured binders level)

namespace Term

variable {t u body : Term} {x y : String} {scope : List String}

theorem resolve_append (x : String) (scope binders : List String) :
    resolve x (scope ++ binders) = (resolve x scope).captured binders scope.length := by
  unfold resolve
  rw [List.findIdx?_append]
  cases hscope : scope.findIdx? (· = x) with
  | some i => rfl
  | none =>
    simp only [Option.none_or, Nameless.captured]
    cases binders.findIdx? (· = x) <;> rfl

/-- **The form under more binders** is made from the form under fewer. -/
theorem nameless_append (t : Term) (scope binders : List String) :
    t.nameless (scope ++ binders) = (t.nameless scope).captured binders scope.length := by
  induction t generalizing scope with
  | var x => exact resolve_append x scope binders
  | lam x a body ih => exact congrArg Nameless.lam (ih (x :: scope))
  | app fn arg ihf iha => simp only [nameless, Nameless.captured, ihf, iha]

/-- Terms equal up to bound names have the same form under all binders. -/
theorem AlphaEq.nameless_eq (h : t.AlphaEq u) (scope : List String) :
    t.nameless scope = u.nameless scope := by
  have hform : t.nameless [] = u.nameless [] := h
  rw [← List.nil_append scope, nameless_append, nameless_append, hform]

/-! ## Another name for a binder -/

/-- **A binder may take any name that is not free in its body**: the renamed body has
under the new binder the form that the body had under the old one. -/
theorem nameless_subst_var (hy : y ∉ body.freeVars) (x : String) (scope : List String) :
    (body.subst x (var y)).nameless (y :: scope) = body.nameless (x :: scope) := by
  have hagree : ∀ z ∈ body.freeVars, z ≠ x →
      (Annotated.ofName z (x :: scope)).subst .index = Annotated.ofName z (y :: scope) := by
    intro z hz hzx
    have hzy : z ≠ y := by
      rintro rfl
      exact hy hz
    rw [Annotated.ofName_cons_of_ne hzx, Annotated.ofName_cons_of_ne hzy]
    unfold Annotated.ofName
    cases scope.findIdx? (· = z) <;> rfl
  have hname : (Annotated.ofName x (x :: scope)).subst .index = (var y).annotated (y :: scope) := by
    rw [Annotated.ofName_cons_self, annotated, Annotated.ofName_cons_self, Annotated.subst]
  calc (body.subst x (var y)).nameless (y :: scope)
      = ((body.annotated (x :: scope)).subst .index).erase := by
        rw [← erase_annotated, subst_annotated_of_agree hname hagree]
    _ = (body.nameless (x :: scope)).subst .index := by
        rw [Annotated.erase_subst, erase_annotated]
        rfl
    _ = body.nameless (x :: scope) := Nameless.subst_index _

/-- Renaming keeps the size of a term, whatever binders it has to rename. -/
theorem size_subst_var (t : Term) (x y : String) : (t.subst x (var y)).size = t.size := by
  fun_induction Term.subst t x (var y) with
  | case1 => rfl
  | case2 => rfl
  | case3 fn arg ihf iha => rw [size, size, ihf, iha]
  | case4 => rfl
  | case5 z a body _ _ z' ih => rw [size, size, ih, size_replaceName]
  | case6 z a body _ _ ih => rw [size, size, ih]

/-! ## Terms of a given form -/

/-- A name stands for the index of a binder of that name, or for itself. -/
theorem resolve_cases (x : String) (scope : List String) :
    (∃ i, scope[i]? = some x ∧ resolve x scope = .index i) ∨ resolve x scope = .free x := by
  unfold resolve
  cases hfind : scope.findIdx? (· = x) with
  | none => exact .inr rfl
  | some i =>
    obtain ⟨hi, hx, -⟩ := List.findIdx?_eq_some_iff_getElem.1 hfind
    refine .inl ⟨i, ?_, rfl⟩
    rw [List.getElem?_eq_getElem hi, of_decide_eq_true hx]

/-- Different names have different forms, even where names are shadowed. -/
theorem eq_of_resolve_eq (h : resolve x scope = resolve y scope) : x = y := by
  rcases resolve_cases x scope with ⟨i, hi, hx⟩ | hx <;>
    rcases resolve_cases y scope with ⟨j, hj, hy⟩ | hy <;> rw [hx, hy] at h
  · rw [Nameless.index.inj h, hj] at hi
    exact (Option.some.inj hi).symm
  · cases h
  · cases h
  · exact Nameless.free.inj h

theorem resolve_ne_lam (m : Nameless) : resolve x scope ≠ .lam m := by
  rcases resolve_cases x scope with ⟨i, -, hx⟩ | hx <;> rw [hx] <;> exact nofun

theorem resolve_ne_app (m n : Nameless) : resolve x scope ≠ .app m n := by
  rcases resolve_cases x scope with ⟨i, -, hx⟩ | hx <;> rw [hx] <;> exact nofun

theorem eq_var_of_nameless_eq (h : t.nameless scope = resolve x scope) : t = var x := by
  cases t with
  | var y => exact congrArg var (eq_of_resolve_eq h)
  | lam y a body => exact absurd h.symm (resolve_ne_lam _)
  | app fn arg => exact absurd h.symm (resolve_ne_app _ _)

theorem exists_lam_of_nameless_eq {m : Nameless} (h : t.nameless scope = .lam m) :
    ∃ x a body, t = lam x a body ∧ body.nameless (x :: scope) = m := by
  cases t with
  | var x => exact absurd h (resolve_ne_lam m)
  | lam x a body => exact ⟨x, a, body, rfl, Nameless.lam.inj h⟩
  | app fn arg => cases h

theorem exists_app_of_nameless_eq {m n : Nameless} (h : t.nameless scope = .app m n) :
    ∃ fn arg, t = app fn arg ∧ fn.nameless scope = m ∧ arg.nameless scope = n := by
  cases t with
  | var x => exact absurd h (resolve_ne_app m n)
  | lam x a body => cases h
  | app fn arg =>
    obtain ⟨hfn, harg⟩ := Nameless.app.inj h
    exact ⟨fn, arg, rfl, hfn, harg⟩

/-! ## Renaming congruences -/

/-- **The properties of equality up to bound names**, as they are usually asked for. -/
structure RenamingCongruence (R : Term → Term → Prop) : Prop where
  equivalence : Equivalence R
  app {fn fn' arg arg' : Term} : R fn fn' → R arg arg' → R (.app fn arg) (.app fn' arg')
  lam (x : String) (a : Option Ty) {body body' : Term} :
    R body body' → R (.lam x a body) (.lam x a body')
  /-- Annotations do not count. -/
  declared (x : String) (a a' : Option Ty) (body : Term) : R (.lam x a body) (.lam x a' body)
  /-- A binder may take any name that is not free in its body. -/
  rename (x : String) (a : Option Ty) {y : String} {body : Term} :
    y ∉ body.freeVars → R (.lam x a body) (renameBinder y (.lam x a body))

/-- **The comparison of nameless forms is a renaming congruence.** -/
theorem renamingCongruence_alphaEq : RenamingCongruence AlphaEq where
  equivalence := ⟨fun _ => rfl, Eq.symm, Eq.trans⟩
  app hfn harg := congrArg₂ Nameless.app hfn harg
  lam x _ _ _ hbody := congrArg Nameless.lam (AlphaEq.nameless_eq hbody [x])
  declared _ _ _ _ := rfl
  rename x _ _ _ hy := congrArg Nameless.lam (nameless_subst_var hy x []).symm

namespace RenamingCongruence

variable {R : Term → Term → Prop}

/-- Abstractions are related if their bodies are after both binders took one name
that is free in neither. -/
theorem lam_of_renamed (hR : RenamingCongruence R) {x x' z : String} {a a' : Option Ty}
    {body body' : Term} (hz : z ∉ body.freeVars) (hz' : z ∉ body'.freeVars)
    (h : R (body.subst x (var z)) (body'.subst x' (var z))) :
    R (Term.lam x a body) (Term.lam x' a' body') := by
  have hleft := hR.rename x a hz
  have hbody := hR.lam z a h
  have hannotation := hR.declared z a a' (body'.subst x' (var z))
  have hright := hR.equivalence.symm (hR.rename x' a' hz')
  exact hR.equivalence.trans hleft
    (hR.equivalence.trans hbody (hR.equivalence.trans hannotation hright))

/-- **Terms of the same form are related** by every renaming congruence. -/
theorem of_nameless_eq (hR : RenamingCongruence R) {t u : Term} {scope : List String}
    (h : t.nameless scope = u.nameless scope) : R t u := by
  cases t with
  | var x =>
    rw [eq_var_of_nameless_eq h.symm]
    exact hR.equivalence.refl _
  | app fn arg =>
    obtain ⟨fn', arg', rfl, hfn, harg⟩ := exists_app_of_nameless_eq h.symm
    have hsize : fn.size < (Term.app fn arg).size ∧ arg.size < (Term.app fn arg).size := by
      simp only [size]
      omega
    exact hR.app (hR.of_nameless_eq hfn.symm) (hR.of_nameless_eq harg.symm)
  | lam x a body =>
    obtain ⟨x', a', body', rfl, hbody⟩ := exists_lam_of_nameless_eq h.symm
    obtain ⟨z, hfresh⟩ : ∃ z, z ∉ body.freeVars ++ body'.freeVars := ⟨_, Fresh.name_not_mem x _⟩
    obtain ⟨hz, hz'⟩ := not_or.1 fun h => hfresh (List.mem_append.2 h)
    -- with one name for both binders the bodies have the same form again
    have hrenamed : (body.subst x (var z)).nameless (z :: scope) =
        (body'.subst x' (var z)).nameless (z :: scope) := by
      rw [nameless_subst_var hz, nameless_subst_var hz', hbody]
    have hsize : (body.subst x (var z)).size < (Term.lam x a body).size := by
      rw [size_subst_var, size]
      omega
    exact hR.lam_of_renamed hz hz' (hR.of_nameless_eq hrenamed)
termination_by t.size

end RenamingCongruence

/-- **Equality up to bound names is what it is usually said to be**: the least of the
equivalences that are kept by application and abstraction, do not look at
annotations, and relate every abstraction to what it becomes when its binder
takes a name that is not free in its body, bound in it or not. -/
theorem alphaEq_isLeast : IsLeast {R | RenamingCongruence R} AlphaEq :=
  ⟨renamingCongruence_alphaEq, fun _ hR _ _ h => hR.of_nameless_eq h⟩

-- the new name is bound in the body, and the inner binder gives way
example : renameBinder "y" (lam "x" none (lam "y" none (app (var "x") (var "y")))) =
    lam "y" none (lam "y1" none (app (var "y") (var "y1"))) := by cbv

end Term

end LambdaShell
