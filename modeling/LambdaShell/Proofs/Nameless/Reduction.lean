import LambdaShell.Proofs.Nameless.Annotated
import LambdaShell.Reduction.Strategy

/-!
# Nameless terms — reduction

The steps of the three disciplines can be taken on nameless terms, where
there is no renaming to be done. A step on a term and a step on its
nameless form are the same step (`map_nameless_step`): the names a term
happens to have are looked at by no discipline. Every one of these steps
contracts one redex, so it is a step of `Beta`, the relation that contracts
any redex anywhere.
-/

namespace LambdaShell

namespace Nameless

/-- **One contraction**, of any redex of the term. -/
inductive Beta : Nameless → Nameless → Prop where
  /-- The redex is the whole term. -/
  | contract (body arg : Nameless) : Beta (app (lam body) arg) (body.instantiate arg)
  /-- The redex is in the function. -/
  | function {fn fn' : Nameless} (arg : Nameless) : Beta fn fn' → Beta (app fn arg) (app fn' arg)
  /-- The redex is in the argument. -/
  | argument (fn : Nameless) {arg arg' : Nameless} : Beta arg arg' → Beta (app fn arg) (app fn arg')
  /-- The redex is under a binder. -/
  | body {body body' : Nameless} : Beta body body' → Beta (lam body) (lam body')

/-- Substitution keeps redexes and what they contract to. -/
theorem Beta.subst {t u : Nameless} (h : Beta t u) (σ : Nat → Nameless) :
    Beta (t.subst σ) (u.subst σ) := by
  induction h generalizing σ with
  | contract body arg =>
    rw [subst_instantiate]
    exact .contract _ _
  | function arg _ ih => exact .function _ (ih σ)
  | argument fn _ ih => exact .argument _ (ih σ)
  | body _ ih => exact .body (ih (up σ))

/-! ## The three disciplines -/

/-- Normal order on nameless terms. -/
def normalOrder : Nameless → Option Nameless
  | app (lam body) arg => some (body.instantiate arg)
  | app fn arg =>
    match normalOrder fn with
    | some fn' => some (app fn' arg)
    | none => (normalOrder arg).map (app fn)
  | lam body => (normalOrder body).map lam
  | index _ => none
  | free _ => none

/-- Call by name on nameless terms. -/
def callByName : Nameless → Option Nameless
  | app (lam body) arg => some (body.instantiate arg)
  | app fn arg => (callByName fn).map (app · arg)
  | lam _ => none
  | index _ => none
  | free _ => none

/-- Call by value on nameless terms. -/
def callByValue : Nameless → Option Nameless
  | app (lam body) arg =>
    match callByValue arg with
    | some arg' => some (app (lam body) arg')
    | none => some (body.instantiate arg)
  | app fn arg => (callByValue fn).map (app · arg)
  | lam _ => none
  | index _ => none
  | free _ => none

/-- **One step of a strategy on a nameless term.** -/
def step : Strategy → Nameless → Option Nameless
  | .normalOrder => normalOrder
  | .callByName => callByName
  | .callByValue => callByValue

theorem beta_of_normalOrder {t u : Nameless} (h : normalOrder t = some u) : Beta t u := by
  fun_induction normalOrder t generalizing u with
  | case1 body arg => cases h; exact .contract body arg
  | case2 fn arg _ fn' hfn ih => cases h; exact .function arg (ih hfn)
  | case3 fn arg _ _ _ iha =>
    obtain ⟨arg', harg, rfl⟩ := Option.map_eq_some_iff.1 h
    exact .argument fn (iha harg)
  | case4 body ih =>
    obtain ⟨body', hbody, rfl⟩ := Option.map_eq_some_iff.1 h
    exact .body (ih hbody)
  | case5 i => cases h
  | case6 x => cases h

theorem beta_of_callByName {t u : Nameless} (h : callByName t = some u) : Beta t u := by
  fun_induction callByName t generalizing u with
  | case1 body arg => cases h; exact .contract body arg
  | case2 fn arg _ ih =>
    obtain ⟨fn', hfn, rfl⟩ := Option.map_eq_some_iff.1 h
    exact .function arg (ih hfn)
  | case3 body => cases h
  | case4 i => cases h
  | case5 x => cases h

theorem beta_of_callByValue {t u : Nameless} (h : callByValue t = some u) : Beta t u := by
  fun_induction callByValue t generalizing u with
  | case1 body arg arg' harg ih => cases h; exact .argument _ (ih harg)
  | case2 body arg _ _ => cases h; exact .contract body arg
  | case3 fn arg _ ih =>
    obtain ⟨fn', hfn, rfl⟩ := Option.map_eq_some_iff.1 h
    exact .function arg (ih hfn)
  | case4 body => cases h
  | case5 i => cases h
  | case6 x => cases h

/-- **Every step of a strategy contracts one redex.** -/
theorem beta_of_step {s : Strategy} {t u : Nameless} (h : step s t = some u) : Beta t u := by
  cases s with
  | normalOrder => exact beta_of_normalOrder h
  | callByName => exact beta_of_callByName h
  | callByValue => exact beta_of_callByValue h

end Nameless

/-! ## Steps on terms are steps on their nameless forms -/

namespace Reduction

/-- Only an abstraction has an abstraction as its nameless form. -/
theorem nameless_ne_lam {t : Term} (h : ∀ x a body, t = .lam x a body → False)
    (scope : List String) : ∀ body, t.nameless scope = .lam body → False := by
  intro body heq
  cases t with
  | var x =>
    simp only [Term.nameless, Term.resolve] at heq
    cases hi : scope.findIdx? (· = x) <;> rw [hi] at heq <;> cases heq
  | lam x a body' => exact h x a body' rfl
  | app fn arg => cases heq

theorem map_nameless_normalOrder (t : Term) (scope : List String) :
    (normalOrder t).map (·.nameless scope) = (t.nameless scope).normalOrder := by
  fun_induction normalOrder t generalizing scope with
  | case1 x a body arg =>
    simp only [Option.map_some, Term.nameless_subst, Term.nameless, Nameless.normalOrder]
  | case2 fn arg hfn fn' hstep ih =>
    rw [Term.nameless, Nameless.normalOrder.eq_2 _ _ (nameless_ne_lam hfn scope), ← ih, hstep]
    rfl
  | case3 fn arg hfn hstep ihf iha =>
    rw [Term.nameless, Nameless.normalOrder.eq_2 _ _ (nameless_ne_lam hfn scope), ← ihf, hstep,
      ← iha]
    cases normalOrder arg <;> rfl
  | case4 x a body ih =>
    rw [Term.nameless, Nameless.normalOrder, ← ih]
    cases normalOrder body <;> rfl
  | case5 x =>
    simp only [Term.nameless, Term.resolve]
    cases scope.findIdx? (· = x) <;> rfl

theorem map_nameless_callByName (t : Term) (scope : List String) :
    (callByName t).map (·.nameless scope) = (t.nameless scope).callByName := by
  fun_induction callByName t generalizing scope with
  | case1 x a body arg =>
    simp only [Option.map_some, Term.nameless_subst, Term.nameless, Nameless.callByName]
  | case2 fn arg hfn ih =>
    rw [Term.nameless, Nameless.callByName.eq_2 _ _ (nameless_ne_lam hfn scope), ← ih]
    cases callByName fn <;> rfl
  | case3 x a body => rfl
  | case4 x =>
    simp only [Term.nameless, Term.resolve]
    cases scope.findIdx? (· = x) <;> rfl

theorem map_nameless_callByValue (t : Term) (scope : List String) :
    (callByValue t).map (·.nameless scope) = (t.nameless scope).callByValue := by
  fun_induction callByValue t generalizing scope with
  | case1 x a body arg arg' hstep ih =>
    simp only [Term.nameless, Nameless.callByValue, ← ih, hstep]
    rfl
  | case2 x a body arg hstep ih =>
    simp only [Term.nameless, Nameless.callByValue, ← ih, hstep, Option.map_some,
      Option.map_none, Term.nameless_subst]
  | case3 fn arg hfn ih =>
    rw [Term.nameless, Nameless.callByValue.eq_2 _ _ (nameless_ne_lam hfn scope), ← ih]
    cases callByValue fn <;> rfl
  | case4 x a body => rfl
  | case5 x =>
    simp only [Term.nameless, Term.resolve]
    cases scope.findIdx? (· = x) <;> rfl

end Reduction

namespace Strategy

/-- **A step on a term is the step on its nameless form.** -/
theorem map_nameless_step (s : Strategy) (t : Term) (scope : List String) :
    (s.step t).map (·.nameless scope) = (t.nameless scope).step s := by
  cases s with
  | normalOrder => exact Reduction.map_nameless_normalOrder t scope
  | callByName => exact Reduction.map_nameless_callByName t scope
  | callByValue => exact Reduction.map_nameless_callByValue t scope

/-- A step on a term contracts a redex of its nameless form. -/
theorem beta_of_step {s : Strategy} {t u : Term} (h : s.step t = some u) (scope : List String) :
    Nameless.Beta (t.nameless scope) (u.nameless scope) := by
  refine Nameless.beta_of_step (s := s) ?_
  rw [← s.map_nameless_step t scope, h, Option.map_some]

end Strategy

end LambdaShell
