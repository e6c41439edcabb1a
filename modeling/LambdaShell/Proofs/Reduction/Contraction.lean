import LambdaShell.Proofs.Nameless.Reduction

/-!
# Reduction — contractions

The strategies differ in the redex they choose and agree in what they do
with it: they put the argument for the bound name, as substitution does.
`Term.Contracts` is this one step with the choice left open. A strategy is
a part of it (`Strategy.contracts_of_step`), so what every contraction
keeps, every strategy keeps.

Contraction of a term and contraction of its nameless form are the same
relation seen twice: each contraction of the term is one of the nameless
form, and each of the nameless form comes from one of the term
(`exists_contracts`). Facts about reduction that are easier to prove where
nothing has to be renamed can therefore be carried back.
-/

namespace LambdaShell

namespace Term

/-- **One contraction**, of any redex of the term, by the substitution of the
program. -/
inductive Contracts : Term → Term → Prop where
  /-- The redex is the whole term. -/
  | contract (x : String) (a : Option Ty) (body arg : Term) :
      Contracts (app (lam x a body) arg) (body.subst x arg)
  /-- The redex is in the function. -/
  | function {fn fn' : Term} (arg : Term) : Contracts fn fn' → Contracts (app fn arg) (app fn' arg)
  /-- The redex is in the argument. -/
  | argument (fn : Term) {arg arg' : Term} : Contracts arg arg' → Contracts (app fn arg) (app fn arg')
  /-- The redex is under a binder. -/
  | body (x : String) (a : Option Ty) {body body' : Term} :
      Contracts body body' → Contracts (lam x a body) (lam x a body')

/-! ## Terms and their nameless forms -/

/-- A contraction of a term is one of its nameless form. -/
theorem Contracts.nameless {t u : Term} (h : Contracts t u) (scope : List String) :
    Nameless.Beta (t.nameless scope) (u.nameless scope) := by
  induction h generalizing scope with
  | contract x a body arg =>
    rw [nameless_subst]
    exact .contract _ _
  | function arg _ ih => exact .function _ (ih scope)
  | argument fn _ ih => exact .argument _ (ih scope)
  | body x a _ ih => exact .body (ih (x :: scope))

/-- **A contraction of the nameless form is one of the term.** -/
theorem exists_contracts {t : Term} {scope : List String} {v : Nameless}
    (h : Nameless.Beta (t.nameless scope) v) : ∃ u, Contracts t u ∧ u.nameless scope = v := by
  induction t generalizing scope v with
  | var x =>
    -- a variable, bound or free, holds no redex
    exfalso
    simp only [Term.nameless, resolve] at h
    cases hi : scope.findIdx? (· = x) <;> rw [hi] at h <;> cases h
  | lam x a body ih =>
    cases h with
    | body hbody =>
      obtain ⟨body', hcontracts, rfl⟩ := ih hbody
      exact ⟨lam x a body', .body x a hcontracts, rfl⟩
  | app fn arg ihf iha =>
    generalize hfn : fn.nameless scope = f at h
    have happ : (app fn arg).nameless scope = .app f (arg.nameless scope) := by rw [← hfn]; rfl
    rw [happ] at h
    cases h with
    | contract body _ =>
      -- only an abstraction has an abstraction as its form
      cases fn with
      | lam x a body' =>
        cases hfn
        exact ⟨body'.subst x arg, .contract x a body' arg, nameless_subst body' x arg scope⟩
      | var x => exact (Reduction.nameless_ne_lam (fun _ _ _ e => by cases e) scope _ hfn).elim
      | app f a => cases hfn
    | function _ hf =>
      rw [← hfn] at hf
      obtain ⟨fn', hcontracts, rfl⟩ := ihf hf
      exact ⟨app fn' arg, .function arg hcontracts, rfl⟩
    | argument _ ha =>
      obtain ⟨arg', hcontracts, rfl⟩ := iha ha
      exact ⟨app fn arg', .argument fn hcontracts, by rw [Term.nameless, hfn]⟩

end Term

/-! ## The strategies contract -/

namespace Reduction

open Term (Contracts)

theorem contracts_of_normalOrder {t u : Term} (h : normalOrder t = some u) : Contracts t u := by
  fun_induction normalOrder t generalizing u with
  | case1 x a body arg => cases h; exact .contract x a body arg
  | case2 fn arg _ fn' hfn ih => cases h; exact .function arg (ih hfn)
  | case3 fn arg _ _ _ iha =>
    obtain ⟨arg', harg, rfl⟩ := Option.map_eq_some_iff.1 h
    exact .argument fn (iha harg)
  | case4 x a body ih =>
    obtain ⟨body', hbody, rfl⟩ := Option.map_eq_some_iff.1 h
    exact .body x a (ih hbody)
  | case5 x => cases h

theorem contracts_of_callByName {t u : Term} (h : callByName t = some u) : Contracts t u := by
  fun_induction callByName t generalizing u with
  | case1 x a body arg => cases h; exact .contract x a body arg
  | case2 fn arg _ ih =>
    obtain ⟨fn', hfn, rfl⟩ := Option.map_eq_some_iff.1 h
    exact .function arg (ih hfn)
  | case3 x a body => cases h
  | case4 x => cases h

theorem contracts_of_callByValue {t u : Term} (h : callByValue t = some u) : Contracts t u := by
  fun_induction callByValue t generalizing u with
  | case1 x a body arg arg' harg ih => cases h; exact .argument _ (ih harg)
  | case2 x a body arg _ _ => cases h; exact .contract x a body arg
  | case3 fn arg _ ih =>
    obtain ⟨fn', hfn, rfl⟩ := Option.map_eq_some_iff.1 h
    exact .function arg (ih hfn)
  | case4 x a body => cases h
  | case5 x => cases h

end Reduction

/-- **Every step of a strategy is a contraction.** -/
theorem Strategy.contracts_of_step {s : Strategy} {t u : Term} (h : s.step t = some u) :
    t.Contracts u := by
  cases s with
  | normalOrder => exact Reduction.contracts_of_normalOrder h
  | callByName => exact Reduction.contracts_of_callByName h
  | callByValue => exact Reduction.contracts_of_callByValue h

end LambdaShell
