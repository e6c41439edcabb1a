import LambdaShell.Proofs.Evaluation.Agreement
import LambdaShell.Proofs.Evaluation.Ending
import LambdaShell.Proofs.Nameless.Standardization
import LambdaShell.Proofs.Reduction.Closed

/-!
# Evaluation — working at the head first

Normal order and call by name contract at the head before they look at
anything else, and lose nothing by it. Whatever order of contractions brings
a term to one without redex, normal order brings it there as well
(`normalOrder_finds_normal`). Whatever closed term call by value can
evaluate, call by name can evaluate too, though it may have to evaluate one
argument many times over (`callByName_ends_of_callByValue`).

Both are read off the standard form of a reduction. That is a fact about
nameless terms, and a step of a strategy on a term is its step on the
nameless form, so the steps found there can be made on the term.
-/

namespace LambdaShell

/-- A reduct of a closed term is closed. -/
theorem Term.Reduces.isClosed {t u : Term} (h : t.Reduces u) (ht : t.isClosed = true) :
    u.isClosed = true := by
  induction h with
  | refl => exact ht
  | tail _ hcontracts ih => exact hcontracts.isClosed ih

namespace Strategy

variable {s : Strategy} {t u v : Term}

/-- **Steps on the nameless form can be made on the term.** -/
theorem exists_iterate_of_steps {scope : List String} {v : Nameless}
    (h : Nameless.Steps s (t.nameless scope) v) :
    ∃ n u, s.iterate n t = some u ∧ u.nameless scope = v := by
  induction h with
  | refl => exact ⟨0, t, rfl, rfl⟩
  | tail _ hstep ih =>
    obtain ⟨n, u, hu, rfl⟩ := ih
    rw [← s.map_nameless_step u scope] at hstep
    obtain ⟨w, hw, rfl⟩ := Option.map_eq_some_iff.1 hstep
    refine ⟨n + 1, w, ?_, rfl⟩
    rw [iterate_add, hu, Option.bind_some, iterate_succ_of_step hw, iterate_zero]

theorem reduces_of_iterate {n : Nat} (h : s.iterate n t = some u) : t.Reduces u := by
  induction n generalizing t with
  | zero => cases h; exact .refl
  | succ n ih =>
    obtain ⟨v, hstep, hv⟩ := Option.bind_eq_some_iff.1 h
    exact .head (contracts_of_step hstep) (ih hv)

/-! ## Normal order -/

/-- Normal order does not move a term whose nameless form has no redex. -/
theorem step_normalOrder_eq_none {scope : List String} (h : (t.nameless scope).Normal) :
    normalOrder.step t = none := by
  have hmap := normalOrder.map_nameless_step t scope
  rw [show Nameless.step normalOrder _ = none from Nameless.normal_iff.1 h] at hmap
  exact Option.map_eq_none_iff.1 hmap

/-- **Normal order comes to an end** at the normal form, if there is one. -/
theorem ends_normalOrder {v : Nameless} (h : Nameless.Reduces (t.nameless []) v)
    (hv : v.Normal) : ∃ u, normalOrder.Ends t u ∧ u.nameless [] = v := by
  obtain ⟨n, u, hu, rfl⟩ :=
    exists_iterate_of_steps (Nameless.steps_normalOrder_of_reduces h hv)
  exact ⟨u, ⟨⟨n, hu⟩, step_normalOrder_eq_none hv⟩, rfl⟩

/-- **Normal order finds a normal form whenever there is one.** If the nameless
form of a term can be brought, by contractions of any redexes in any order,
to a term `v` without redex, then the steps of normal order come to an end,
at a term with the nameless form `v`. So no evaluation in normal order takes
the term to diverge, and with enough steps it ends with the normal form `v`,
unless a limit of nesting stops it. -/
theorem normalOrder_finds_normal {v : Nameless} (h : Nameless.Reduces (t.nameless []) v)
    (hv : v.Normal) :
    (∃ n u, normalOrder.iterate n t = some u ∧ normalOrder.step u = none ∧ u.nameless [] = v) ∧
    (∀ (limits : Limits) (budget : Option Int),
      (normalOrder.evaluate limits budget t).kind ≠ .diverges) ∧
    ∃ enough : Nat, ∀ (limits : Limits) (budget : Option Int),
      enough ≤ Evaluation.allowance limits budget →
        (normalOrder.evaluate limits budget t).kind = .normalForm ∧
            (normalOrder.evaluate limits budget t).term.nameless [] = v ∨
          limits.depth ≠ none ∧ (normalOrder.evaluate limits budget t).kind = .tooDeep := by
  obtain ⟨u, hends, rfl⟩ := ends_normalOrder h hv
  obtain ⟨n, hn⟩ := hends.reached
  obtain ⟨hcalm, enough, henough⟩ := hends.evaluate
  refine ⟨⟨n, u, hn, hends.stuck, rfl⟩, hcalm, enough, ?_⟩
  intro limits budget hle
  refine (henough limits budget hle).imp_left ?_
  rintro ⟨hkind, hterm⟩
  exact ⟨hkind, by rw [hterm]⟩

/-- `(λx. λy. y) ((λx. x x) (λx. x x))` has a normal form, though contractions of the
argument go on forever. -/
theorem normalOrder_finds_normal_forgotten :
    let self : Term := .lam "x" none (.app (.var "x") (.var "x"))
    let t : Term := .app (.lam "x" none (.lam "y" none (.var "y"))) (.app self self)
    let v : Nameless := .lam (.index 0)
    Nameless.Reduces (t.nameless []) v ∧ v.Normal ∧
      (∃ n u, normalOrder.iterate n t = some u ∧ normalOrder.step u = none ∧
        u.nameless [] = v) ∧
      ∀ (limits : Limits) (budget : Option Int),
        (normalOrder.evaluate limits budget t).kind ≠ .diverges := by
  intro self t v
  have h : Nameless.Reduces (t.nameless []) v := .single (.contract _ _)
  have hv : v.Normal := by decide
  obtain ⟨hends, hcalm, -⟩ := normalOrder_finds_normal (t := t) h hv
  exact ⟨h, hv, hends, hcalm⟩

/-! ## Call by name -/

/-- **Call by name comes to an abstraction** if some reduction does. -/
theorem ends_callByName {x : String} {a : Option Ty} {body : Term}
    (h : t.Reduces (.lam x a body)) :
    ∃ y b body', callByName.Ends t (.lam y b body') := by
  obtain ⟨form, hsteps⟩ := Nameless.exists_callByName_lam (h.nameless [])
  obtain ⟨n, u, hu, hform⟩ := exists_iterate_of_steps hsteps
  -- only an abstraction has an abstraction as its form
  cases u with
  | lam y b body' => exact ⟨y, b, body', ⟨n, hu⟩, rfl⟩
  | var y => exact (Reduction.nameless_ne_lam (fun _ _ _ e => by cases e) [] _ hform).elim
  | app fn arg => cases hform

/-- By value, a closed term comes to an end at an abstraction. -/
theorem Ends.exists_lam (h : callByValue.Ends t u) (ht : t.isClosed = true) :
    ∃ x a body, u = .lam x a body := by
  obtain ⟨n, hn⟩ := h.reached
  exact Reduction.exists_lam_of_callByValue ((reduces_of_iterate hn).isClosed ht) h.stuck

/-- **Call by name ends wherever call by value does.** If an evaluation of a
closed term by value reports a normal form, then with enough steps its
evaluation by name does, unless a limit of nesting stops it; and the two
results are abstractions that have a common reduct up to bound names. -/
theorem callByName_ends_of_callByValue {limits : Limits} {budget : Option Int}
    (ht : t.isClosed = true) (h : (callByValue.evaluate limits budget t).kind = .normalForm) :
    (∃ x a body, (callByValue.evaluate limits budget t).term = .lam x a body) ∧
    ∃ enough : Nat, ∀ (limits' : Limits) (budget' : Option Int),
      enough ≤ Evaluation.allowance limits' budget' →
        (callByName.evaluate limits' budget' t).kind = .normalForm ∧
            (∃ y b body', (callByName.evaluate limits' budget' t).term = .lam y b body') ∧
            (∃ v v', (callByValue.evaluate limits budget t).term.Reduces v ∧
              (callByName.evaluate limits' budget' t).term.Reduces v' ∧ v.AlphaEq v') ∨
          limits'.depth ≠ none ∧ (callByName.evaluate limits' budget' t).kind = .tooDeep := by
  have hvalue := ends_of_kind h
  obtain ⟨n, hn⟩ := hvalue.reached
  have hreduces := reduces_of_iterate hn
  obtain ⟨x, a, body, hlam⟩ := hvalue.exists_lam ht
  rw [hlam] at hreduces ⊢
  obtain ⟨y, b, body', hends⟩ := ends_callByName hreduces
  obtain ⟨m, hm⟩ := hends.reached
  obtain ⟨-, enough, henough⟩ := hends.evaluate
  refine ⟨⟨x, a, body, rfl⟩, enough, ?_⟩
  intro limits' budget' hle
  refine (henough limits' budget' hle).imp_left ?_
  rintro ⟨hkind, hterm⟩
  rw [hterm]
  exact ⟨hkind, ⟨y, b, body', rfl⟩, Term.join_of_reduces hreduces (reduces_of_iterate hm)⟩

/-- `(λx. λy. x x) ((λz. z) (λw. w))`: by value the argument is evaluated once, by name
it is left as it is, twice. -/
theorem callByName_ends_of_callByValue_copied :
    let arg : Term := .app (.lam "z" none (.var "z")) (.lam "w" none (.var "w"))
    let t : Term :=
      .app (.lam "x" none (.lam "y" none (.app (.var "x") (.var "x")))) arg
    let o := callByValue.evaluate .standard (some 5) t
    t.isClosed = true ∧ o.kind = .normalForm ∧
      ∃ enough : Nat, ∀ fuel, enough ≤ fuel →
        let o' := callByName.evaluate ⟨none, fuel⟩ none t
        o'.kind = .normalForm ∧ ∃ v v', o.term.Reduces v ∧ o'.term.Reduces v' ∧ v.AlphaEq v' := by
  intro arg t o
  have ht : t.isClosed = true := by decide +kernel
  have ho : o.kind = .normalForm := by decide +kernel
  obtain ⟨-, enough, henough⟩ := callByName_ends_of_callByValue ht ho
  refine ⟨ht, ho, enough, ?_⟩
  intro fuel hfuel o'
  rcases henough ⟨none, fuel⟩ none hfuel with ⟨hkind, -, hjoin⟩ | ⟨hdepth, -⟩
  · exact ⟨hkind, hjoin⟩
  · exact absurd rfl hdepth

end Strategy

end LambdaShell
