import LambdaShell.Proofs.Evaluation.Iteration
import LambdaShell.Proofs.Nameless.Reduction

/-!
# Evaluation — normal order begins with call by name

Call by name and normal order are two functions with different ideas of
when to stop. Where call by name moves a term, normal order makes the very
same step, not only the same up to bound names. Where call by name does not
move it, normal order may go on below a binder or in an argument.

So a run by name is the beginning of a run in normal order, and it is the
whole of it unless it ends at a term that does not move (`run_callByName`).
The other endings do not depend on who asks: a step that leads back, a step
too many and a term nested too deeply are the same for both.
-/

namespace LambdaShell

namespace Reduction

/-- **Where call by name moves, normal order makes the same step.** -/
theorem normalOrder_of_callByName {t u : Term} (h : callByName t = some u) :
    normalOrder t = some u := by
  fun_induction callByName t generalizing u with
  | case1 x a body arg =>
    rw [normalOrder]
    exact h
  | case2 fn arg hfn ih =>
    obtain ⟨fn', hstep, rfl⟩ := Option.map_eq_some_iff.1 h
    rw [normalOrder.eq_2 _ _ hfn, ih hstep]
  | case3 x a body => cases h
  | case4 x => cases h

end Reduction

/-- Being cut off does not count as a normal form. -/
theorem Evaluation.Kind.ofEnding_eq_normalForm_iff {budget : Option Int} {ending : Ending} :
    Kind.ofEnding (.cut budget) ending = .normalForm ↔ ending = .normalForm := by
  cases budget <;> cases ending <;> simp [Kind.ofEnding, Kind.cut]

namespace Strategy

open Evaluation

variable {s : Strategy} {depth : Option Nat} {steps : Nat} {t u : Term}

/-! ## Moves -/

/-- **A move by name** is a halt or the move of normal order. -/
theorem move_callByName (depth : Option Nat) (t : Term) :
    callByName.move depth t = .halt ∨ normalOrder.move depth t = callByName.move depth t := by
  by_cases hfits : t.fits depth = true
  case neg =>
    refine .inr ?_
    rw [move, move, if_neg hfits, if_neg hfits]
  cases hstep : callByName.step t with
  | none =>
    refine .inl ?_
    rw [move, if_pos hfits, hstep]
  | some u =>
    have hsame : normalOrder.step t = some u := Reduction.normalOrder_of_callByName hstep
    refine .inr ?_
    rw [move, move, hstep, hsame]

/-! ## Runs -/

/-- A run stops at a term that has no next term, and at any term with no steps left. -/
theorem run_of_stop (h : ∀ u, s.move depth t = .next u → steps = 0) :
    s.run depth steps t = ⟨[], (s.move depth t).ending⟩ := by
  rw [run]
  cases hm : s.move depth t with
  | halt => rfl
  | loop => rfl
  | overflow => rfl
  | next u =>
    rw [h u hm]
    rfl

/-- With steps left, a run goes on from the next term. -/
theorem run_of_next (h : s.move depth t = .next u) (steps : Nat) :
    s.run depth (steps + 1) t =
      ⟨u :: (s.run depth steps u).reducts, (s.run depth steps u).ending⟩ := by
  rw [run, h]

/-- **A run by name is the beginning of the run in normal order**, and the whole of it
unless it ends at a term that call by name does not move. -/
theorem run_callByName (depth : Option Nat) (steps : Nat) (t : Term) :
    (callByName.run depth steps t).reducts <+: (normalOrder.run depth steps t).reducts ∧
      ((callByName.run depth steps t).ending ≠ .normalForm →
        normalOrder.run depth steps t = callByName.run depth steps t) := by
  refine run_induct callByName depth
    (motive := fun steps t r => r.reducts <+: (normalOrder.run depth steps t).reducts ∧
      (r.ending ≠ .normalForm → normalOrder.run depth steps t = r)) ?_ ?_ steps t
  · intro steps t hlast
    refine And.intro List.nil_prefix ?_
    intro hending
    rcases move_callByName depth t with hhalt | hsame
    · rw [hhalt] at hending
      exact absurd rfl hending
    · rw [← hsame] at hlast ⊢
      exact run_of_stop hlast
  · intro steps t u r hm ih
    obtain ⟨hbeginning, hwhole⟩ := ih
    have hsame : normalOrder.move depth t = .next u := by
      rcases move_callByName depth t with hhalt | hsame
      · rw [hm] at hhalt
        cases hhalt
      · rw [hsame, hm]
    rw [run_of_next hsame]
    refine ⟨List.cons_prefix_cons.2 ⟨rfl, hbeginning⟩, ?_⟩
    intro hending
    rw [hwhole hending]

/-! ## Evaluation -/

/-- **Call by name is an initial segment of normal order.** A step by name is the step of
normal order. So within any limits and with any budget, the terms that an
evaluation by name goes through are the first of those that an evaluation
in normal order goes through. If the evaluation by name ends otherwise than
with a normal form, because it diverges or because its budget is spent, then
the two evaluations are one and the same: the kind of outcome and all the
terms, the last one included. -/
theorem callByName_begins_normalOrder (t : Term) :
    (∀ u, Reduction.callByName t = some u → Reduction.normalOrder t = some u) ∧
      ∀ (limits : Limits) (budget : Option Int),
        (callByName.evaluate limits budget t).trace <+:
            (normalOrder.evaluate limits budget t).trace ∧
          ((callByName.evaluate limits budget t).kind ≠ .normalForm →
            normalOrder.evaluate limits budget t = callByName.evaluate limits budget t) := by
  refine ⟨fun u => Reduction.normalOrder_of_callByName, ?_⟩
  intro limits budget
  obtain ⟨hbeginning, hwhole⟩ := run_callByName limits.depth (allowance limits budget) t
  simp only [evaluate_eq, ne_eq, Kind.ofEnding_eq_normalForm_iff]
  refine ⟨List.cons_prefix_cons.2 ⟨rfl, hbeginning⟩, ?_⟩
  intro hending
  rw [hwhole hending]

/-- By name, `(λx. λy. (λz. z) x) a` comes to an end below a binder, where normal order
goes on. The budget of two steps is too small for `(λx. x x x) (λx. x x x)`,
in either way. -/
theorem callByName_begins_normalOrder_below :
    let id : Term := .lam "z" none (.var "z")
    let t : Term :=
      .app (.lam "x" none (.lam "y" none (.app id (.var "x")))) (.var "a")
    let u : Term := .lam "y" none (.app id (.var "a"))
    let v : Term := .lam "y" none (.var "a")
    let thrice : Term := .lam "x" none (.app (.app (.var "x") (.var "x")) (.var "x"))
    let growing : Term := .app thrice thrice
    (Reduction.callByName t = some u ∧ Reduction.normalOrder t = some u) ∧
      ((callByName.evaluate .standard (some 5) t).trace = [t, u] ∧
        (normalOrder.evaluate .standard (some 5) t).trace = [t, u, v] ∧
        [t, u] <+: [t, u, v]) ∧
      (callByName.evaluate .standard (some 2) growing).kind = .stepLimit ∧
      normalOrder.evaluate .standard (some 2) growing =
        callByName.evaluate .standard (some 2) growing := by
  intro id t u v thrice growing
  have hstep : Reduction.callByName t = some u := by decide +kernel
  have hbyName : (callByName.evaluate .standard (some 5) t).trace = [t, u] := by decide +kernel
  have hnormal : (normalOrder.evaluate .standard (some 5) t).trace = [t, u, v] := by
    decide +kernel
  have hkind : (callByName.evaluate .standard (some 2) growing).kind = .stepLimit := by
    decide +kernel
  obtain ⟨hsteps, hevaluate⟩ := callByName_begins_normalOrder t
  have hbeginning := (hevaluate .standard (some 5)).1
  rw [hbyName, hnormal] at hbeginning
  refine ⟨⟨hstep, hsteps u hstep⟩, ⟨hbyName, hnormal, hbeginning⟩, hkind, ?_⟩
  refine ((callByName_begins_normalOrder growing).2 .standard (some 2)).2 ?_
  rw [hkind]
  decide

end Strategy

end LambdaShell
