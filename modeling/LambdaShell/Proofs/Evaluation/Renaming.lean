import LambdaShell.Proofs.Evaluation.Iteration
import LambdaShell.Proofs.Nameless.FreeNames
import LambdaShell.Proofs.Nameless.Reduction
import Mathlib.Data.List.Forall2

/-!
# Evaluation — bound names do not matter

Two terms that are equal up to the names of bound variables are evaluated
in lockstep: a step of one is matched by a step of the other to terms that
are again equal up to bound names, and both runs end together and for the
same reason. The names that substitution invents on the way differ; but
everything a run looks at, the redex to contract, the comparison with the
reduct and the levels of nesting, can be read off the nameless form.
-/

namespace LambdaShell

namespace Term

/-! ## Terms equal up to bound names -/

@[refl] theorem AlphaEq.refl (t : Term) : t.AlphaEq t := rfl

@[symm] theorem AlphaEq.symm {t u : Term} (h : t.AlphaEq u) : u.AlphaEq t := Eq.symm h

@[trans] theorem AlphaEq.trans {t u v : Term} (h : t.AlphaEq u) (h' : u.AlphaEq v) :
    t.AlphaEq v := Eq.trans h h'

theorem AlphaEq.congr {t t' u u' : Term} (ht : t.AlphaEq t') (hu : u.AlphaEq u') :
    t.AlphaEq u ↔ t'.AlphaEq u' :=
  ⟨fun h => ht.symm.trans (h.trans hu), fun h => ht.trans (h.trans hu.symm)⟩

/-- The nameless form determines how deeply a term is nested. -/
theorem depth_eq_of_nameless_eq {t t' : Term} {scope scope' : List String}
    (h : t.nameless scope = t'.nameless scope') : t.depth = t'.depth := by
  rw [← depth_nameless scope t, h, depth_nameless]

theorem AlphaEq.fits_eq {t t' : Term} (h : t.AlphaEq t') (limit : Option Nat) :
    t.fits limit = t'.fits limit := by
  cases limit with
  | none => rfl
  | some n => rw [fits, fits, depth_eq_of_nameless_eq h]

end Term

/-- Moves that agree up to the bound names of the reduct. -/
inductive Move.AlphaEq : Move → Move → Prop where
  | halt : AlphaEq .halt .halt
  | loop : AlphaEq .loop .loop
  | overflow : AlphaEq .overflow .overflow
  | next {u u' : Term} : u.AlphaEq u' → AlphaEq (.next u) (.next u')

namespace Strategy

variable {t t' : Term}

/-! ## Steps, moves and runs -/

/-- **A step is matched by a step**: both terms move, to terms equal up to
bound names, or neither does. -/
theorem step_alphaEq (s : Strategy) (h : t.AlphaEq t') :
    Option.Rel Term.AlphaEq (s.step t) (s.step t') := by
  -- on nameless forms both steps are the same step
  have hmap : (s.step t).map (·.nameless []) = (s.step t').map (·.nameless []) := by
    rw [map_nameless_step, map_nameless_step, show t.nameless [] = t'.nameless [] from h]
  cases hs : s.step t <;> cases hs' : s.step t' <;> rw [hs, hs'] at hmap
  · exact .none
  · cases hmap
  · cases hmap
  · exact .some (Option.some.inj hmap)

/-- **A move is matched by a move** of the same sort: the levels of nesting and
the comparison of a term with its reduct come out alike. -/
theorem move_alphaEq (s : Strategy) (depth : Option Nat) (h : t.AlphaEq t') :
    Move.AlphaEq (s.move depth t) (s.move depth t') := by
  have hstep := s.step_alphaEq h
  unfold move
  rw [h.fits_eq depth]
  by_cases hfits : t'.fits depth
  case neg =>
    rw [if_neg hfits, if_neg hfits]
    exact .overflow
  rw [if_pos hfits, if_pos hfits]
  cases hs : s.step t <;> cases hs' : s.step t' <;> rw [hs, hs'] at hstep
  case none.none => exact .halt
  case none.some => cases hstep
  case some.none => cases hstep
  case some.some u u' =>
    cases hstep with
    | some hu =>
      -- neither test can tell the two steps apart
      simp only [hu.fits_eq depth, h.congr hu]
      split
      · split
        · exact .loop
        · exact .next hu
      · exact .overflow

/-- **The runs go in lockstep**: they end alike, and their reducts agree in
order up to bound names. -/
theorem run_alphaEq (s : Strategy) (depth : Option Nat) (steps : Nat) (h : t.AlphaEq t') :
    (s.run depth steps t).ending = (s.run depth steps t').ending ∧
      List.Forall₂ Term.AlphaEq (s.run depth steps t).reducts (s.run depth steps t').reducts := by
  induction steps generalizing t t' with
  | zero =>
    have hmove := s.move_alphaEq depth h
    unfold run
    generalize s.move depth t = m, s.move depth t' = m' at hmove
    cases hmove <;> exact ⟨rfl, .nil⟩
  | succ steps ih =>
    have hmove := s.move_alphaEq depth h
    unfold run
    generalize s.move depth t = m, s.move depth t' = m' at hmove
    cases hmove with
    | halt => exact ⟨rfl, .nil⟩
    | loop => exact ⟨rfl, .nil⟩
    | overflow => exact ⟨rfl, .nil⟩
    | next hu =>
      obtain ⟨hending, hreducts⟩ := ih hu
      exact ⟨hending, .cons hu hreducts⟩

/-- **Evaluation does not depend on the choice of bound names.** Terms equal
up to bound names make steps to such terms or do not move, both; and within
any limits and with any budget they are evaluated to the same kind of
outcome, in as many steps, through terms that agree in order up to bound
names. -/
theorem evaluate_alphaEq (s : Strategy) (h : t.AlphaEq t') :
    Option.Rel Term.AlphaEq (s.step t) (s.step t') ∧
      ∀ (limits : Limits) (budget : Option Int),
        (s.evaluate limits budget t).kind = (s.evaluate limits budget t').kind ∧
        (s.evaluate limits budget t).stepCount = (s.evaluate limits budget t').stepCount ∧
        List.Forall₂ Term.AlphaEq (s.evaluate limits budget t).trace
          (s.evaluate limits budget t').trace := by
  refine ⟨s.step_alphaEq h, ?_⟩
  intro limits budget
  obtain ⟨hending, hreducts⟩ :=
    s.run_alphaEq limits.depth (Evaluation.allowance limits budget) h
  rw [evaluate_eq, evaluate_eq, hending]
  exact ⟨rfl, hreducts.length_eq, .cons h hreducts⟩

/-- `(λx. λy. x) y` has to rename its inner binder and `(λx. λz. x) y` has not,
so that their reducts have different names. -/
theorem evaluate_alphaEq_captured :
    let t : Term := .app (.lam "x" none (.lam "y" none (.var "x"))) (.var "y")
    let t' : Term := .app (.lam "x" none (.lam "z" none (.var "x"))) (.var "y")
    t.AlphaEq t' ∧ normalOrder.step t ≠ normalOrder.step t' ∧
      Option.Rel Term.AlphaEq (normalOrder.step t) (normalOrder.step t') ∧
      (normalOrder.evaluate .standard none t).kind =
        (normalOrder.evaluate .standard none t').kind ∧
      List.Forall₂ Term.AlphaEq (normalOrder.evaluate .standard none t).trace
        (normalOrder.evaluate .standard none t').trace := by
  intro t t'
  have h : t.AlphaEq t' := by decide
  obtain ⟨hstep, hevaluate⟩ := evaluate_alphaEq normalOrder h
  obtain ⟨hkind, -, htrace⟩ := hevaluate .standard none
  exact ⟨h, by decide +kernel, hstep, hkind, htrace⟩

end Strategy

end LambdaShell
