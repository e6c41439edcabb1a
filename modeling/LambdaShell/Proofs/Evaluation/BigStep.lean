import LambdaShell.Proofs.Evaluation.Ending
import LambdaShell.Proofs.Reduction.Closed

/-!
# Evaluation — in one big step

The value of a term can be said without steps: an abstraction is its own
value, and the value of an application is that of the body of its function,
with the argument put for the name. `BigStep` has these two rules, the
second one in two forms, for an argument that is evaluated before it is
passed and for one that is not. The weak strategies, which make one small
step after the other inside the function and the argument, come to the same
values (`ends_iff_bigStep`).

From a big step to small ones, the steps of the parts are made in the whole
term and put one after the other (`BigStep.ends`). The way back goes against
the order of the steps: a value of the reduct is one of the term
(`BigStep.of_step`), and at the end of the steps is an abstraction, as long
as the term is closed. An open term may come to an end elsewhere, at a
variable for instance, and has no value then.
-/

namespace LambdaShell

/-- **How a function is given its argument.** -/
inductive Passing where
  /-- As it is. -/
  | byName
  /-- After it is evaluated. -/
  | byValue
deriving DecidableEq, Repr

/-- The strategy that passes arguments in this way. -/
def Passing.strategy : Passing → Strategy
  | byName => .callByName
  | byValue => .callByValue

/-- **Big-step evaluation** of a term to its value. -/
inductive BigStep : Passing → Term → Term → Prop where
  /-- An abstraction is its own value. -/
  | lam (p : Passing) (x : String) (a : Option Ty) (body : Term) :
      BigStep p (.lam x a body) (.lam x a body)
  /-- The argument is put for the name as it is. -/
  | byName {fn arg body v : Term} {x : String} {a : Option Ty} :
      BigStep .byName fn (.lam x a body) → BigStep .byName (body.subst x arg) v →
        BigStep .byName (.app fn arg) v
  /-- The value of the argument is put for the name. -/
  | byValue {fn arg body w v : Term} {x : String} {a : Option Ty} :
      BigStep .byValue fn (.lam x a body) → BigStep .byValue arg w →
        BigStep .byValue (body.subst x w) v → BigStep .byValue (.app fn arg) v

namespace BigStep

variable {p : Passing} {t u v : Term}

/-! ## From a big step to small ones -/

/-- The function of an application moves first. -/
theorem step_function (p : Passing) {fn fn' : Term} (h : p.strategy.step fn = some fn')
    (arg : Term) : p.strategy.step (.app fn arg) = some (.app fn' arg) := by
  -- an abstraction does not move, so the function is none
  have hlam : ∀ x a body, fn = .lam x a body → False := by
    rintro x a body rfl
    cases p <;> cases h
  cases p with
  | byName =>
    show Reduction.callByName _ = _
    rw [Reduction.callByName.eq_2 _ _ hlam, show Reduction.callByName fn = some fn' from h]
    rfl
  | byValue =>
    show Reduction.callByValue _ = _
    rw [Reduction.callByValue.eq_2 _ _ hlam, show Reduction.callByValue fn = some fn' from h]
    rfl

/-- By value, the argument of an abstraction moves next. -/
theorem step_argument {arg arg' : Term} (h : Passing.byValue.strategy.step arg = some arg')
    (x : String) (a : Option Ty) (body : Term) :
    Passing.byValue.strategy.step (.app (.lam x a body) arg) =
      some (.app (.lam x a body) arg') := by
  show Reduction.callByValue _ = _
  rw [Reduction.callByValue, show Reduction.callByValue arg = some arg' from h]

/-- An argument that does not move is passed. -/
theorem step_pass {arg : Term} (h : Passing.byValue.strategy.step arg = none)
    (x : String) (a : Option Ty) (body : Term) :
    Passing.byValue.strategy.step (.app (.lam x a body) arg) = some (body.subst x arg) := by
  show Reduction.callByValue _ = _
  rw [Reduction.callByValue, show Reduction.callByValue arg = none from h]

/-- **The small steps of a big one**: the strategy comes to an end at the value. -/
theorem ends (h : BigStep p t v) : p.strategy.Ends t v := by
  induction h with
  | lam p x a body => cases p <;> exact .refl rfl
  | @byName fn arg body v x a _ _ ihf ihb =>
    obtain ⟨n, hn⟩ := ihf.reached
    have hfn := Strategy.iterate_lift (f := (.app · arg)) (fun h => step_function .byName h arg) hn
    exact .of_iterate hfn (.head rfl ihb)
  | @byValue fn arg body w v x a _ _ _ ihf iha ihb =>
    obtain ⟨n, hn⟩ := ihf.reached
    obtain ⟨m, hm⟩ := iha.reached
    have hfn := Strategy.iterate_lift (f := (.app · arg)) (fun h => step_function .byValue h arg) hn
    have harg := Strategy.iterate_lift (f := .app (.lam x a body))
      (fun h => step_argument h x a body) hm
    -- the value of the argument does not move, so it is passed
    exact .of_iterate hfn (.of_iterate harg (.head (step_pass iha.stuck x a body) ihb))

/-! ## From small steps to a big one -/

theorem of_callByName (hstep : Reduction.callByName t = some u) (h : BigStep .byName u v) :
    BigStep .byName t v := by
  fun_induction Reduction.callByName t generalizing u v with
  | case1 x a body arg =>
    cases hstep
    exact .byName (.lam _ x a body) h
  | case2 fn arg _ ih =>
    obtain ⟨fn', hfn, rfl⟩ := Option.map_eq_some_iff.1 hstep
    cases h with
    | byName hf hb => exact .byName (ih hfn hf) hb
  | case3 x a body => cases hstep
  | case4 x => cases hstep

theorem of_callByValue (ht : t.isClosed = true) (hstep : Reduction.callByValue t = some u)
    (h : BigStep .byValue u v) : BigStep .byValue t v := by
  fun_induction Reduction.callByValue t generalizing u v with
  | case1 x a body arg arg' harg ih =>
    cases hstep
    cases h with
    | byValue hf ha hb => exact .byValue hf (ih (Term.isClosed_app.1 ht).2 harg ha) hb
  | case2 x a body arg harg _ =>
    -- an argument that is passed is an abstraction, hence its own value
    cases hstep
    obtain ⟨y, b, body', rfl⟩ :=
      Reduction.exists_lam_of_callByValue (Term.isClosed_app.1 ht).2 harg
    exact .byValue (.lam _ x a body) (.lam _ y b body') h
  | case3 fn arg _ ih =>
    obtain ⟨fn', hfn, rfl⟩ := Option.map_eq_some_iff.1 hstep
    cases h with
    | byValue hf ha hb => exact .byValue (ih (Term.isClosed_app.1 ht).1 hfn hf) ha hb
  | case4 x a body => cases hstep
  | case5 x => cases hstep

/-- **A value of the reduct is a value of the term**, if the term is closed. -/
theorem of_step (ht : t.isClosed = true) (hstep : p.strategy.step t = some u)
    (h : BigStep p u v) : BigStep p t v := by
  cases p with
  | byName => exact of_callByName hstep h
  | byValue => exact of_callByValue ht hstep h

/-- A closed term that does not move is its own value. -/
theorem of_stuck (ht : t.isClosed = true) (h : p.strategy.step t = none) : BigStep p t t := by
  have hweak : p.strategy ≠ .normalOrder := by cases p <;> decide
  obtain ⟨x, a, body, rfl⟩ := Strategy.exists_lam_of_stuck hweak ht h
  exact .lam p x a body

/-- **The end of the steps of a closed term is its value.** -/
theorem of_ends (ht : t.isClosed = true) (h : p.strategy.Ends t v) : BigStep p t v := by
  obtain ⟨n, hn⟩ := h.reached
  induction n generalizing t with
  | zero =>
    cases hn
    exact of_stuck ht h.stuck
  | succ n ih =>
    obtain ⟨u, hstep, hu⟩ := Option.bind_eq_some_iff.1 hn
    have hclosed : u.isClosed = true := (Strategy.contracts_of_step hstep).isClosed ht
    exact of_step ht hstep (ih hclosed ⟨⟨n, hu⟩, h.stuck⟩ hu)

end BigStep

/-- **The weak strategies compute the values of big-step evaluation.** On a closed
term, the steps of the strategy come to an end at `v` exactly when `v` is
the value of the term. So an evaluation that reports a normal form reports
the value; and a term that has a value is evaluated to it, given enough
steps and unless a limit of nesting is in the way, and is never taken to
diverge. -/
theorem ends_iff_bigStep (p : Passing) {t : Term} (ht : t.isClosed = true) (v : Term) :
    (p.strategy.Ends t v ↔ BigStep p t v) ∧
    (∀ (limits : Limits) (budget : Option Int),
      (p.strategy.evaluate limits budget t).kind = .normalForm →
        (p.strategy.evaluate limits budget t).term = v → BigStep p t v) ∧
    (BigStep p t v →
      (∀ (limits : Limits) (budget : Option Int),
        (p.strategy.evaluate limits budget t).kind ≠ .diverges) ∧
      ∃ enough : Nat, ∀ (limits : Limits) (budget : Option Int),
        enough ≤ Evaluation.allowance limits budget →
          (p.strategy.evaluate limits budget t).kind = .normalForm ∧
              (p.strategy.evaluate limits budget t).term = v ∨
            limits.depth ≠ none ∧ (p.strategy.evaluate limits budget t).kind = .tooDeep) := by
  refine ⟨⟨BigStep.of_ends ht, BigStep.ends⟩, ?_, fun h => h.ends.evaluate⟩
  intro limits budget hkind hterm
  rw [← hterm]
  exact BigStep.of_ends ht (Strategy.ends_of_kind hkind)

/-- By value, `(λx. x x) ((λy. y) (λz. z))` has its argument evaluated before it is
copied; by name, `(λx. λy. x) (λz. z)` forgets an argument that has no value. -/
theorem ends_iff_bigStep_copied :
    let id (x : String) : Term := .lam x none (.var x)
    let self (x : String) : Term := .lam x none (.app (.var x) (.var x))
    let copied : Term := .app (self "x") (.app (id "y") (id "z"))
    let forgotten : Term :=
      .app (.app (.lam "x" none (.lam "y" none (.var "x"))) (id "z")) (.app (self "x") (self "x"))
    (copied.isClosed = true ∧ BigStep .byValue copied (id "z")) ∧
      forgotten.isClosed = true ∧ BigStep .byName forgotten (id "z") ∧
      ∀ (limits : Limits) (budget : Option Int),
        (Strategy.callByName.evaluate limits budget forgotten).kind ≠ .diverges := by
  intro id self copied forgotten
  have hcopied : copied.isClosed = true := by decide +kernel
  have hforgotten : forgotten.isClosed = true := by decide +kernel
  have hbyValue : BigStep .byValue copied (id "z") :=
    (ends_iff_bigStep .byValue hcopied (id "z")).1.1 ⟨⟨3, by decide +kernel⟩, rfl⟩
  have hbyName : BigStep .byName forgotten (id "z") :=
    (ends_iff_bigStep .byName hforgotten (id "z")).1.1 ⟨⟨2, by decide +kernel⟩, rfl⟩
  exact ⟨⟨hcopied, hbyValue⟩, hforgotten, hbyName,
    ((ends_iff_bigStep .byName hforgotten (id "z")).2.2 hbyName).1⟩

end LambdaShell
