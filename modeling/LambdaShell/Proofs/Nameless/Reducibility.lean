import LambdaShell.Proofs.Nameless.Reduction

/-!
# Nameless terms — reducibility

No measure of a term goes down with every contraction, so that typed terms
are normalizing is not shown for terms of a type at once but for more: a
term of arrow type has to give a reducible term for every reducible
argument, and a term of base type has to be terminating (`Reducible`). What
an induction over types has to know of these sets of terms is collected in
`Candidate`, and that all of them are candidates is `candidate_reducible`.

An argument is needed to get from a function to a term that terminates. The
free names serve as such: they belong to every candidate, at every type, so
that reducibility has not to be stated for contexts that grow.
-/

namespace LambdaShell

namespace Nameless

variable {t u : Nameless}

/-- **All sequences of contractions from the term are finite.** -/
def Terminating (t : Nameless) : Prop := Acc (fun u t => Beta t u) t

theorem Terminating.step (h : t.Terminating) (hu : Beta t u) : u.Terminating := h.inv hu

/-- A term terminates if its image does, under a map that keeps contractions. -/
theorem terminating_of_map (f : Nameless → Nameless) (hf : ∀ {a b}, Beta a b → Beta (f a) (f b))
    (h : (f t).Terminating) : t.Terminating :=
  Subrelation.accessible (fun hb => hf hb) (InvImage.accessible f h)

/-- **A set of terms that an induction over types can go through.** -/
structure Candidate (P : Nameless → Prop) : Prop where
  /-- Its terms terminate. -/
  terminating {t : Nameless} : P t → t.Terminating
  /-- It is closed under contraction. -/
  step {t u : Nameless} : P t → Beta t u → P u
  /-- A term that is no abstraction belongs to it if all its contractions do. -/
  expand {t : Nameless} : t.isLam = false → (∀ u, Beta t u → P u) → P t

/-- The terms that take terms of `P` to terms of `Q`. -/
def Maps (P Q : Nameless → Prop) (t : Nameless) : Prop := ∀ u, P u → Q (app t u)

namespace Candidate

variable {P Q : Nameless → Prop}

/-- A free name belongs to every candidate. -/
theorem free (hP : Candidate P) (x : String) : P (.free x) := by
  refine hP.expand rfl ?_
  intro u hu
  cases hu

/-- A term that is no abstraction and all of whose contractions take `P` to `Q`
does so itself. -/
theorem maps_expand (hP : Candidate P) (hQ : Candidate Q) (ht : t.isLam = false)
    (h : ∀ t', Beta t t' → Maps P Q t') : Maps P Q t := by
  intro u hu
  -- the application contracts in `t` or in the argument, which terminates
  induction hP.terminating hu with
  | intro u _ ih =>
    refine hQ.expand rfl ?_
    intro w hw
    cases hw with
    | contract body => cases ht
    | function _ hfn => exact h _ hfn u hu
    | argument _ harg => exact ih _ harg (hP.step hu harg)

/-- **The maps between candidates are a candidate.** -/
theorem maps (hP : Candidate P) (hQ : Candidate Q) : Candidate (Maps P Q) where
  terminating := by
    intro t ht
    -- an argument is at hand at every type: a free name
    have happ : (app t (.free "")).Terminating := hQ.terminating (ht _ (hP.free ""))
    exact terminating_of_map (fun fn => app fn (.free "")) (fun hb => .function _ hb) happ
  step := by
    intro t t' ht hb u hu
    exact hQ.step (ht u hu) (.function u hb)
  expand := hP.maps_expand hQ

/-- **Abstraction.** If the body is in `Q` for every argument in `P`, the
abstraction takes `P` to `Q`. -/
theorem maps_lam (hP : Candidate P) (hQ : Candidate Q) {body : Nameless}
    (h : ∀ u, P u → Q (body.instantiate u)) : Maps P Q (lam body) := by
  have hbody : body.Terminating :=
    terminating_of_map (·.instantiate (.free "")) (fun hb => hb.subst _)
      (hQ.terminating (h _ (hP.free "")))
  induction hbody with
  | intro body _ ihbody =>
    intro u hu
    induction hP.terminating hu with
    | intro u _ ihu =>
      refine hQ.expand rfl ?_
      intro w hw
      cases hw with
      | contract => exact h u hu
      | argument _ harg => exact ihu _ harg (hP.step hu harg)
      | function _ hfn =>
        cases hfn with
        | body hb =>
          -- instantiation keeps the contraction of the body
          refine ihbody _ hb ?_ u hu
          intro v hv
          exact hQ.step (h v hv) (hb.subst _)

end Candidate

/-! ## Reducible terms -/

/-- **The terms reducible at a type.** -/
def Reducible : SimpleType → Nameless → Prop
  | .base _ => Terminating
  | .arrow σ τ => Maps (Reducible σ) (Reducible τ)

theorem candidate_terminating : Candidate Terminating where
  terminating := id
  step := Terminating.step
  expand := fun _ h => .intro _ h

/-- **The reducible terms of every type are a candidate.** -/
theorem candidate_reducible (τ : SimpleType) : Candidate (Reducible τ) := by
  induction τ with
  | base name => exact candidate_terminating
  | arrow σ τ ihσ ihτ => exact ihσ.maps ihτ

end Nameless

end LambdaShell
