import LambdaShell.Proofs.Reduction.Closed
import LambdaShell.Proofs.Reduction.Leftmost

/-!
# Reduction — where call by value contracts

Call by value passes an argument when the argument no longer moves. It does
not look whether it is a value then. In a closed term it need not look: an
argument that does not move is an abstraction, and so is a function that
does not move. What is contracted is therefore always an abstraction applied
to an abstraction, outside of all binders; and of these it is the leftmost
one (`callByValue_eq_some_iff`).

Redexes of this sort are never inside one another, since what is inside is
under a binder. So there is no outer and inner among them, only left and
right.
-/

namespace LambdaShell

namespace Term

variable {t fn arg : Term} {x : String} {a : Option Ty} {body : Term} {p : Position}

/-- **The redexes of values**: the positions, with nothing but applications above them,
at which an abstraction is applied to an abstraction. -/
def valueRedexes (t : Term) : Set Position :=
  {p | (∀ q, q <+: p → q ≠ p → t.labelAt q = some .app) ∧
    ∃ x a body y b body', t.subtermAt p = some (app (lam x a body) (lam y b body'))}

/-! ## The redexes of values in a term and in its parts -/

/-- What is above a position is the whole term, and what is above it in the part. -/
theorem forall_above_cons {P : Position → Prop} {i : Nat} :
    (∀ q, q <+: i :: p → q ≠ i :: p → P q) ↔ P [] ∧ ∀ q, q <+: p → q ≠ p → P (i :: q) := by
  constructor
  · intro h
    refine ⟨h [] List.nil_prefix (List.cons_ne_nil i p).symm, ?_⟩
    intro q hq hne
    exact h (i :: q) (List.cons_prefix_cons.2 ⟨rfl, hq⟩) fun heq => hne (List.cons.inj heq).2
  · rintro ⟨hroot, hpart⟩ q hq hne
    rcases List.prefix_cons_iff.1 hq with rfl | ⟨q', rfl, hq'⟩
    · exact hroot
    · exact hpart q' hq' fun heq => hne (congrArg (i :: ·) heq)

/-- There are none under a binder. -/
theorem valueRedexes_lam : (lam x a body).valueRedexes = ∅ := by
  refine Set.eq_empty_iff_forall_notMem.2 ?_
  rintro (_ | ⟨i, p⟩) ⟨habove, y, b, body', z, c, body'', h⟩
  · cases h
  · cases (forall_above_cons.1 habove).1

theorem mem_valueRedexes_app :
    p ∈ (app fn arg).valueRedexes ↔
      (p = [] ∧ (∃ x a body, fn = lam x a body) ∧ ∃ y b body', arg = lam y b body') ∨
        (∃ q, p = 0 :: q ∧ q ∈ fn.valueRedexes) ∨ ∃ q, p = 1 :: q ∧ q ∈ arg.valueRedexes := by
  constructor
  · rintro ⟨habove, x, a, body, y, b, body', h⟩
    match p with
    | [] =>
      cases h
      exact .inl ⟨rfl, ⟨x, a, body, rfl⟩, y, b, body', rfl⟩
    | 0 :: q =>
      exact .inr (.inl ⟨q, rfl, (forall_above_cons.1 habove).2, x, a, body, y, b, body', h⟩)
    | 1 :: q =>
      exact .inr (.inr ⟨q, rfl, (forall_above_cons.1 habove).2, x, a, body, y, b, body', h⟩)
    | (i + 2) :: q => cases h
  · rintro (⟨rfl, ⟨x, a, body, rfl⟩, y, b, body', rfl⟩ | ⟨q, rfl, habove, h⟩ | ⟨q, rfl, habove, h⟩)
    · refine ⟨fun q hq hne => absurd (List.prefix_nil.1 hq) hne, x, a, body, y, b, body', rfl⟩
    · exact ⟨forall_above_cons.2 ⟨rfl, habove⟩, h⟩
    · exact ⟨forall_above_cons.2 ⟨rfl, habove⟩, h⟩

/-! ## The leftmost one -/

theorem isLeast_valueRedexes_root {y : String} {b : Option Ty} {body' : Term} :
    IsLeast (app (lam x a body) (lam y b body')).valueRedexes [] := by
  refine ⟨mem_valueRedexes_app.2 (.inl ⟨rfl, ⟨x, a, body, rfl⟩, y, b, body', rfl⟩), ?_⟩
  exact fun p _ => not_lt.1 (List.not_lt_nil p)

/-- One in the function is to the left of all in the argument. -/
theorem isLeast_valueRedexes_function (hfn : ∀ x a body, fn = lam x a body → False)
    (h : IsLeast fn.valueRedexes p) : IsLeast (app fn arg).valueRedexes (0 :: p) := by
  refine ⟨mem_valueRedexes_app.2 (.inr (.inl ⟨p, rfl, h.1⟩)), fun q hq => ?_⟩
  rcases mem_valueRedexes_app.1 hq with ⟨-, ⟨x, a, body, rfl⟩, -⟩ | ⟨q, rfl, hfn⟩ | ⟨q, rfl, -⟩
  · exact (hfn x a body rfl).elim
  · exact List.cons_le_cons 0 (h.2 hfn)
  · exact le_of_lt (List.Lex.rel Nat.zero_lt_one)

/-- Applied to an argument that is none itself, an abstraction leaves it to the argument. -/
theorem isLeast_valueRedexes_argument (harg : ∀ y b body', arg = lam y b body' → False)
    (h : IsLeast arg.valueRedexes p) :
    IsLeast (app (lam x a body) arg).valueRedexes (1 :: p) := by
  refine ⟨mem_valueRedexes_app.2 (.inr (.inr ⟨p, rfl, h.1⟩)), fun q hq => ?_⟩
  rcases mem_valueRedexes_app.1 hq with ⟨-, -, y, b, body', rfl⟩ | ⟨q, rfl, hlam⟩ | ⟨q, rfl, harg⟩
  · exact (harg y b body' rfl).elim
  · rw [valueRedexes_lam] at hlam
    exact hlam.elim
  · exact List.cons_le_cons 1 (h.2 harg)

end Term

namespace Reduction

variable {t u : Term}

/-! ## What call by value contracts -/

/-- A closed term that moves has a redex of values, and the leftmost one is contracted. -/
theorem exists_contractedAt_of_callByValue (ht : t.isClosed = true)
    (h : callByValue t = some u) : ∃ p, IsLeast t.valueRedexes p ∧ ContractedAt t p u := by
  fun_induction callByValue t generalizing u with
  | case1 x a body arg arg' hstep ih =>
    cases h
    obtain ⟨p, hleast, ⟨hsub⟩⟩ := ih (Term.isClosed_app.1 ht).2 hstep
    have harg : ∀ y b body', arg = .lam y b body' → False := by
      rintro y b body' rfl
      cases hstep
    exact ⟨1 :: p, Term.isLeast_valueRedexes_argument harg hleast, .intro hsub⟩
  | case2 x a body arg hstep _ =>
    -- an argument that does not move is an abstraction
    cases h
    obtain ⟨y, b, body', rfl⟩ := exists_lam_of_callByValue (Term.isClosed_app.1 ht).2 hstep
    exact ⟨[], Term.isLeast_valueRedexes_root, .intro rfl⟩
  | case3 fn arg hfn ih =>
    obtain ⟨fn', hstep, rfl⟩ := Option.map_eq_some_iff.1 h
    obtain ⟨p, hleast, ⟨hsub⟩⟩ := ih (Term.isClosed_app.1 ht).1 hstep
    exact ⟨0 :: p, Term.isLeast_valueRedexes_function hfn hleast, .intro hsub⟩
  | case4 x a body => cases h
  | case5 x => cases h

theorem callByValue_eq_none_iff (ht : t.isClosed = true) :
    callByValue t = none ↔ ∃ x a body, t = .lam x a body := by
  constructor
  · exact exists_lam_of_callByValue ht
  · rintro ⟨x, a, body, rfl⟩
    rfl

theorem callByName_eq_none_iff (ht : t.isClosed = true) :
    callByName t = none ↔ ∃ x a body, t = .lam x a body := by
  constructor
  · exact exists_lam_of_callByName ht
  · rintro ⟨x, a, body, rfl⟩
    rfl

/-- **In a closed term, call by value contracts the leftmost redex of values.** -/
theorem callByValue_eq_some_iff (ht : t.isClosed = true) :
    callByValue t = some u ↔ ∃ p, IsLeast t.valueRedexes p ∧ ContractedAt t p u := by
  constructor
  · exact exists_contractedAt_of_callByValue ht
  · rintro ⟨p, hleast, hcontracted⟩
    have hmoves : callByValue t ≠ none := by
      intro hnone
      obtain ⟨x, a, body, rfl⟩ := exists_lam_of_callByValue ht hnone
      have hmem := hleast.1
      rw [Term.valueRedexes_lam] at hmem
      exact hmem
    obtain ⟨v, hv⟩ := Option.ne_none_iff_exists'.1 hmoves
    obtain ⟨p', hleast', hcontracted'⟩ := exists_contractedAt_of_callByValue ht hv
    rw [hleast.unique hleast'] at hcontracted
    rw [hv, hcontracted.unique hcontracted']

end Reduction

end LambdaShell
