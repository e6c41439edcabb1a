import LambdaShell.Proofs.Reduction.Contraction
import Mathlib.Data.List.Lex
import Mathlib.Order.Bounds.Basic

/-!
# Reduction — the leftmost-outermost redex

Normal order does not compute where the redexes of a term stand. It looks
for one in the function and turns to the argument when it finds none. That
this comes to the first redex of the whole term is the subject of this
file (`normalOrder_contracts_first`).

A position is the list of the numbers of the parts that lead to it. In the
order of lists a term stands before its parts, and all that is in its first
part before all that is in its second one; so this is the order in which a
term is gone through from the outside and from the left, and the redex that
comes first in it is the least position of a redex.
-/

namespace LambdaShell

namespace Term

/-- **A position in a term**: the numbers of the parts that lead to it. The body of
an abstraction and the function of an application have the number 0, the
argument of an application has the number 1. -/
abbrev Position := List Nat

/-- **The subterm at a position**, if the term has the position. -/
def subtermAt : Term → Position → Option Term
  | t, [] => some t
  | lam _ _ body, 0 :: p => body.subtermAt p
  | app fn _, 0 :: p => fn.subtermAt p
  | app _ arg, 1 :: p => arg.subtermAt p
  | _, _ => none

/-- **The term with another subterm at a position**; without that position it stays
as it is. -/
def replaceAt : Term → Position → Term → Term
  | _, [], new => new
  | lam x a body, 0 :: p, new => lam x a (body.replaceAt p new)
  | app fn arg, 0 :: p, new => app (fn.replaceAt p new) arg
  | app fn arg, 1 :: p, new => app fn (arg.replaceAt p new)
  | t, _, _ => t

/-- What a term is, apart from its parts. -/
inductive Label where
  | var (name : String)
  | lam (binder : String) (declared : Option Ty)
  | app
deriving DecidableEq, Repr

/-- The label of a term. -/
def label : Term → Label
  | var x => .var x
  | lam x a _ => .lam x a
  | app _ _ => .app

/-- The label at a position, if the term has the position. -/
def labelAt (t : Term) (p : Position) : Option Label := (t.subtermAt p).map label

/-- **The positions of the redexes of a term.** -/
def redexes (t : Term) : Set Position :=
  {p | ∃ x a body arg, t.subtermAt p = some (app (lam x a body) arg)}

variable {t u fn arg body : Term} {x : String} {a : Option Ty} {p q : Position}

/-! ## Positions -/

/-- **What is not at or below a position** is left by a replacement there: every
label, and whether there is one. -/
theorem labelAt_replaceAt {new : Term} (h : ¬ p <+: q) :
    (t.replaceAt p new).labelAt q = t.labelAt q := by
  fun_induction replaceAt t p new generalizing q with
  | case1 t new => exact absurd List.nil_prefix h
  | case2 x a body p new ih =>
    match q with
    | [] => rfl
    | 0 :: q => exact ih fun hpq => h (List.cons_prefix_cons.2 ⟨rfl, hpq⟩)
    | (j + 1) :: q => simp only [labelAt, subtermAt]
  | case3 fn arg p new ih =>
    match q with
    | [] => rfl
    | 0 :: q => exact ih fun hpq => h (List.cons_prefix_cons.2 ⟨rfl, hpq⟩)
    | 1 :: q => rfl
    | (j + 2) :: q => rfl
  | case4 fn arg p new ih =>
    match q with
    | [] => rfl
    | 0 :: q => rfl
    | 1 :: q => exact ih fun hpq => h (List.cons_prefix_cons.2 ⟨rfl, hpq⟩)
    | (j + 2) :: q => rfl
  | case5 => rfl

/-! ## The redexes of a term and of its parts -/

theorem redexes_var : (var x).redexes = ∅ := by
  refine Set.eq_empty_iff_forall_notMem.2 ?_
  rintro (_ | ⟨i, p⟩) ⟨y, a, body, arg, h⟩
  · cases h
  · simp only [subtermAt, reduceCtorEq] at h

theorem mem_redexes_lam : p ∈ (lam x a body).redexes ↔ ∃ q, p = 0 :: q ∧ q ∈ body.redexes := by
  constructor
  · rintro ⟨y, b, body', arg, h⟩
    match p with
    | [] => cases h
    | 0 :: q => exact ⟨q, rfl, y, b, body', arg, h⟩
    | (i + 1) :: q => simp only [subtermAt, reduceCtorEq] at h
  · rintro ⟨q, rfl, h⟩
    exact h

theorem mem_redexes_app :
    p ∈ (app fn arg).redexes ↔
      (p = [] ∧ ∃ x a body, fn = lam x a body) ∨ (∃ q, p = 0 :: q ∧ q ∈ fn.redexes) ∨
        ∃ q, p = 1 :: q ∧ q ∈ arg.redexes := by
  constructor
  · rintro ⟨x, a, body, arg', h⟩
    match p with
    | [] =>
      cases h
      exact .inl ⟨rfl, x, a, body, rfl⟩
    | 0 :: q => exact .inr (.inl ⟨q, rfl, x, a, body, arg', h⟩)
    | 1 :: q => exact .inr (.inr ⟨q, rfl, x, a, body, arg', h⟩)
    | (i + 2) :: q => cases h
  · rintro (⟨rfl, x, a, body, rfl⟩ | ⟨q, rfl, h⟩ | ⟨q, rfl, h⟩)
    · exact ⟨x, a, body, arg, rfl⟩
    · exact h
    · exact h

/-! ## The first redex of a term and of its parts -/

theorem isLeast_redexes_root : IsLeast (app (lam x a body) arg).redexes [] :=
  ⟨⟨x, a, body, arg, rfl⟩, fun p _ => not_lt.1 (List.not_lt_nil p)⟩

theorem isLeast_redexes_body (h : IsLeast body.redexes p) :
    IsLeast (lam x a body).redexes (0 :: p) := by
  refine ⟨mem_redexes_lam.2 ⟨p, rfl, h.1⟩, fun q hq => ?_⟩
  obtain ⟨q, rfl, hq⟩ := mem_redexes_lam.1 hq
  exact List.cons_le_cons 0 (h.2 hq)

/-- A redex of the function comes before those of the argument. -/
theorem isLeast_redexes_function (hfn : ∀ x a body, fn = lam x a body → False)
    (h : IsLeast fn.redexes p) : IsLeast (app fn arg).redexes (0 :: p) := by
  refine ⟨mem_redexes_app.2 (.inr (.inl ⟨p, rfl, h.1⟩)), fun q hq => ?_⟩
  rcases mem_redexes_app.1 hq with ⟨-, x, a, body, rfl⟩ | ⟨q, rfl, hq⟩ | ⟨q, rfl, -⟩
  · exact (hfn x a body rfl).elim
  · exact List.cons_le_cons 0 (h.2 hq)
  · exact le_of_lt (List.Lex.rel Nat.zero_lt_one)

/-- The argument has its turn only when there is no redex in the function. -/
theorem isLeast_redexes_argument (hfn : ∀ x a body, fn = lam x a body → False)
    (hempty : fn.redexes = ∅) (h : IsLeast arg.redexes p) :
    IsLeast (app fn arg).redexes (1 :: p) := by
  refine ⟨mem_redexes_app.2 (.inr (.inr ⟨p, rfl, h.1⟩)), fun q hq => ?_⟩
  rcases mem_redexes_app.1 hq with ⟨-, x, a, body, rfl⟩ | ⟨q, rfl, hq⟩ | ⟨q, rfl, hq⟩
  · exact (hfn x a body rfl).elim
  · exact (Set.eq_empty_iff_forall_notMem.1 hempty q hq).elim
  · exact List.cons_le_cons 1 (h.2 hq)

end Term

namespace Reduction

open Term (Position redexes)

variable {t u : Term}

/-! ## What normal order finds -/

/-- **Normal order stops at the terms without a redex.** -/
theorem normalOrder_eq_none_iff : normalOrder t = none ↔ t.redexes = ∅ := by
  simp only [Set.eq_empty_iff_forall_notMem]
  fun_induction normalOrder t with
  | case1 x a body arg =>
    constructor
    · intro h
      cases h
    · intro h
      exact (h [] Term.isLeast_redexes_root.1).elim
  | case2 fn arg hfn fn' hstep ih =>
    constructor
    · intro h
      cases h
    · intro h
      have hnone : normalOrder fn = none :=
        ih.2 fun p hp => h (0 :: p) (Term.mem_redexes_app.2 (.inr (.inl ⟨p, rfl, hp⟩)))
      rw [hstep] at hnone
      cases hnone
  | case3 fn arg hfn hstep ihf iha =>
    rw [Option.map_eq_none_iff, iha]
    constructor
    · intro harg p hp
      rcases Term.mem_redexes_app.1 hp with ⟨-, x, a, body, rfl⟩ | ⟨q, rfl, hq⟩ | ⟨q, rfl, hq⟩
      · exact hfn x a body rfl
      · exact ihf.1 hstep q hq
      · exact harg q hq
    · exact fun h p hp => h (1 :: p) (Term.mem_redexes_app.2 (.inr (.inr ⟨p, rfl, hp⟩)))
  | case4 x a body ih =>
    rw [Option.map_eq_none_iff, ih]
    constructor
    · intro hbody p hp
      obtain ⟨q, rfl, hq⟩ := Term.mem_redexes_lam.1 hp
      exact hbody q hq
    · exact fun h p hp => h (0 :: p) (Term.mem_redexes_lam.2 ⟨p, rfl, hp⟩)
  | case5 x =>
    refine ⟨fun _ p hp => ?_, fun _ => rfl⟩
    rw [Term.redexes_var] at hp
    exact hp

/-- **A term contracted at a position**: there is a redex there, and nothing but that
redex is replaced. -/
inductive ContractedAt (t : Term) (p : Position) : Term → Prop where
  | intro {x : String} {a : Option Ty} {body arg : Term} :
      t.subtermAt p = some (.app (.lam x a body) arg) →
        ContractedAt t p (t.replaceAt p (body.subst x arg))

theorem ContractedAt.unique {p : Position} {v : Term} (h : ContractedAt t p u)
    (h' : ContractedAt t p v) : u = v := by
  obtain ⟨hu⟩ := h
  obtain ⟨hv⟩ := h'
  rw [hu] at hv
  cases hv
  rfl

theorem ContractedAt.labelAt {p q : Position} (h : ContractedAt t p u) (hq : ¬ p <+: q) :
    u.labelAt q = t.labelAt q := by
  obtain ⟨-⟩ := h
  exact Term.labelAt_replaceAt hq

/-- The step of normal order contracts the first redex. -/
theorem exists_contractedAt_of_normalOrder (h : normalOrder t = some u) :
    ∃ p, IsLeast t.redexes p ∧ ContractedAt t p u := by
  fun_induction normalOrder t generalizing u with
  | case1 x a body arg =>
    cases h
    exact ⟨[], Term.isLeast_redexes_root, .intro rfl⟩
  | case2 fn arg hfn fn' hstep ih =>
    cases h
    obtain ⟨p, hleast, ⟨hsub⟩⟩ := ih hstep
    exact ⟨0 :: p, Term.isLeast_redexes_function hfn hleast, .intro hsub⟩
  | case3 fn arg hfn hstep _ iha =>
    obtain ⟨arg', harg, rfl⟩ := Option.map_eq_some_iff.1 h
    obtain ⟨p, hleast, ⟨hsub⟩⟩ := iha harg
    have hempty : fn.redexes = ∅ := normalOrder_eq_none_iff.1 hstep
    exact ⟨1 :: p, Term.isLeast_redexes_argument hfn hempty hleast, .intro hsub⟩
  | case4 x a body ih =>
    obtain ⟨body', hbody, rfl⟩ := Option.map_eq_some_iff.1 h
    obtain ⟨p, hleast, ⟨hsub⟩⟩ := ih hbody
    exact ⟨0 :: p, Term.isLeast_redexes_body hleast, .intro hsub⟩
  | case5 x => cases h

/-- **Normal order contracts exactly the leftmost-outermost redex.** It stops at a
term if and only if no position of the term holds a redex, under binders or
elsewhere. Otherwise it contracts the redex at the first of these positions,
and every label that is not at or below this position is what it was. -/
theorem normalOrder_contracts_first (t : Term) :
    (normalOrder t = none ↔ t.redexes = ∅) ∧
      ∀ u, normalOrder t = some u ↔
        ∃ p, IsLeast t.redexes p ∧ ContractedAt t p u ∧
          ∀ q, ¬ p <+: q → u.labelAt q = t.labelAt q := by
  refine ⟨normalOrder_eq_none_iff, fun u => ⟨fun h => ?_, ?_⟩⟩
  · obtain ⟨p, hleast, hcontracted⟩ := exists_contractedAt_of_normalOrder h
    exact ⟨p, hleast, hcontracted, fun q hq => hcontracted.labelAt hq⟩
  · -- a term with a redex moves, and it moves by its only first redex
    rintro ⟨p, hleast, hcontracted, -⟩
    have hsome : normalOrder t ≠ none := fun hnone =>
      Set.eq_empty_iff_forall_notMem.1 (normalOrder_eq_none_iff.1 hnone) p hleast.1
    obtain ⟨v, hv⟩ := Option.ne_none_iff_exists'.1 hsome
    obtain ⟨p', hleast', hcontracted'⟩ := exists_contractedAt_of_normalOrder hv
    rw [hleast.unique hleast'] at hcontracted
    rw [hv, hcontracted.unique hcontracted']

end Reduction

end LambdaShell
