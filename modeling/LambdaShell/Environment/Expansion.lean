import LambdaShell.Environment.Basic
import LambdaShell.Term.Substitution

/-!
# Environments — expansion

Expansion replaces the free names of a term by their meanings, and the
names in those by theirs, until no free name has a meaning left. A name
that is reached from itself has no such expansion; the error shows the way
from the term to the name's second occurrence. Every name on the way is
different and has a meaning, so the ways are finite: expansion ends because
each unfolding leaves fewer names to enter.

The limit of nesting is that of the terms on the way, each by itself. The
length of the way does not count towards it: a chain of definitions may be
longer than the limit, although each name on it is entered inside the
expansion of the one before.
-/

namespace LambdaShell

/-- **Why a term cannot be expanded.** -/
inductive ExpansionError where
  /-- The names of `chain` refer each to the next, and the last is among the others. -/
  | cyclic (chain : List String)
  /-- A term on the way is nested too deeply. -/
  | tooDeep
deriving DecidableEq, Repr

namespace Environment

/-- The names with a meaning that are not yet on the way `chain`. -/
def unvisited (env : Environment) (chain : List String) : List String :=
  env.names.filter (· ∉ chain)

theorem length_filter_mono {α : Type} {p q : α → Bool} (h : ∀ x, p x = true → q x = true)
    (l : List α) : (l.filter p).length ≤ (l.filter q).length := by
  rw [← List.countP_eq_length_filter, ← List.countP_eq_length_filter]
  exact List.countP_mono_left fun x _ => h x

/-- A list loses members by a stronger condition that one of them fails. -/
theorem length_filter_strict {α : Type} {p q : α → Bool} {a : α} {l : List α}
    (h : ∀ x, p x = true → q x = true) (ha : a ∈ l) (hq : q a = true) (hp : ¬ p a = true) :
    (l.filter p).length < (l.filter q).length := by
  obtain ⟨before, after, rfl⟩ := List.append_of_mem ha
  have hb := length_filter_mono h before
  have hc := length_filter_mono h after
  rw [List.filter_append, List.filter_append, List.filter_cons_of_pos hq,
    List.filter_cons_of_neg hp]
  simp only [List.length_append, List.length_cons]
  omega

/-- Entering a name that has a meaning leaves fewer names to enter. -/
theorem unvisited_append_lt {env : Environment} {chain : List String} {name : String}
    {t : Term} (h : env.lookup name = some t) (hc : name ∉ chain) :
    (env.unvisited (chain ++ [name])).length < (env.unvisited chain).length := by
  refine length_filter_strict (a := name) ?_ (OrderedMap.mem_keys_of_get? h) ?_ ?_
  · intro x hx
    simp only [List.mem_append, List.mem_singleton, not_or, decide_eq_true_eq] at hx ⊢
    exact hx.1
  · simpa using hc
  · simp

/-- **Expansion along `names`**: each name with a meaning is replaced by its
expanded meaning, first name first. The names of `chain` are being expanded;
how many they are is not limited. -/
def expandEach (env : Environment) (depth : Option Nat) (chain : List String)
    (names : List String) (t : Term) : Except ExpansionError Term :=
  match names with
  | [] => if t.fits depth then .ok t else .error .tooDeep
  | name :: names =>
    match _known : env.lookup name with
    | none => env.expandEach depth chain names t
    | some meaning =>
      if _new : name ∈ chain then .error (.cyclic (chain ++ [name]))
      else if meaning.fits depth then
        match env.expandEach depth (chain ++ [name]) meaning.freeNames meaning with
        | .ok expanded => env.expandEach depth chain names (t.subst name expanded)
        | .error e => .error e
      else .error .tooDeep
termination_by ((env.unvisited chain).length, names.length)
decreasing_by
  · exact Prod.Lex.right _ (by simp)
  · exact Prod.Lex.left _ _ (unvisited_append_lt _known _new)
  · exact Prod.Lex.right _ (by simp)

/-- **The expansion of a term**: no name with a meaning is left free in it. -/
def expand (env : Environment) (depth : Option Nat) (t : Term) : Except ExpansionError Term :=
  if t.fits depth then env.expandEach depth [] t.freeNames t else .error .tooDeep

end Environment

/-- What an expansion error says. -/
def ExpansionError.message : ExpansionError → String
  | .cyclic chain => "Cyclic definition: " ++ " -> ".intercalate chain
  | .tooDeep => "Term nested too deeply to process."

end LambdaShell
