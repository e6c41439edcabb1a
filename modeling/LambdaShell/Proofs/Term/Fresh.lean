import LambdaShell.Term.Substitution
import Mathlib.Data.Finset.Card
import Mathlib.Order.Interval.Finset.Nat

/-!
# Terms — fresh names are fresh

The search for a number goes through the candidates in order and stops at
the first that is not to be avoided. Nothing in it counts down: it ends
because the candidates are all different, and one more of them than there
are names to avoid cannot all be among the names (`exists_free`). As it is
carried out the search is bounded from outside, by as many failures as there
are names, and the same count shows that the bound is never what stops it
(`search_name`).
-/

namespace LambdaShell

namespace Fresh

variable {stem : String} {avoid : List String}

/-- A number is written in digits. -/
theorem isDigit_of_mem_repr {k : Nat} {c : Char} (h : c ∈ (Nat.repr k).toList) :
    c.isDigit = true := by
  rw [Nat.toList_repr] at h
  exact Nat.isDigit_of_mem_toDigits (by decide) (by decide) h

/-- Different numbers give different names. -/
theorem numbered_injective (stem : String) : Function.Injective (numbered stem) := by
  intro j k h
  have hdigits : Nat.toDigits 10 j = Nat.toDigits 10 k := by
    have := congrArg String.toList h
    simpa [numbered] using this
  rw [← Nat.ofDigitChars_ten_toDigits (n := j), hdigits, Nat.ofDigitChars_ten_toDigits]

/-- Among one more candidates in a row than there are different names to avoid,
one is free. -/
theorem exists_free (stem : String) (avoid : List String) (start : Nat) :
    ∃ k, start ≤ k ∧ k ≤ start + avoid.toFinset.card ∧ numbered stem k ∉ avoid := by
  have hcard : avoid.toFinset.card <
      ((Finset.Icc start (start + avoid.toFinset.card)).image (numbered stem)).card := by
    rw [Finset.card_image_of_injective _ (numbered_injective stem), Nat.card_Icc]
    omega
  obtain ⟨candidate, hcandidate, hfree⟩ := Finset.exists_mem_notMem_of_card_lt_card hcard
  obtain ⟨k, hk, rfl⟩ := Finset.mem_image.1 hcandidate
  rw [Finset.mem_Icc] at hk
  exact ⟨k, hk.1, hk.2, fun hmem => hfree (List.mem_toFinset.2 hmem)⟩

/-- **The search that nothing bounds**: from `k` on it passes every candidate that is
to be avoided, and it ends at `n`. -/
inductive Search (stem : String) (avoid : List String) : Nat → Nat → Prop
  | found {k : Nat} : numbered stem k ∉ avoid → Search stem avoid k k
  | next {k n : Nat} :
    numbered stem k ∈ avoid → Search stem avoid (k + 1) n → Search stem avoid k n

/-- **A search ends at the first number that is free.** -/
theorem Search.isLeast {k n : Nat} (h : Search stem avoid k n) :
    IsLeast {j | k ≤ j ∧ numbered stem j ∉ avoid} n := by
  induction h with
  | found hfree => exact ⟨⟨le_rfl, hfree⟩, fun j hj => hj.1⟩
  | next hmem _ ih =>
    obtain ⟨⟨hle, hfree⟩, hleast⟩ := ih
    refine ⟨⟨by omega, hfree⟩, fun j hj => hleast ⟨?_, hj.2⟩⟩
    -- the candidate just passed is not free, so a free one comes after it
    rcases Nat.eq_or_lt_of_le hj.1 with rfl | hlt
    · exact absurd hmem hj.2
    · exact hlt

/-- With enough tries to come to a free candidate, the bound is not what stops the
search. -/
theorem search_firstFree {tries k n : Nat} (hk : k ≤ n) (hn : n ≤ k + tries)
    (hfree : numbered stem n ∉ avoid) : Search stem avoid k (firstFree stem avoid tries k) := by
  induction tries generalizing k with
  | zero =>
    obtain rfl : k = n := by omega
    exact .found hfree
  | succ tries ih =>
    rw [firstFree]
    split
    · rename_i hmem
      have hne : k ≠ n := by
        rintro rfl
        exact hfree hmem
      exact .next hmem (ih (by omega) (by omega))
    · rename_i hfound
      exact .found hfound

/-- **The search for a fresh name ends**, at the number that the name takes. -/
theorem search_name (base : String) (avoid : List String) :
    Search (Fresh.stem base) avoid 1 (firstFree (Fresh.stem base) avoid avoid.length 1) := by
  obtain ⟨k, hk, hle, hfree⟩ := exists_free (Fresh.stem base) avoid 1
  have hcard := avoid.toFinset_card_le
  exact search_firstFree hk (by omega) hfree

/-- **A fresh name is not one of the names to avoid.** -/
theorem name_not_mem (base : String) (avoid : List String) : name base avoid ∉ avoid :=
  (search_name base avoid).isLeast.1.2

end Fresh

namespace Term

variable {x : String} {body replacement : Term}

/-- The new name of a binder is not free in the replacement. -/
theorem freshBinder_not_mem_replacement :
    freshBinder x body replacement ∉ replacement.freeVars := fun h =>
  Fresh.name_not_mem x _ (List.mem_append_left _ (List.mem_append_left _ h))

/-- It is not free in the body. -/
theorem freshBinder_not_mem_freeVars : freshBinder x body replacement ∉ body.freeVars := fun h =>
  Fresh.name_not_mem x _ (List.mem_append_left _ (List.mem_append_right _ h))

/-- And the body does not bind it. -/
theorem freshBinder_not_mem_boundVars : freshBinder x body replacement ∉ body.boundVars := fun h =>
  Fresh.name_not_mem x _ (List.mem_append_right _ h)

end Term

end LambdaShell
