import LambdaShell.Text.Blank
import Mathlib.Data.List.DropRight

/-!
# Text — trimming and words

Trimming drops blanks from the front and then from the end; the order does
not matter (`dropWhile_rdropWhile`), and a text that begins with a word is
trimmed at its end only (`stripWhere_append`). A text without blanks is the
one word it has (`words_of_no_blank`).
-/

namespace LambdaShell

namespace Text

variable {p : Char → Bool} {word cs : List Char}

/-- Whether there is a blank in a text. -/
def hasBlank (s : String) : Bool := s.toList.any isBlank

theorem hasBlank_eq_false_iff {s : String} :
    hasBlank s = false ↔ ∀ c ∈ s.toList, isBlank c = false := by
  simp [hasBlank]

theorem stripWhere_eq (p : Char → Bool) (cs : List Char) :
    stripWhere p cs = (cs.dropWhile p).rdropWhile p := rfl

/-- What is dropped from the end of a list reaches its first member only if it
takes in all the others. -/
theorem rdropWhile_cons (p : Char → Bool) (c : Char) (cs : List Char) :
    (c :: cs).rdropWhile p =
      if p c = true ∧ cs.rdropWhile p = [] then [] else c :: cs.rdropWhile p := by
  simp only [List.rdropWhile, List.reverse_cons, List.dropWhile_append, List.reverse_eq_nil_iff]
  by_cases hcs : cs.reverse.dropWhile p = []
  · by_cases hc : p c = true <;> simp [hcs, hc]
  · simp [hcs]

/-- **The two ends are trimmed in either order.** -/
theorem dropWhile_rdropWhile (p : Char → Bool) (cs : List Char) :
    (cs.rdropWhile p).dropWhile p = (cs.dropWhile p).rdropWhile p := by
  induction cs with
  | nil => rfl
  | cons c cs ih =>
    by_cases hc : p c = true
    · rw [List.dropWhile_cons_of_pos hc, ← ih, rdropWhile_cons]
      split
      · rename_i hnil
        rw [hnil.2]
      · rw [List.dropWhile_cons_of_pos hc]
    · rw [List.dropWhile_cons_of_neg hc, rdropWhile_cons, if_neg fun h => hc h.1,
        List.dropWhile_cons_of_neg hc]

theorem rdropWhile_append (hword : ∀ c ∈ word, p c = false) :
    (word ++ cs).rdropWhile p = word ++ cs.rdropWhile p := by
  induction word with
  | nil => rfl
  | cons c word ih =>
    have hc : ¬ p c = true := by simp [hword c List.mem_cons_self]
    rw [List.cons_append, rdropWhile_cons, if_neg fun h => hc h.1,
      ih fun d hd => hword d (List.mem_cons_of_mem _ hd), List.cons_append]

/-- **A text that begins with a word** is trimmed at its end. -/
theorem stripWhere_append (hne : word ≠ []) (hword : ∀ c ∈ word, p c = false) :
    stripWhere p (word ++ cs) = word ++ cs.rdropWhile p := by
  have hfront : (word ++ cs).dropWhile p = word ++ cs := by
    obtain ⟨c, word', rfl⟩ := List.exists_cons_of_ne_nil hne
    rw [List.cons_append, List.dropWhile_cons_of_neg]
    simp [hword c List.mem_cons_self]
  rw [stripWhere_eq, hfront, rdropWhile_append hword]

theorem wordsFrom_of_no_blank (hword : word ≠ []) (hcs : ∀ c ∈ cs, isBlank c = false) :
    wordsFrom word cs = [String.ofList (word.reverse ++ cs)] := by
  induction cs generalizing word with
  | nil =>
    obtain ⟨c, word', rfl⟩ := List.exists_cons_of_ne_nil hword
    rw [wordsFrom, List.append_nil]
    exact nofun
  | cons d cs ih =>
    obtain ⟨c, word', rfl⟩ := List.exists_cons_of_ne_nil hword
    have hd : ¬ isBlank d = true := by simp [hcs d List.mem_cons_self]
    rw [wordsFrom, if_neg hd, ih (List.cons_ne_nil _ _) fun e he => hcs e (List.mem_cons_of_mem _ he)]
    simp

/-- **A text without blanks is one word.** -/
theorem words_of_no_blank {s : String} (hne : s ≠ "") (hs : hasBlank s = false) :
    words s = [s] := by
  rw [hasBlank_eq_false_iff] at hs
  unfold words
  cases hcs : s.toList with
  | nil => exact absurd (String.toList_eq_nil_iff.1 hcs) hne
  | cons c cs =>
    rw [hcs] at hs
    have hc : ¬ isBlank c = true := by simp [hs c List.mem_cons_self]
    rw [wordsFrom, if_neg hc, wordsFrom_of_no_blank (List.cons_ne_nil _ _) fun d hd =>
      hs d (List.mem_cons_of_mem _ hd), List.reverse_singleton, List.singleton_append, ← hcs,
      String.ofList_toList]

end Text

end LambdaShell
