import LambdaShell.Proofs.Concrete.Scanning

/-!
# Text — lines

What is written on one line has no character in it that ends a line. Names
of the language have none, so nothing that is made of them and of
punctuation breaks the line it stands on. The last of the lines of a text,
if it is on one line itself, can be told from the text
(`eq_of_last_line`).
-/

namespace LambdaShell

namespace Text

/-- **A text on one line**: nothing in it ends a line. -/
def oneLine (s : String) : Bool := s.toList.all fun c => c != '\n' && c != '\r'

@[simp] theorem oneLine_append (a b : String) : oneLine (a ++ b) = (oneLine a && oneLine b) := by
  rw [oneLine, String.toList_append, List.all_append]
  rfl

variable {s : String}

theorem newline_not_mem (h : oneLine s = true) : '\n' ∉ s.toList := fun hmem =>
  absurd (List.all_eq_true.1 h _ hmem) (by decide)

theorem return_not_mem (h : oneLine s = true) : '\r' ∉ s.toList := fun hmem =>
  absurd (List.all_eq_true.1 h _ hmem) (by decide)

/-- The last of some lines that follow a first one is on a line of its own. -/
theorem exists_before_last (first : String) (lines : List String) (last : String) :
    ∃ before, first ++ "\n" ++ "\n".intercalate (lines ++ [last]) = before ++ "\n" ++ last := by
  induction lines generalizing first with
  | nil => exact ⟨first, by simp⟩
  | cons line lines ih =>
    obtain ⟨before, hbefore⟩ := ih (first ++ "\n" ++ line)
    have hcons : "\n".intercalate (line :: (lines ++ [last])) =
        line ++ "\n" ++ "\n".intercalate (lines ++ [last]) := by
      cases lines with
      | nil => simp [String.append_assoc]
      | cons next lines => rw [List.cons_append, String.intercalate_cons_cons]
    refine ⟨before, ?_⟩
    rw [List.cons_append, hcons, ← hbefore]
    simp only [String.append_assoc]

/-- **The last line can be told from the text.** -/
theorem eq_of_last_line {a b : String} {before before' : List Char} (ha : oneLine a = true)
    (hb : oneLine b = true) (h : before ++ '\n' :: a.toList = before' ++ '\n' :: b.toList) :
    a = b := by
  have hreverse : ∀ (start : List Char) {c : String}, oneLine c = true →
      (start ++ '\n' :: c.toList).reverse.takeWhile (· ≠ '\n') = c.toList.reverse := by
    intro start c hc
    have hline : ∀ d ∈ c.toList.reverse, decide (d ≠ '\n') = true := by
      intro d hd
      exact decide_eq_true fun e => newline_not_mem hc (e ▸ List.mem_reverse.1 hd)
    rw [List.reverse_append, List.reverse_cons, List.append_assoc,
      List.takeWhile_append_of_pos hline]
    simp
  have htake := hreverse before ha
  rw [h, hreverse before' hb] at htake
  exact String.toList_injective (List.reverse_inj.1 htake.symm)

end Text

theorem Token.oneLine_of_isName {x : String} (h : isName x = true) : Text.oneLine x = true := by
  refine List.all_eq_true.2 fun c hc => ?_
  have hname : isNameChar c = true := isNameChar_of_isName h hc
  rw [Bool.and_eq_true, bne_iff_ne, bne_iff_ne]
  exact ⟨ne_of_class hname _ (by decide), ne_of_class hname _ (by decide)⟩

end LambdaShell
