import LambdaShell.Library
import LambdaShell.Proofs.Concrete.Naming

/-!
# Libraries — what is saved can be loaded

The text of a library is a comment with the time and then one definition a
line. Scanning passes over the comment, as long as the time does not break
its line, and finds in every line the tokens of its definition; the reader
of libraries takes them definition by definition. So the text is read as
the definitions it was made from (`parseAll_dump`), provided that these can
be written at all.
-/

namespace LambdaShell

open Scan (Scans Spells Separates)

/-- **The tokens of a definition** in a library. -/
def Definition.tokens (d : Definition) : List Token :=
  .ident d.name :: .equals :: (d.term.tokens ++ [.semicolon])

/-! ## The text scans as its tokens -/

namespace Scan

variable {cs text : List Char} {tokens : List Token}

theorem scans_comment (htext : '\n' ∉ text) (h : Scans cs tokens) :
    Scans ('#' :: (text ++ '\n' :: cs)) tokens := by
  intro position
  rw [ofChars_comment htext (by simp)]
  exact scans_layout rfl h _

theorem separates_equals : Separates " = " [.equals] :=
  ⟨fun _ => boundary_cons.2 rfl,
    fun _ _ h => scans_layout rfl (scans_mark rfl (scans_layout rfl h))⟩

end Scan

namespace Library

variable {ds : List Definition}

/-- **A line of a library** scans as its definition. -/
theorem scans_line {d : Definition} (hd : d.wellNamed = true) {cs : List Char}
    {tokens : List Token} (h : Scans cs tokens) :
    Scans ((line d).toList ++ '\n' :: cs) (d.tokens ++ tokens) := by
  obtain ⟨hname, hterm⟩ := Bool.and_eq_true_iff.1 hd
  have hspells : Spells (d.name ++ " = " ++ d.term.text)
      (.ident d.name :: .equals :: d.term.tokens) :=
    (Scan.spells_name hname).join Scan.separates_equals (Term.spells_text hterm)
  have hend : Scans (';' :: '\n' :: cs) (.semicolon :: tokens) :=
    Scan.scans_mark rfl (Scan.scans_layout rfl h)
  simpa [line, Definition.tokens] using hspells _ _ (Scan.boundary_cons.2 rfl) hend

/-- Lines, each with its end. -/
def lines (ds : List Definition) : List Char := ds.flatMap fun d => (line d).toList ++ ['\n']

theorem scans_lines (hds : ∀ d ∈ ds, d.wellNamed = true) :
    Scans (lines ds) (ds.flatMap Definition.tokens) := by
  induction ds with
  | nil => exact Scan.scans_nil
  | cons d ds ih =>
    have hrest := ih fun d' hd' => hds d' (List.mem_cons_of_mem _ hd')
    simpa [lines] using scans_line (hds d List.mem_cons_self) hrest

/-- A line end between the lines and after the last is one after each. -/
theorem toList_intercalate_line (first : String) (ds : List Definition) :
    ("\n".intercalate (first :: ds.map line) ++ "\n").toList =
      first.toList ++ '\n' :: lines ds := by
  induction ds generalizing first with
  | nil => simp [lines]
  | cons d ds ih =>
    rw [List.map_cons, String.intercalate_cons_cons, String.append_assoc, String.toList_append,
      ih (line d)]
    simp [lines]

/-- **The text of a library** is a comment and the lines of its definitions. -/
theorem toList_dump (stamp : String) (env : Environment) :
    (dump stamp env).toList =
      '#' :: ((" saved on " ++ stamp).toList ++ '\n' :: lines env.definitions) := by
  rw [dump, toList_intercalate_line]
  simp

/-! ## The tokens are read as the definitions -/

theorem run_definitions (hds : ∀ d ∈ ds, d.wellNamed = true) (done : List Definition) :
    libraryReader.run (.between done) (ds.flatMap Definition.tokens) =
      some (.between (ds.reverse ++ done)) := by
  induction ds generalizing done with
  | nil => rfl
  | cons d ds ih =>
    have hd := hds d List.mem_cons_self
    have hterm : TermReader.TakesTerm d.term.tokens d.term := by
      intro frames
      obtain ⟨frames', t', hrun, hclose, -⟩ :=
        TermReader.takes_tokens (Bool.and_eq_true_iff.1 hd).2 frames
      exact ⟨frames', t', hrun, hclose⟩
    have hfirst : libraryReader.run (.between done) d.tokens = some (.between (d :: done)) :=
      LibraryReader.takesDefinition d.name hterm done
    rw [List.flatMap_cons, Reader.run_append, hfirst, Option.bind_some,
      ih (fun d' hd' => hds d' (List.mem_cons_of_mem _ hd')), List.reverse_cons,
      List.append_assoc, List.singleton_append]

/-- **A saved text is read as the definitions it was made from.** -/
theorem parseAll_dump {stamp : String} (hstamp : '\n' ∉ stamp.toList) {env : Environment}
    (henv : ∀ d ∈ env.definitions, d.wellNamed = true) :
    Definition.parseAll (dump stamp env) = .ok env.definitions := by
  have htext := toList_dump stamp env
  -- the text begins with a mark, so it is not blank
  have hblank : ¬ Text.allBlank (dump stamp env) = true := by
    rw [Text.allBlank, htext, List.all_cons]
    simp [show Text.isBlank '#' = false by decide]
  have hcomment : '\n' ∉ (" saved on " ++ stamp).toList := by
    rw [String.toList_append, List.mem_append, not_or]
    exact ⟨by decide, hstamp⟩
  have hscans : Scans (dump stamp env).toList (env.definitions.flatMap Definition.tokens) := by
    rw [htext]
    exact Scan.scans_comment hcomment (scans_lines henv)
  have hrun := run_definitions henv []
  rw [Definition.parseAll, if_neg hblank]
  refine libraryReader.read_of_scans hscans hrun ?_
  show some (env.definitions.reverse ++ []).reverse = _
  rw [List.append_nil, List.reverse_reverse]

end Library

end LambdaShell
