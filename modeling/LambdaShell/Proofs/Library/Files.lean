import LambdaShell.Proofs.Library.RoundTrip
import LambdaShell.Proofs.Storage.Writing
import LambdaShell.Proofs.Text.Lines

/-!
# Libraries — their files

Saving a library is one write, to the file of the library
(`exists_written_of_save`). What is read from that file afterwards are the
bytes of the saved text. Decoding them gives the text, and unifying its line
ends leaves it as it is, since neither a name nor a written term has a
carriage return in it. So the definitions that are loaded are those that
were saved (`load_of_written`).
-/

namespace LambdaShell

open Storage

/-! ## Texts on one line -/

theorem SimpleType.oneLine_text {τ : SimpleType} (hτ : τ.wellNamed = true) :
    Text.oneLine τ.text = true := by
  induction τ using SimpleType.text.induct with
  | case1 name => exact Token.oneLine_of_isName hτ
  | case2 σ τ ρ ihd ihc =>
    rw [wellNamed, Bool.and_eq_true] at hτ
    simp +decide [text, ihd hτ.1, ihc hτ.2]
  | case3 name ρ ih =>
    rw [wellNamed, Bool.and_eq_true] at hτ
    simp +decide [text, Token.oneLine_of_isName hτ.1, ih hτ.2]

namespace Printer

theorem oneLine_binderText {x : String} {a : Option Ty} (hx : Token.isName x = true)
    (ha : a.all Ty.wellNamed = true) : Text.oneLine (binderText x a) = true := by
  match a with
  | none => exact Token.oneLine_of_isName hx
  | some (.simple τ) =>
    simp +decide [binderText, Ty.text, Token.oneLine_of_isName hx, SimpleType.oneLine_text ha]
  | some (.fault _) => cases ha

theorem oneLine_asFunction {text : String} (h : Text.oneLine text = true) (tightness : Tightness) :
    Text.oneLine (asFunction (text, tightness)) = true := by
  cases tightness <;> simp +decide [asFunction, h]

theorem oneLine_asArgument {text : String} (h : Text.oneLine text = true) (tightness : Tightness) :
    Text.oneLine (asArgument (text, tightness)) = true := by
  cases tightness <;> simp +decide [asArgument, h]

end Printer

/-- **A term is written on one line.** -/
theorem Term.oneLine_text {t : Term} (ht : t.wellNamed = true) : Text.oneLine t.text = true := by
  induction t with
  | var x =>
    rw [text_var]
    exact Token.oneLine_of_isName ht
  | lam x a body ih =>
    simp only [wellNamed, Bool.and_eq_true] at ht
    simp +decide [Printer.oneLine_binderText ht.1.1 ht.1.2, ih ht.2]
  | app fn arg ihf iha =>
    simp only [wellNamed, Bool.and_eq_true] at ht
    simp +decide [Printer.oneLine_asFunction (ihf ht.1), Printer.oneLine_asArgument (iha ht.2)]

namespace Library

variable {store store' : Store} {directory : Path} {name stamp : String} {overwrite : Bool}
  {env : Environment} {location : Location}

theorem oneLine_line {d : Definition} (hd : d.wellNamed = true) : Text.oneLine (line d) = true := by
  obtain ⟨hname, hterm⟩ := Bool.and_eq_true_iff.1 hd
  simp +decide [line, Token.oneLine_of_isName hname, Term.oneLine_text hterm]

/-- The text of a library has no carriage return in it. -/
theorem return_not_mem_dump (hstamp : Text.oneLine stamp = true)
    (henv : ∀ d ∈ env.definitions, d.wellNamed = true) : '\r' ∉ (dump stamp env).toList := by
  have hlines : '\r' ∉ lines env.definitions := by
    intro hmem
    obtain ⟨d, hd, hmem⟩ := List.mem_flatMap.1 hmem
    rcases List.mem_append.1 hmem with hmem | hmem
    · exact Text.return_not_mem (oneLine_line (henv d hd)) hmem
    · exact absurd (List.mem_singleton.1 hmem) (by decide)
  have hcomment : '\r' ∉ (" saved on " ++ stamp).toList := by
    rw [String.toList_append, List.mem_append, not_or]
    exact ⟨by decide, Text.return_not_mem hstamp⟩
  rw [toList_dump]
  simp only [List.mem_cons, List.mem_append, not_or]
  exact ⟨by decide, hcomment, by decide, hlines⟩

/-! ## Saving and loading -/

/-- **Saving is one write**, to the file of the library. -/
theorem exists_written_of_save (h : save store directory name overwrite stamp env = .ok store') :
    acceptable (file directory name) = true ∧
      ∃ location,
        store.Written (file directory name) (dump stamp env).toUTF8 location store' := by
  simp only [save] at h
  split at h
  · rename_i hpath
    split at h
    · cases h
    · split at h
      · cases h
      · rename_i hwrite
        cases h
        exact ⟨hpath, Store.exists_written_of_write hwrite⟩
  · cases h

theorem fromUTF8?_toUTF8 (s : String) : String.fromUTF8? s.toUTF8 = some s :=
  dif_pos s.isValidUTF8

/-- **What was saved is loaded**, from the same file. -/
theorem load_of_written (hstamp : Text.oneLine stamp = true)
    (henv : ∀ d ∈ env.definitions, d.wellNamed = true)
    (hpath : acceptable (file directory name) = true)
    (h : store.Written (file directory name) (dump stamp env).toUTF8 location store') :
    load store' directory name = .ok env.definitions := by
  have htext : Text.unifyNewlines (dump stamp env) = dump stamp env :=
    Text.unifyNewlines_of_no_return (return_not_mem_dump hstamp henv)
  have hparse : Definition.parseAll (dump stamp env) = .ok env.definitions :=
    parseAll_dump (Text.newline_not_mem hstamp) henv
  simp only [load, if_pos hpath, h.read_eq, fromUTF8?_toUTF8, htext, hparse]

end Library

end LambdaShell
