import LambdaShell.Proofs.Concrete.Acceptance
import Mathlib.Data.List.Chain

/-!
# Concrete syntax — layout

A text is laid out by choosing, for each of its tokens, a spelling and what
stands before it, and what stands after the last. What stands between tokens
are blanks and comments with the ends of their lines, and there has to be
something only between two names, which would otherwise be one. `Layout`
holds such choices.

Whatever they are, the scan finds the tokens, each at the place of its own
spelling (`lexes_chars`), so a text is read as its tokens are and the choices
do not show (`Layout.parse_of_tokens_eq`). A library of blanks alone is not
read by the grammar, but it has no tokens, and from no tokens the grammar
makes the same empty library.
-/

namespace LambdaShell

open Grammar (Start)

/-- Whether a token is a name. -/
def Token.isIdent : Token → Bool
  | .ident _ => true
  | _ => false

/-- **A piece of what separates tokens.** -/
inductive Filler where
  /-- A blank or the end of a line. -/
  | blank (c : Char) (isLayout : Token.isLayout c = true)
  /-- A comment with the end of its line. -/
  | comment (text : List Char) (oneLine : '\n' ∉ text)

/-- The characters of a piece. -/
def Filler.chars : Filler → List Char
  | blank c _ => [c]
  | comment text _ => '#' :: (text ++ ['\n'])

/-- **A token as it is written**, with what stands before it. -/
structure Lexeme where
  /-- What separates the token from the one before it. -/
  gap : List Filler
  token : Token
  word : List Char
  spelling : Token.Spelling word token

namespace Lexeme

/-- The characters of a token and what stands before it. -/
def chars (l : Lexeme) : List Char := l.gap.flatMap Filler.chars ++ l.word

/-- **Two names are kept apart** by what stands before the second. -/
def Apart (l m : Lexeme) : Prop := l.token.isIdent = true → m.token.isIdent = true → m.gap ≠ []

instance : DecidableRel Apart := fun l m =>
  inferInstanceAs (Decidable (l.token.isIdent = true → m.token.isIdent = true → m.gap ≠ []))

/-- **The tokens with their places**, where the first character has the given position. -/
def locate (position : Nat) : List Lexeme → List Located
  | [] => []
  | l :: ls =>
    let start := position + (l.gap.flatMap Filler.chars).length
    ⟨l.token, ⟨start, start + l.word.length⟩⟩ :: locate (position + l.chars.length) ls

end Lexeme

/-- **A layout**: tokens as they are written, and what stands after the last. -/
structure Layout where
  lexemes : List Lexeme
  /-- What stands after the last token. -/
  closing : List Filler
  /-- Names that follow each other are kept apart. -/
  apart : lexemes.IsChain Lexeme.Apart

namespace Layout

/-- **The text that is laid out.** -/
def text (l : Layout) : String :=
  String.ofList (l.lexemes.flatMap Lexeme.chars ++ l.closing.flatMap Filler.chars)

/-- The tokens, without their spelling. -/
def tokens (l : Layout) : List Token := l.lexemes.map Lexeme.token

/-- The tokens, as they are spelled. -/
def words (l : Layout) : List String := l.lexemes.map fun m => String.ofList m.word

/-- The tokens with their places in the text. -/
def located (l : Layout) : List Located := Lexeme.locate 0 l.lexemes

end Layout

/-! ## The scan of a text that is laid out -/

namespace Scan

variable {position : Nat} {rest : List Char} {scan : Scan} {gap : List Filler}

/-- **What separates tokens is passed over.** -/
theorem lexes_gap (h : Lexes (position + (gap.flatMap Filler.chars).length) rest scan) :
    Lexes position (gap.flatMap Filler.chars ++ rest) scan := by
  induction gap generalizing position with
  | nil => exact h
  | cons filler gap ih =>
    cases filler with
    | blank c hc =>
      refine .blank hc (ih ?_)
      rwa [List.flatMap_cons, List.length_append, Filler.chars, List.length_singleton,
        ← Nat.add_assoc] at h
    | comment text htext =>
      -- the comment ends before the end of its line, which is passed over as a blank
      have hlength : position + ((Filler.comment text htext :: gap).flatMap Filler.chars).length =
          position + 1 + text.length + 1 + (gap.flatMap Filler.chars).length := by
        simp only [List.flatMap_cons, Filler.chars, List.length_append, List.length_cons,
          List.length_nil]
        omega
      rw [hlength] at h
      have hcomment := Lexes.comment htext (by simp) (.blank (c := '\n') rfl (ih h))
      simpa [Filler.chars] using hcomment

/-- What separates tokens does not continue a name, and neither does what follows it. -/
theorem boundary_gap (h : gap = [] → Boundary rest) :
    Boundary (gap.flatMap Filler.chars ++ rest) := by
  cases gap with
  | nil => exact h rfl
  | cons filler gap =>
    cases filler with
    | blank c hc =>
      refine boundary_cons.2 ?_
      simp only [Token.isLayout, Bool.or_eq_true, beq_iff_eq] at hc
      rcases hc with ((rfl | rfl) | rfl) | rfl <;> rfl
    | comment text htext => exact boundary_cons.2 rfl

/-- Only a name continues a name. -/
theorem boundary_word {word : List Char} {token : Token} (h : Token.Spelling word token)
    (htoken : token.isIdent = false) : Boundary (word ++ rest) := by
  cases h with
  | name _ => cases htoken
  | _ => exact boundary_cons.2 (by decide)

theorem boundary_lexemes {l : Lexeme} {ls : List Lexeme} (h : (l :: ls).IsChain Lexeme.Apart)
    (hident : l.token.isIdent = true) :
    Boundary (ls.flatMap Lexeme.chars ++ gap.flatMap Filler.chars) := by
  cases ls with
  | nil =>
    have hend : Boundary (gap.flatMap Filler.chars ++ []) := boundary_gap fun _ => boundary_nil
    simpa using hend
  | cons m ms =>
    have hapart : l.Apart m := (List.isChain_cons_cons.1 h).1
    rw [List.flatMap_cons, Lexeme.chars, List.append_assoc, List.append_assoc]
    refine boundary_gap fun hgap => boundary_word m.spelling ?_
    exact Bool.eq_false_iff.2 fun hm => hapart hident hm hgap

/-- **The scan finds the tokens in their places**, and nothing is illegal. -/
theorem lexes_chars {ls : List Lexeme} (h : ls.IsChain Lexeme.Apart) :
    Lexes position (ls.flatMap Lexeme.chars ++ gap.flatMap Filler.chars)
      ⟨Lexeme.locate position ls, none⟩ := by
  induction ls generalizing position with
  | nil =>
    have hend : Lexes position (gap.flatMap Filler.chars ++ []) ⟨[], none⟩ := lexes_gap (.done _)
    simpa [Lexeme.locate] using hend
  | cons l ls ih =>
    have hident : ∀ x, l.token = .ident x →
        Boundary (ls.flatMap Lexeme.chars ++ gap.flatMap Filler.chars) := by
      intro x hx
      exact boundary_lexemes h (by rw [hx]; rfl)
    have hrest : Lexes (position + l.chars.length) _ ⟨_, none⟩ := ih h.tail
    rw [Lexeme.chars, List.length_append, ← Nat.add_assoc] at hrest
    have hlexes := lexes_gap (Lexes.token l.spelling hident hrest)
    simpa [Lexeme.chars, Lexeme.locate, push, Nat.add_assoc] using hlexes

end Scan

namespace Lexeme

@[simp] theorem map_token_locate (position : Nat) (ls : List Lexeme) :
    (locate position ls).map Located.token = ls.map Lexeme.token := by
  induction ls generalizing position with
  | nil => rfl
  | cons l ls ih => rw [locate, List.map_cons, List.map_cons, ih]

/-- **Each place is that of the token's own spelling.** -/
theorem map_extract_locate (before after : List Char) (ls : List Lexeme) :
    (locate before.length ls).map
        (fun t => t.span.extract (String.ofList (before ++ (ls.flatMap Lexeme.chars ++ after)))) =
      ls.map fun l => String.ofList l.word := by
  induction ls generalizing before with
  | nil => rfl
  | cons l ls ih =>
    have hfirst : ((before ++ ((l :: ls).flatMap Lexeme.chars ++ after)).drop
          (before.length + (l.gap.flatMap Filler.chars).length)).take l.word.length = l.word := by
      rw [List.flatMap_cons, Lexeme.chars, ← List.drop_drop, List.drop_left]
      simp
    have hrest := ih (before ++ l.chars)
    rw [List.length_append, List.append_assoc, ← List.append_assoc l.chars,
      ← List.flatMap_cons] at hrest
    rw [locate, List.map_cons, hrest, List.map_cons, Span.extract, String.toList_ofList,
      Nat.add_sub_cancel_left, hfirst]

end Lexeme

/-! ## Reading a text that is laid out -/

/-- Letters and the underscore are not blank. -/
theorem Token.isBlank_of_isNameStart {c : Char} (h : isNameStart c = true) :
    Text.isBlank c = false := by
  have hrange : 65 ≤ c.toNat ∧ c.toNat ≤ 122 := by
    rcases Bool.or_eq_true_iff.1 h with hletter | hunderscore
    · rcases Bool.or_eq_true_iff.1 hletter with hupper | hlower
      · have hfrom : 65 ≤ c.toNat := (of_decide_eq_true hupper).1
        have hto : c.toNat ≤ 90 := (of_decide_eq_true hupper).2
        omega
      · have hfrom : 97 ≤ c.toNat := of_decide_eq_true (Bool.and_eq_true_iff.1 hlower).1
        have hto : c.toNat ≤ 122 := of_decide_eq_true (Bool.and_eq_true_iff.1 hlower).2
        omega
    · rw [beq_iff_eq.1 hunderscore]
      decide
  simp only [Text.isBlank, Bool.or_eq_false_iff, Bool.and_eq_false_iff, decide_eq_false_iff_not,
    beq_eq_false_iff_ne]
  omega

/-- No token is blank. -/
theorem Token.Spelling.exists_not_isBlank {word : List Char} {token : Token}
    (h : Spelling word token) : ∃ c ∈ word, Text.isBlank c = false := by
  cases h with
  | name hname =>
    obtain ⟨c, cs, hcs, hstart, -⟩ := isName_iff.1 hname
    exact ⟨c, by rw [hcs]; exact List.mem_cons_self, isBlank_of_isNameStart hstart⟩
  | _ => exact ⟨_, List.mem_cons_self, by decide⟩

/-- **A text without illegal characters is read as its tokens are.** -/
theorem Reader.toOption_read {σ α : Type} (r : Reader σ α) {source : String}
    (h : (Scan.ofText source).illegal = none) :
    (r.read source).toOption =
      r.valueFrom r.start ((Scan.ofText source).tokens.map Located.token) := by
  have hread : ∀ value, r.read source = .ok value ↔
      r.valueFrom r.start ((Scan.ofText source).tokens.map Located.token) = some value := by
    intro value
    rw [read_eq_ok_iff, valueFrom_eq_some_iff, and_iff_right h]
  ext value
  rw [← hread]
  cases r.read source <;> simp [Except.toOption]

namespace Layout

theorem scan_text (l : Layout) : Scan.ofText l.text = ⟨l.located, none⟩ := by
  rw [Scan.ofText, text, String.toList_ofList]
  exact (Scan.lexes_chars l.apart).ofChars_eq

theorem map_token_located (l : Layout) : l.located.map Located.token = l.tokens :=
  Lexeme.map_token_locate 0 l.lexemes

theorem toOption_read (l : Layout) {σ α : Type} (r : Reader σ α) :
    (r.read l.text).toOption = r.valueFrom r.start l.tokens := by
  rw [r.toOption_read (by rw [scan_text]), scan_text, map_token_located]

/-- A text of blanks has no tokens. -/
theorem tokens_of_allBlank {l : Layout} (h : Text.allBlank l.text = true) : l.tokens = [] := by
  rw [tokens, List.map_eq_nil_iff]
  by_contra hne
  obtain ⟨m, hm⟩ := List.exists_mem_of_ne_nil _ hne
  obtain ⟨c, hc, hblank⟩ := m.spelling.exists_not_isBlank
  have hmem : c ∈ l.text.toList := by
    rw [text, String.toList_ofList]
    exact List.mem_append_left _ (List.mem_flatMap.2 ⟨m, hm, List.mem_append_right _ hc⟩)
  rw [List.all_eq_true.1 h c hmem] at hblank
  cases hblank

/-- **A library is read as its tokens are**, also one of blanks. -/
theorem toOption_parseAll (l : Layout) :
    (Definition.parseAll l.text).toOption =
      libraryReader.valueFrom libraryReader.start l.tokens := by
  unfold Definition.parseAll
  split
  · rename_i hblank
    rw [tokens_of_allBlank hblank]
    rfl
  · exact l.toOption_read libraryReader

/-- **A text is read as its tokens are**, whatever it is read as. -/
theorem parse_of_tokens_eq {l l' : Layout} (h : l.tokens = l'.tokens) (start : Start) :
    (start.parse l.text).toOption = (start.parse l'.text).toOption := by
  cases start with
  | term => exact (l.toOption_read _).trans (h ▸ (l'.toOption_read termReader).symm)
  | type => exact (l.toOption_read _).trans (h ▸ (l'.toOption_read typeReader).symm)
  | statement => exact (l.toOption_read _).trans (h ▸ (l'.toOption_read statementReader).symm)
  | library => exact l.toOption_parseAll.trans (h ▸ l'.toOption_parseAll.symm)

/-- **Layout does not matter.** However a list of tokens is spelled and whatever separates
its members, the scan of the text gives the tokens and nothing illegal, and
the place of each token is that of its own spelling. Two texts with the same
tokens are therefore read alike, as a term, a type, a statement or a library:
both give the same value, or neither gives one. -/
theorem scan_and_parse_text :
    (∀ l : Layout, Scan.ofText l.text = ⟨l.located, none⟩ ∧
      l.located.map Located.token = l.tokens ∧
      l.located.map (fun t => t.span.extract l.text) = l.words) ∧
    ∀ l l' : Layout, l.tokens = l'.tokens → ∀ start : Start,
      (start.parse l.text).toOption = (start.parse l'.text).toOption := by
  refine ⟨fun l => ⟨l.scan_text, l.map_token_located, ?_⟩, fun _ _ => parse_of_tokens_eq⟩
  exact Lexeme.map_extract_locate [] (l.closing.flatMap Filler.chars) l.lexemes

/-- `λf:A→A x.f x`, written as narrowly as possible and with a backslash, an arrow
of two characters, blanks and a comment that holds an illegal character. -/
theorem scan_and_parse_text_commented :
    let name (gap : List Filler) (x : String) (h : Token.isName x = true) : Lexeme :=
      ⟨gap, .ident x, x.toList, .name h⟩
    let blank : Filler := .blank ' ' rfl
    let remark : Filler := .comment " f -> $".toList (by decide)
    let narrow : Layout :=
      ⟨[⟨[], .lambda, _, .lambda⟩, name [] "f" (by decide), ⟨[], .colon, _, .colon⟩,
        name [] "A" (by decide), ⟨[], .arrow, _, .arrowSign⟩, name [] "A" (by decide),
        name [blank] "x" (by decide), ⟨[], .dot, _, .dot⟩, name [] "f" (by decide),
        name [blank] "x" (by decide)], [], by decide⟩
    let wide : Layout :=
      ⟨[⟨[remark], .lambda, _, .backslash⟩, name [blank] "f" (by decide), ⟨[], .colon, _, .colon⟩,
        name [blank, remark] "A" (by decide), ⟨[], .arrow, _, .arrow⟩, name [] "A" (by decide),
        name [remark] "x" (by decide), ⟨[blank], .dot, _, .dot⟩, name [blank] "f" (by decide),
        name [.blank '\t' rfl, blank] "x" (by decide)], [remark], by decide⟩
    let type : Ty := .simple (.arrow (.base "A") (.base "A"))
    let t : Term := .lam "f" (some type) (.lam "x" none (.app (.var "f") (.var "x")))
    narrow.text = "λf:A→A x.f x" ∧
      wide.text = "# f -> $\n\\ f: # f -> $\nA->A# f -> $\nx . f\t x# f -> $\n" ∧
      wide.located.map (fun l => l.span.extract wide.text) = wide.words ∧
      (Start.term.parse narrow.text).toOption = some t ∧
      (Start.term.parse wide.text).toOption = some t := by
  intro name blank remark narrow wide type t
  have hnarrow : (Start.term.parse narrow.text).toOption = some t := by decide +kernel
  have htokens : narrow.tokens = wide.tokens := by decide
  refine ⟨by decide +kernel, by decide +kernel, (scan_and_parse_text.1 wide).2.2, hnarrow, ?_⟩
  rw [← scan_and_parse_text.2 narrow wide htokens .term, hnarrow]

end Layout

end LambdaShell
