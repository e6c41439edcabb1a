import LambdaShell.Latex
import LambdaShell.Proofs.Concrete.RoundTrip

/-!
# LaTeX — the marks of a text

A type, a term or a context in LaTeX is a sequence of marks: names, which are
set as words if they are longer than a character, commands such as `\to`,
punctuation and blanks. No mark begins another one, so that a text divides
into its marks in one way, and a mark that does not occur in a part of the
text shows where this part ends (`eq_of_spell_until`).

The marks of a type or a term are those of its written form in the plain
syntax, but for the spelling and a mark between a function and its argument.
What that syntax can read back, LaTeX can tell apart (`eq_of_termMarks_eq`).
-/

namespace LambdaShell

namespace Latex

/-- **The marks of a LaTeX text.** -/
inductive Mark where
  | name (x : String)
  | lambda
  /-- The colon between a binder and its type. -/
  | colon
  | dot
  | arrow
  | lparen
  | rparen
  /-- The blank between a function and its argument. -/
  | blank
  /-- The colon between a term or a name and its type. -/
  | typed
  | comma
  | turnstile
  /-- The empty context. -/
  | nothing
deriving DecidableEq, Repr

namespace Mark

/-- **How a mark is written.** -/
def text : Mark → String
  | name x => Latex.name x
  | lambda => "\\lambda "
  | colon => braced ":"
  | dot => ".\\, "
  | arrow => " \\to "
  | lparen => "("
  | rparen => ")"
  | blank => "\\ "
  | typed => " : "
  | comma => ", "
  | turnstile => " \\vdash "
  | nothing => "\\emptyset"

/-- The characters of a mark. -/
def spell (m : Mark) : List Char := m.text.toList

/-- The token of a mark in the plain syntax, if there is one. -/
def token? : Mark → Option Token
  | name x => some (.ident x)
  | lambda => some .lambda
  | colon => some .colon
  | dot => some .dot
  | arrow => some .arrow
  | lparen => some .lparen
  | rparen => some .rparen
  | _ => none

/-- Whether a name, if the mark is one, is a name of the language. -/
def wellNamed : Mark → Bool
  | name x => Token.isName x
  | _ => true

/-- Whether a mark can be in a type or a term. -/
def inTerm : Mark → Bool
  | name x => Token.isName x
  | typed | comma | turnstile | nothing => false
  | _ => true

theorem wellNamed_of_inTerm {m : Mark} (h : m.inTerm = true) : m.wellNamed = true := by
  cases m with
  | name x => exact h
  | _ => rfl

/-! ## No mark begins another -/

/-- **The first mark of a text**, and what comes after it. Two characters tell which it
is, three after a blank; the others are passed over. -/
def read? : List Char → Option (Mark × List Char)
  | '\\' :: 'm' :: rest =>
    let word := rest.drop 6
    some (name (String.ofList ((word.takeWhile (· ≠ '\x7d')).filter (· ≠ '\\'))),
      (word.dropWhile (· ≠ '\x7d')).drop 1)
  | '\\' :: 'l' :: rest => some (lambda, rest.drop 6)
  | '\\' :: 'e' :: rest => some (nothing, rest.drop 7)
  | '\\' :: '_' :: rest => some (name "_", rest)
  | '\\' :: ' ' :: rest => some (blank, rest)
  | '\x7b' :: rest => some (colon, rest.drop 2)
  | '.' :: rest => some (dot, rest.drop 3)
  | '(' :: rest => some (lparen, rest)
  | ')' :: rest => some (rparen, rest)
  | ',' :: rest => some (comma, rest.drop 1)
  | ' ' :: ':' :: rest => some (typed, rest.drop 1)
  | ' ' :: '\\' :: 't' :: rest => some (arrow, rest.drop 2)
  | ' ' :: '\\' :: 'v' :: rest => some (turnstile, rest.drop 5)
  | c :: rest => some (name (String.ofList [c]), rest)
  | [] => none

theorem toList_escape (s : String) : (escape s).toList = s.toList.flatMap escapeChar :=
  String.toList_ofList

/-- The characters of a name, escaped: only the underscore has to be. -/
theorem escapeChar_of_isNameChar {c : Char} (h : Token.isNameChar c = true) :
    escapeChar c = if c = '_' then ['\\', '_'] else [c] := by
  have hne := Token.ne_of_class h
  unfold escapeChar
  by_cases hc : c = '_'
  · simp [hc]
  · simp [hc, hne '&' (by decide), hne '%' (by decide), hne '$' (by decide), hne '#' (by decide)]

/-- **An escaped word is read back** by leaving out the backslashes, and no brace is in it. -/
theorem escape_word {cs : List Char} (h : ∀ c ∈ cs, Token.isNameChar c = true) :
    (cs.flatMap escapeChar).filter (· ≠ '\\') = cs ∧ '\x7d' ∉ cs.flatMap escapeChar := by
  induction cs with
  | nil => simp
  | cons c cs ih =>
    obtain ⟨hfilter, hbrace⟩ := ih fun d hd => h d (List.mem_cons_of_mem _ hd)
    have hc := h c List.mem_cons_self
    have hslash : c ≠ '\\' := Token.ne_of_class hc _ (by decide)
    have hclose : '\x7d' ≠ c := (Token.ne_of_class hc _ (by decide)).symm
    rw [List.flatMap_cons, escapeChar_of_isNameChar hc, List.filter_append, hfilter]
    split
    · rename_i hunderscore
      exact ⟨by simp [hunderscore], by simp [hbrace]⟩
    · exact ⟨by simp [hslash], by simp [hbrace, hclose]⟩

/-- A letter stands for itself. -/
theorem read?_letter {c : Char} (hc : Token.isNameStart c = true) (r : List Char) :
    read? (c :: r) = some (name (String.ofList [c]), r) := by
  have hne := Token.ne_of_class hc
  have hslash := hne '\\' (by decide)
  have hblank := hne ' ' (by decide)
  have hopen := hne '\x7b' (by decide)
  have hdot := hne '.' (by decide)
  have hlparen := hne '(' (by decide)
  have hrparen := hne ')' (by decide)
  have hcomma := hne ',' (by decide)
  unfold read?
  split <;> simp_all

theorem read?_word {cs : List Char} (h : ∀ c ∈ cs, Token.isNameChar c = true) (r : List Char) :
    read? ("\\mathit\x7b".toList ++ (cs.flatMap escapeChar ++ '\x7d' :: r)) =
      some (name (String.ofList cs), r) := by
  obtain ⟨hfilter, hbrace⟩ := escape_word h
  have hall : ∀ c ∈ cs.flatMap escapeChar, decide (c ≠ '\x7d') = true := by
    intro c hc
    exact decide_eq_true fun e => hbrace (e ▸ hc)
  have hread : ∀ word, read? ("\\mathit\x7b".toList ++ word) =
      some (name (String.ofList ((word.takeWhile (· ≠ '\x7d')).filter (· ≠ '\\'))),
        (word.dropWhile (· ≠ '\x7d')).drop 1) := fun _ => rfl
  rw [hread, List.takeWhile_append_of_pos hall, List.dropWhile_append_of_pos hall,
    List.filter_append, hfilter]
  simp

/-- **A name is read back**, whatever follows it. -/
theorem read?_name {x : String} (hx : Token.isName x = true) (r : List Char) :
    read? ((name x).spell ++ r) = some (name x, r) := by
  by_cases hlength : 1 < x.length
  · have hclosing : "\x7d".toList = ['\x7d'] := by decide
    have hopening : "\\mathit" ++ "\x7b" = "\\mathit\x7b" := by decide
    have hspell : (name x).spell ++ r =
        "\\mathit\x7b".toList ++ (x.toList.flatMap escapeChar ++ '\x7d' :: r) := by
      rw [spell, text, Latex.name, if_pos hlength, braced, ← String.append_assoc,
        ← String.append_assoc, hopening, String.toList_append, String.toList_append,
        toList_escape, List.append_assoc, List.append_assoc, hclosing, List.singleton_append]
    rw [hspell, read?_word fun c => Token.isNameChar_of_isName hx, String.ofList_toList]
  · -- a name that is not longer than a character is a letter or an underscore
    obtain ⟨c, cs, hcs, hstart, -⟩ := Token.isName_iff.1 hx
    obtain rfl : cs = [] := by
      have hcount : x.length = (c :: cs).length := by rw [← hcs, String.length_toList]
      rw [List.length_cons] at hcount
      exact List.eq_nil_of_length_eq_zero (by omega)
    have hspell : (name x).spell = escapeChar c := by
      rw [spell, text, Latex.name, if_neg hlength, toList_escape, hcs, List.flatMap_singleton]
    have hname : name x = name (String.ofList [c]) := by rw [← hcs, String.ofList_toList]
    rw [hspell, hname, escapeChar_of_isNameChar (Token.isNameChar_of_isNameStart hstart)]
    split
    · rename_i hunderscore
      subst hunderscore
      rfl
    · exact read?_letter hstart r

/-- **A mark is read back**, whatever follows it. -/
theorem read?_spell {m : Mark} (h : m.wellNamed = true) (r : List Char) :
    read? (m.spell ++ r) = some (m, r) := by
  cases m with
  | name x => exact read?_name h r
  | _ => rfl

/-- **No mark begins another**: from what follows, the mark and the rest can be told. -/
theorem eq_of_spell_append {m n : Mark} {r s : List Char} (hm : m.wellNamed = true)
    (hn : n.wellNamed = true) (h : m.spell ++ r = n.spell ++ s) : m = n ∧ r = s := by
  have hread := read?_spell hm r
  rw [h, read?_spell hn] at hread
  obtain ⟨rfl, rfl⟩ := Prod.mk.inj (Option.some.inj hread)
  exact ⟨rfl, rfl⟩

/-- **A mark that is not in them ends the marks before it.** -/
theorem eq_of_spell_until (stop : Mark) (hstop : stop.wellNamed = true) {ms ns : List Mark}
    {r s : List Char} (hms : ∀ m ∈ ms, m.wellNamed = true ∧ m ≠ stop)
    (hns : ∀ n ∈ ns, n.wellNamed = true ∧ n ≠ stop)
    (h : ms.flatMap spell ++ (stop.spell ++ r) = ns.flatMap spell ++ (stop.spell ++ s)) :
    ms = ns ∧ r = s := by
  induction ms generalizing ns with
  | nil =>
    cases ns with
    | nil => exact ⟨rfl, (eq_of_spell_append hstop hstop h).2⟩
    | cons n ns =>
      obtain ⟨hn, hne⟩ := hns n List.mem_cons_self
      rw [List.flatMap_cons, List.append_assoc] at h
      exact absurd (eq_of_spell_append hstop hn h).1.symm hne
  | cons m ms ih =>
    obtain ⟨hm, hne⟩ := hms m List.mem_cons_self
    rw [List.flatMap_cons, List.append_assoc] at h
    cases ns with
    | nil => exact absurd (eq_of_spell_append hm hstop h).1 hne
    | cons n ns =>
      rw [List.flatMap_cons, List.append_assoc] at h
      obtain ⟨rfl, hrest⟩ := eq_of_spell_append hm (hns n List.mem_cons_self).1 h
      obtain ⟨rfl, hrs⟩ := ih (fun m hm => hms m (List.mem_cons_of_mem _ hm))
        (fun n hn => hns n (List.mem_cons_of_mem _ hn)) hrest
      exact ⟨rfl, hrs⟩

/-- **A text divides into marks in one way.** -/
theorem eq_of_flatMap_spell_eq {ms ns : List Mark}
    (hms : ∀ m ∈ ms, m.wellNamed = true ∧ m ≠ turnstile)
    (hns : ∀ n ∈ ns, n.wellNamed = true ∧ n ≠ turnstile)
    (h : ms.flatMap spell = ns.flatMap spell) : ms = ns :=
  (eq_of_spell_until turnstile (r := []) (s := []) rfl hms hns (by rw [h])).1

end Mark

/-! ## The marks of types and terms -/

/-- **The text has these marks**, and all of them can be in a term. -/
structure Marked (text : String) (marks : List Mark) : Prop where
  toList_eq : text.toList = marks.flatMap Mark.spell
  inTerm : ∀ m ∈ marks, m.inTerm = true

section Marked

variable {a b : String} {ms ns : List Mark}

theorem marked_text {m : Mark} (h : m.inTerm = true) : Marked m.text [m] where
  toList_eq := (List.flatMap_singleton Mark.spell m).symm
  inTerm := List.forall_mem_singleton.2 h

theorem Marked.append (ha : Marked a ms) (hb : Marked b ns) : Marked (a ++ b) (ms ++ ns) where
  toList_eq := by rw [String.toList_append, ha.toList_eq, hb.toList_eq, List.flatMap_append]
  inTerm := by
    intro m hm
    exact (List.mem_append.1 hm).elim (ha.inTerm m) (hb.inTerm m)

theorem Marked.forall_ne (h : Marked a ms) {stop : Mark} (hstop : stop.inTerm = false) :
    ∀ m ∈ ms, m.wellNamed = true ∧ m ≠ stop := by
  intro m hm
  refine ⟨Mark.wellNamed_of_inTerm (h.inTerm m hm), ?_⟩
  rintro rfl
  rw [h.inTerm m hm] at hstop
  cases hstop

/-- **The marks of a text can be told from it.** -/
theorem Marked.unique (h : Marked a ms) (h' : Marked a ns) : ms = ns := by
  refine Mark.eq_of_flatMap_spell_eq (h.forall_ne rfl) (h'.forall_ne rfl) ?_
  rw [← h.toList_eq, h'.toList_eq]

/-- Marks in parentheses, when they are asked for. -/
def grouped (wanted : Bool) (ms : List Mark) : List Mark :=
  if wanted then .lparen :: (ms ++ [.rparen]) else ms

theorem Marked.parenthesized (h : Marked a ms) (wanted : Bool) :
    Marked (parenthesized wanted a) (grouped wanted ms) := by
  cases wanted with
  | false => exact h
  | true =>
    have hopen := marked_text (m := .lparen) rfl
    exact (hopen.append h).append (marked_text (m := .rparen) rfl)

/-- **The tokens that marks stand for.** -/
def tokensOf (ms : List Mark) : List Token := ms.filterMap Mark.token?

@[simp] theorem tokensOf_append (ms ns : List Mark) :
    tokensOf (ms ++ ns) = tokensOf ms ++ tokensOf ns :=
  List.filterMap_append

theorem tokensOf_grouped (ms : List Mark) :
    tokensOf (grouped true ms) = Token.grouped (tokensOf ms) := by
  simp [tokensOf, grouped, Token.grouped, Mark.token?]

end Marked

/-- The marks of a simple type. -/
def typeMarks : SimpleType → List Mark
  | .base a => [.name a]
  | .arrow (.arrow σ τ) ρ => grouped true (typeMarks (.arrow σ τ)) ++ .arrow :: typeMarks ρ
  | .arrow (.base a) ρ => .name a :: .arrow :: typeMarks ρ

/-- The marks of an annotation, which has to be a type. -/
def declaredMarks : Option Ty → List Mark
  | some (.simple τ) => .colon :: typeMarks τ
  | _ => []

/-- The marks of a term. -/
def termMarks : Term → List Mark
  | .var x => [.name x]
  | .lam x a body => .lambda :: .name x :: (declaredMarks a ++ .dot :: termMarks body)
  | .app fn arg =>
    grouped (isLam fn) (termMarks fn) ++ .blank :: grouped (!isVar arg) (termMarks arg)

theorem marked_simpleType {τ : SimpleType} (hτ : τ.wellNamed = true) :
    Marked (simpleType τ) (typeMarks τ) := by
  have harrow : Marked " \\to " [.arrow] := marked_text (m := .arrow) rfl
  induction τ using SimpleType.text.induct with
  | case1 a => exact marked_text (m := .name a) hτ
  | case2 σ τ ρ ihd ihc =>
    rw [SimpleType.wellNamed, Bool.and_eq_true] at hτ
    have hdomain := (ihd hτ.1).parenthesized true
    have hsplit : ") \\to " = ")" ++ " \\to " := by decide
    rw [simpleType, hsplit, ← String.append_assoc]
    have h := (hdomain.append harrow).append (ihc hτ.2)
    rwa [List.append_assoc] at h
  | case3 a ρ ih =>
    rw [SimpleType.wellNamed, Bool.and_eq_true] at hτ
    exact ((marked_text (m := .name a) hτ.1).append harrow).append (ih hτ.2)

theorem marked_binder {x : String} {a : Option Ty} (hx : Token.isName x = true)
    (ha : a.all Ty.wellNamed = true) : Marked (binder x a) (.name x :: declaredMarks a) := by
  have hname : Marked (name x) [.name x] := marked_text (m := .name x) hx
  match a with
  | none => exact hname
  | some (.simple τ) =>
    exact (hname.append (marked_text (m := .colon) rfl)).append (marked_simpleType ha)
  | some (.fault _) => cases ha

theorem marked_term {t : Term} (ht : t.wellNamed = true) : Marked (term t) (termMarks t) := by
  induction t with
  | var x => exact marked_text (m := .name x) ht
  | lam x a body ih =>
    simp only [Term.wellNamed, Bool.and_eq_true] at ht
    have hbinder := (marked_text (m := .lambda) rfl).append (marked_binder ht.1.1 ht.1.2)
    have h := (hbinder.append (marked_text (m := .dot) rfl)).append (ih ht.2)
    rwa [List.append_assoc] at h
  | app fn arg ihf iha =>
    simp only [Term.wellNamed, Bool.and_eq_true] at ht
    have hfn := (ihf ht.1).parenthesized (isLam fn)
    have harg := (iha ht.2).parenthesized (!isVar arg)
    have h := (hfn.append (marked_text (m := .blank) rfl)).append harg
    rwa [List.append_assoc] at h

/-! ## What the marks stand for -/

theorem tokensOf_typeMarks (τ : SimpleType) : tokensOf (typeMarks τ) = τ.tokens := by
  induction τ using SimpleType.tokens.induct with
  | case1 a => rfl
  | case2 σ τ ρ ihd ihc =>
    rw [typeMarks, tokensOf_append, tokensOf_grouped, ihd, SimpleType.tokens, ← ihc]
    rfl
  | case3 a ρ ih =>
    rw [SimpleType.tokens, ← ih]
    rfl

theorem tokensOf_declaredMarks (a : Option Ty) :
    tokensOf (declaredMarks a) = Printer.declaredTokens a := by
  match a with
  | none => rfl
  | some (.simple τ) =>
    rw [Printer.declaredTokens, ← tokensOf_typeMarks]
    rfl
  | some (.fault _) => rfl

theorem tokensOf_termMarks (t : Term) : tokensOf (termMarks t) = t.tokens := by
  induction t with
  | var x => rfl
  | lam x a body ih =>
    rw [Term.tokens, ← tokensOf_declaredMarks, ← ih]
    simp [termMarks, tokensOf, Mark.token?]
  | app fn arg ihf iha =>
    have hfn : tokensOf (grouped (isLam fn) (termMarks fn)) =
        Printer.functionTokens fn.tightness fn.tokens := by
      rw [← ihf]
      cases fn with
      | var x => rfl
      | lam x a body => exact tokensOf_grouped _
      | app fn' arg' => rfl
    have harg : tokensOf (grouped (!isVar arg) (termMarks arg)) =
        Printer.argumentTokens arg.tightness arg.tokens := by
      rw [← iha]
      cases arg with
      | var x => rfl
      | lam x a body => exact tokensOf_grouped _
      | app fn' arg' => exact tokensOf_grouped _
    rw [termMarks, tokensOf_append, hfn, Term.tokens, ← harg]
    rfl

/-- **A type can be told from its marks.** -/
theorem eq_of_typeMarks_eq {σ τ : SimpleType} (h : typeMarks σ = typeMarks τ) : σ = τ := by
  obtain ⟨frames, σ', hrun, hclose⟩ := TypeReader.run_tokens σ []
  obtain ⟨frames', τ', hrun', hclose'⟩ := TypeReader.run_tokens τ []
  rw [← tokensOf_typeMarks, h, tokensOf_typeMarks, hrun'] at hrun
  cases hrun
  rw [hclose'] at hclose
  exact (Prod.mk.inj hclose).2.symm

/-- **A term can be told from its marks.** -/
theorem eq_of_termMarks_eq {t u : Term} (ht : t.wellNamed = true) (hu : u.wellNamed = true)
    (h : termMarks t = termMarks u) : t = u := by
  obtain ⟨frames, t', hrun, hclose, -⟩ := TermReader.takes_tokens ht []
  obtain ⟨frames', u', hrun', hclose', -⟩ := TermReader.takes_tokens hu []
  rw [← tokensOf_termMarks, h, tokensOf_termMarks, hrun'] at hrun
  cases hrun
  rw [hclose'] at hclose
  exact (Prod.mk.inj hclose).2.symm

end Latex

end LambdaShell
