import LambdaShell.Proofs.Concrete.Acceptance

/-!
# Concrete syntax — where an error is reported

What the answer to a text has to be is said here without a reader. The
tokens before the first illegal character are what counts. If they stop
being the beginning of a sentence somewhere, the token with which they do is
unexpected, and it does not matter what stands behind it. If they are the
beginning of a sentence, the illegal character is reported, and without one
the end of the text, unless the tokens are a sentence already.

A reader refuses the first token it has no state for. That this is the token
where the tokens stop being the beginning of a sentence, and not a later or
an earlier one, is `Reader.Recognizes.viable_iff`: a reader that recognizes
a grammar has a state exactly as long as some sentence goes on.
-/

namespace LambdaShell

/-- **A token stands in a text** where its span says, spelled as it can be. -/
def Located.StandsIn (t : Located) (source : String) : Prop :=
  ∃ before word after, source.toList = before ++ (word ++ after) ∧
    Token.Spelling word t.token ∧ t.span = ⟨before.length, before.length + word.length⟩

namespace Grammar

/-! ## What is to be reported -/

/-- What begins the beginning of a sentence begins the sentence. -/
theorem Viable.of_isPrefix {symbol : Symbol} {tokens : List Located}
    (h : Viable symbol (tokens.map Located.token)) :
    ∀ ts, ts <+: tokens → Viable symbol (ts.map Located.token) := by
  rintro ts ⟨us, rfl⟩
  obtain ⟨more, value, hvalue⟩ := h
  rw [List.map_append, List.append_assoc] at hvalue
  exact ⟨us.map Located.token ++ more, value, hvalue⟩

/-- **The shortest part of the tokens that begins no sentence** ends with the given
token. -/
structure Breaks (symbol : Symbol) (tokens before : List Located) (t : Located) : Prop where
  within : before ++ [t] <+: tokens
  viable : ∀ ts, ts <+: before → Viable symbol (ts.map Located.token)
  refused : ¬ Viable symbol ((before ++ [t]).map Located.token)

/-- The answer is an error with this message and this place in the text. -/
def Fails {α : Type} (answer : Except SyntaxError α) (source message : String) (span : Span) :
    Prop :=
  ∃ e, answer = .error e ∧ e.diagnostic = ⟨message, span, some source⟩

/-- **The right answer to a text** that divides as the scan says. -/
structure Reports (symbol : Symbol) (source : String) (scan : Scan)
    (answer : Except SyntaxError symbol.Value) : Prop where
  /-- The first token with which no sentence goes on is unexpected. -/
  token : (∃ ts, ts <+: scan.tokens ∧ ¬ Viable symbol (ts.map Located.token)) →
    ∃ before t, Breaks symbol scan.tokens before t ∧ t.StandsIn source ∧
      Fails answer source "Unexpected token" t.span
  /-- Without one, the illegal character is. -/
  character : (∀ ts, ts <+: scan.tokens → Viable symbol (ts.map Located.token)) →
    ∀ place c, scan.illegal = some (place, c) → source.toList[place]? = some c ∧
      Fails answer source ("Unexpected character " ++ Text.quoted (String.ofList [c]))
        ⟨place, place + 1⟩
  /-- Without either, the end is, where no sentence ends. -/
  ending : (∀ ts, ts <+: scan.tokens → Viable symbol (ts.map Located.token)) →
    scan.illegal = none → (∀ value, ¬ Derives symbol (scan.tokens.map Located.token) value) →
      Fails answer source "Unexpected end of input" ⟨source.length, source.length⟩
  /-- A sentence has its value. -/
  value : (∀ ts, ts <+: scan.tokens → Viable symbol (ts.map Located.token)) →
    scan.illegal = none → ∀ value, Derives symbol (scan.tokens.map Located.token) value →
      answer = .ok value

end Grammar

/-! ## What a reader reports -/

namespace Reader

open Grammar (Symbol Derives Viable Breaks Fails Reports)

variable {σ : Type}

/-- **Where a reader stops**: at a token that it refuses, after others that it takes. -/
theorem exists_of_feed_eq_error {α : Type} {r : Reader σ α} {state : σ} {tokens : List Located}
    {span : Span} (h : r.feed state tokens = .error span) :
    ∃ before t state', before ++ [t] <+: tokens ∧
      r.run state (before.map Located.token) = some state' ∧ r.step state' t.token = none ∧
        t.span = span := by
  induction tokens generalizing state with
  | nil => cases h
  | cons t tokens ih =>
    rw [feed] at h
    split at h
    · rename_i next hnext
      obtain ⟨before, t', state', hwithin, hrun, hrest⟩ := ih h
      refine ⟨t :: before, t', state', ?_, ?_, hrest⟩
      · exact (List.prefix_cons_inj t).2 hwithin
      · rw [List.map_cons, run_cons, hnext, Option.bind_some, hrun]
    · rename_i hnone
      cases h
      exact ⟨[], t, state, by simp, rfl, hnone, rfl⟩

variable {symbol : Symbol} {r : Reader σ symbol.Value}

/-- Tokens that are all taken begin a sentence. -/
theorem Recognizes.viable_of_feed (h : r.Recognizes (Derives symbol)) {tokens : List Located}
    {state : σ} (hfeed : r.feed r.start tokens = .ok state) :
    Viable symbol (tokens.map Located.token) :=
  h.viable_iff.2 ⟨state, r.feed_eq_ok_iff.1 hfeed⟩

/-- **A reader stops at the first token with which no sentence goes on.** -/
theorem Recognizes.breaks_of_feed (h : r.Recognizes (Derives symbol)) {tokens : List Located}
    {span : Span} (hfeed : r.feed r.start tokens = .error span) :
    ∃ before t, Breaks symbol tokens before t ∧ t.span = span := by
  obtain ⟨before, t, state, hwithin, hrun, hnone, hspan⟩ := exists_of_feed_eq_error hfeed
  have hbefore := h.viable_of_feed (r.feed_eq_ok_iff.2 hrun)
  refine ⟨before, t, ⟨hwithin, hbefore.of_isPrefix, ?_⟩, hspan⟩
  intro hviable
  obtain ⟨state', hrun'⟩ := h.viable_iff.1 hviable
  rw [List.map_append, run_append, hrun, Option.bind_some, List.map_singleton, run_cons, hnone]
    at hrun'
  cases hrun'

/-- Tokens that begin a sentence, and all parts of which do, are all taken. -/
theorem Recognizes.feed_of_viable (h : r.Recognizes (Derives symbol)) {tokens : List Located}
    (hviable : ∀ ts, ts <+: tokens → Viable symbol (ts.map Located.token)) :
    ∃ state, r.feed r.start tokens = .ok state := by
  cases hfeed : r.feed r.start tokens with
  | ok state => exact ⟨state, rfl⟩
  | error span =>
    obtain ⟨before, t, hbreaks, -⟩ := h.breaks_of_feed hfeed
    exact absurd (hviable _ hbreaks.within) hbreaks.refused

/-- **A reader that recognizes a grammar gives the right answer.** -/
theorem Recognizes.reports (h : r.Recognizes (Derives symbol)) (source : String) :
    Reports symbol source (Scan.ofText source) (r.read source) where
  token := by
    rintro ⟨ts, hts, hrefused⟩
    cases hfeed : r.feed r.start (Scan.ofText source).tokens with
    | ok state => exact absurd ((h.viable_of_feed hfeed).of_isPrefix ts hts) hrefused
    | error span =>
      obtain ⟨before, t, hbreaks, hspan⟩ := h.breaks_of_feed hfeed
      have hmem : t ∈ (Scan.ofText source).tokens := hbreaks.within.subset (by simp)
      obtain ⟨pre, word, post, hsource, hword, hplace⟩ :=
        (Scan.lexes_ofChars 0 source.toList).span_eq t hmem
      rw [Nat.zero_add] at hplace
      refine ⟨before, t, hbreaks, ⟨pre, word, post, hsource, hword, hplace⟩, ?_⟩
      have hread : r.read source = .error ⟨.unexpectedToken, span, source⟩ := by
        simp only [read, hfeed]
      exact ⟨_, hread, by rw [hspan]; rfl⟩
  character := by
    intro hviable place c hillegal
    obtain ⟨state, hfeed⟩ := h.feed_of_viable hviable
    obtain ⟨pre, post, hsource, hplace⟩ :=
      (Scan.lexes_ofChars 0 source.toList).illegal_eq hillegal
    have hread : r.read source =
        .error ⟨.unexpectedCharacter c, ⟨place, place + 1⟩, source⟩ := by
      simp only [read, hfeed, hillegal]
    refine ⟨?_, _, hread, rfl⟩
    rw [hsource, hplace]
    simp
  ending := by
    intro hviable hillegal hnone
    obtain ⟨state, hfeed⟩ := h.feed_of_viable hviable
    have hresult : r.result state = none := by
      cases hvalue : r.result state with
      | none => rfl
      | some value =>
        have hsentence := valueFrom_eq_some_iff.2 ⟨state, r.feed_eq_ok_iff.1 hfeed, hvalue⟩
        exact absurd (h.sound hsentence) (hnone value)
    have hread : r.read source =
        .error ⟨.unexpectedEnd, ⟨source.length, source.length⟩, source⟩ := by
      simp only [read, hfeed, hillegal, hresult]
    exact ⟨_, hread, rfl⟩
  value := by
    intro _ hillegal value hvalue
    exact r.read_eq_ok_iff.2 ⟨hillegal, valueFrom_eq_some_iff.1 (h.complete hvalue)⟩

end Reader

/-! ## Texts -/

namespace Grammar

/-- **Errors are reported at the earliest point.** A text divides into tokens in one
way, and whatever it is read as, the answer is the right one for them. -/
theorem parse_reports (source : String) :
    ∃ scan, Scan.Lexes 0 source.toList scan ∧
      (∀ other, Scan.Lexes 0 source.toList other → other = scan) ∧
      ∀ start : Start, start.Admits source →
        Reports start.symbol source scan (start.parse source) := by
  refine ⟨Scan.ofText source, Scan.lexes_ofChars 0 source.toList, ?_, ?_⟩
  · intro other hother
    exact hother.ofChars_eq.symm
  · intro start hsource
    obtain ⟨σ, r, hrecognizes, hread⟩ := start.exists_reader
    rw [hread source hsource]
    exact hrecognizes.reports source

/-- A term that is not closed where an illegal character comes: the character is
reported, with its place, and not the end. -/
theorem parse_reports_dollar :
    Start.term.Admits "(λx. $" ∧
      Fails (Term.parse "(λx. $") "(λx. $" "Unexpected character \x27$\x27" ⟨5, 6⟩ := by
  have hadmits : Start.term.Admits "(λx. $" := fun h => by cases h
  refine ⟨hadmits, ?_⟩
  obtain ⟨scan, hscan, -, hreports⟩ := parse_reports "(λx. $"
  have heq : Scan.ofText "(λx. $" = ⟨[⟨.lparen, ⟨0, 1⟩⟩, ⟨.lambda, ⟨1, 2⟩⟩, ⟨.ident "x", ⟨2, 3⟩⟩,
      ⟨.dot, ⟨3, 4⟩⟩], some (5, '$')⟩ := by decide +kernel
  obtain rfl := hscan.ofChars_eq.symm.trans heq
  have hlam : Derives .lam [.lambda, .ident "x", .dot, .ident "x"] (.lam "x" none (.var "x")) :=
    .lam (.oneBinder (.binderName "x")) (.termApp (.appAtom (.atomName "x")))
  have hviable : Viable .term [.lparen, .lambda, .ident "x", .dot] :=
    ⟨[.ident "x", .rparen], _, .termApp (.appAtom (.atomGroup (.termLam hlam)))⟩
  have hquoted : "Unexpected character " ++ Text.quoted (String.ofList ['$']) =
      "Unexpected character \x27$\x27" := by decide +kernel
  have hfails := ((hreports .term hadmits).character hviable.of_isPrefix 5 '$' rfl).2
  rwa [hquoted] at hfails

end Grammar

end LambdaShell
