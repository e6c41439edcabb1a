import LambdaShell.Proofs.Concrete.Completeness

/-!
# Concrete syntax — what is accepted

The readers recognize the grammar. That they read no more and no less than
it derives is known by now; what is left is that they are never in a dead
end. From any state some tokens complete a sentence, and it is always clear
which: a name where something has to come, a dot after the binders, and
parentheses until nothing waits any more.

A text is therefore read as a value exactly when it divides into tokens and
the tokens derive the value, and they derive no other
(`Grammar.parse_eq_ok_iff`).
-/

namespace LambdaShell

open Grammar (Derives Start)

/-! ## Types -/

namespace TypeReader

/-- **Parentheses close whatever waits** for a type. -/
theorem exists_closing (frames : List Frame) (τ : SimpleType) :
    ∃ n value, typeReader.valueFrom ⟨frames, some τ⟩ (List.replicate n .rparen) = some value := by
  induction frames generalizing τ with
  | nil => exact ⟨0, τ, rfl⟩
  | cons frame frames ih =>
    cases frame with
    | group =>
      obtain ⟨n, value, hvalue⟩ := ih τ
      exact ⟨n + 1, value, hvalue⟩
    | domain σ =>
      -- the arrow is closed with the first parenthesis, or at the end
      obtain ⟨n, value, hvalue⟩ := ih (.arrow σ τ)
      refine ⟨n, value, ?_⟩
      cases n with
      | zero => exact hvalue
      | succ n => exact hvalue

theorem live (state : State) : typeReader.Live state := by
  obtain ⟨frames, operand⟩ := state
  have hsome : ∀ τ, typeReader.Live ⟨frames, some τ⟩ := by
    intro τ
    obtain ⟨n, value, hvalue⟩ := exists_closing frames τ
    exact ⟨_, value, hvalue⟩
  cases operand with
  | some τ => exact hsome τ
  | none =>
    have hname : typeReader.step ⟨frames, none⟩ (.ident "A") =
        some ⟨frames, some (.base "A")⟩ := rfl
    exact Reader.live_of_step hname (hsome _)

/-- **The reader of types recognizes them.** -/
theorem recognizes : typeReader.Recognizes (Derives .type) where
  sound := Reader.value_sound read_start Read.step Read.result
  complete {ts τ} h := by
    have htakes : TakesType ts τ := takes_of_derives h
    obtain ⟨frames, τ', hrun, hclose⟩ := htakes []
    exact Reader.valueFrom_eq_some_iff.2 ⟨_, hrun, result_of_closeArrows hclose⟩
  live := live

end TypeReader

/-! ## Terms -/

namespace TermReader

/-- **Parentheses close whatever waits** for a term. -/
theorem exists_closing (frames : List Frame) (t : Term) :
    ∃ n value, termReader.valueFrom ⟨frames, .spine (some t)⟩ (List.replicate n .rparen) =
      some value := by
  induction frames generalizing t with
  | nil => exact ⟨0, t, rfl⟩
  | cons frame frames ih =>
    cases frame with
    | group fn =>
      obtain ⟨n, value, hvalue⟩ := ih (join fn t)
      exact ⟨n + 1, value, hvalue⟩
    | body h =>
      -- the body is closed with the first parenthesis, or at the end
      obtain ⟨n, value, hvalue⟩ := ih (join h.fn (abstractOver h.binders t))
      refine ⟨n, value, ?_⟩
      cases n with
      | zero => exact hvalue
      | succ n => exact hvalue

theorem live_spine (frames : List Frame) (fn : Option Term) :
    termReader.Live ⟨frames, .spine fn⟩ := by
  have hsome : ∀ t, termReader.Live ⟨frames, .spine (some t)⟩ := by
    intro t
    obtain ⟨n, value, hvalue⟩ := exists_closing frames t
    exact ⟨_, value, hvalue⟩
  have hname : termReader.step ⟨frames, .spine fn⟩ (.ident "x") =
      some ⟨frames, .spine (some (join fn (.var "x")))⟩ := rfl
  exact Reader.live_of_step hname (hsome _)

/-- After a binder the dot can come. -/
theorem live_of_ends {state : State} {frames : List Frame} {h : Header} {b : Binder}
    (hends : Ends state frames (h.add b)) : termReader.Live state := by
  have hdot : step state .dot = some ⟨.body (h.add b) :: frames, .spine none⟩ := by
    rw [hends .dot (by simp) (by simp) (by simp)]
    rfl
  exact Reader.live_of_step hdot (live_spine _ _)

theorem live_header (frames : List Frame) (h : Header) : termReader.Live ⟨frames, .header h⟩ := by
  have hname : termReader.step ⟨frames, .header h⟩ (.ident "x") = some ⟨frames, .name h "x"⟩ := rfl
  exact Reader.live_of_step hname (live_of_ends (ends_name frames h "x"))

/-- The type of a binder is completed as a type alone is. -/
theorem live_declared (frames : List Frame) (h : Header) (x : String) (grouped : Bool)
    (type : TypeReader.State) : termReader.Live ⟨frames, .declared h x grouped type⟩ := by
  obtain ⟨tokens, τ, hvalue⟩ := TypeReader.live type
  obtain ⟨type', hrun, hτ⟩ := Reader.valueFrom_eq_some_iff.1 hvalue
  refine Reader.live_of_run (run_declared frames h x grouped hrun) ?_
  cases grouped with
  | false => exact live_of_ends (ends_declared hτ frames h x)
  | true => exact Reader.live_of_step (step_groupDeclared hτ frames h x) (live_header frames _)

theorem live (state : State) : termReader.Live state := by
  obtain ⟨frames, mode⟩ := state
  have hgroupName : ∀ h x, termReader.Live ⟨frames, .groupName h x⟩ := by
    intro h x
    have hcolon : termReader.step ⟨frames, .groupName h x⟩ .colon =
        some ⟨frames, .declared h x true TypeReader.start⟩ := rfl
    exact Reader.live_of_step hcolon (live_declared _ _ _ _ _)
  cases mode with
  | spine fn => exact live_spine frames fn
  | header h => exact live_header frames h
  | name h x => exact live_of_ends (ends_name frames h x)
  | groupOpen h =>
    have hname : termReader.step ⟨frames, .groupOpen h⟩ (.ident "x") =
        some ⟨frames, .groupName h "x"⟩ := rfl
    exact Reader.live_of_step hname (hgroupName h "x")
  | groupName h x => exact hgroupName h x
  | declared h x grouped type => exact live_declared frames h x grouped type

/-- **The reader of terms recognizes them.** -/
theorem recognizes : termReader.Recognizes (Derives .term) where
  sound := Reader.value_sound read_start Read.step Read.result
  complete {ts t} h := by
    have htakes : TakesTerm ts t := takes_of_derives h
    exact Reader.valueFrom_eq_some_iff.2 htakes.exists_result
  live := live

end TermReader

/-! ## Statements -/

namespace StatementReader

theorem Follows.live {target : Option String} {inner : TermReader.State} {state : State}
    (h : Follows target inner state) : statementReader.Live state := by
  obtain ⟨tokens, t, hvalue⟩ := TermReader.live inner
  obtain ⟨inner', hrun, ht⟩ := Reader.valueFrom_eq_some_iff.1 hvalue
  obtain ⟨state', hrun', hfollows⟩ := h.run hrun
  exact Reader.live_of_run hrun' (Reader.live_of_result (hfollows.result ht).1)

/-- **The reader of statements recognizes them.** -/
theorem recognizes : statementReader.Recognizes (Derives .statement) where
  sound := Reader.value_sound Read.start Read.step Read.result
  complete h := takes_of_derives h
  live
    | .start => (Follows.start rfl).live
    | .name x => (Follows.name rfl x).live
    | .body _ inner => (Follows.body inner).live
    | .ended _ => Reader.live_of_result rfl

end StatementReader

/-! ## Libraries -/

namespace LibraryReader

theorem live_between (done : List Definition) : libraryReader.Live (.between done) :=
  Reader.live_of_result rfl

theorem live_body (done : List Definition) (x : String) (inner : TermReader.State) :
    libraryReader.Live (.body done x inner) := by
  obtain ⟨tokens, t, hvalue⟩ := TermReader.live inner
  obtain ⟨inner', hrun, ht⟩ := Reader.valueFrom_eq_some_iff.1 hvalue
  have hsemicolon : libraryReader.step (.body done x inner') .semicolon =
      some (.between (⟨x, t⟩ :: done)) := step_semicolon done x ht
  exact Reader.live_of_run (run_body done x hrun) (Reader.live_of_step hsemicolon (live_between _))

/-- **The reader of libraries recognizes them.** -/
theorem recognizes : libraryReader.Recognizes (Derives .library) where
  sound := Reader.value_sound (.between .noDefinitions) Read.step Read.result
  complete h := takes_of_derives h
  live
    | .between done => live_between done
    | .name done x => by
      have hequals : libraryReader.step (.name done x) .equals =
          some (.body done x TermReader.start) := rfl
      exact Reader.live_of_step hequals (live_body done x _)
    | .body done x inner => live_body done x inner

end LibraryReader

/-! ## Texts -/

namespace Grammar

/-- **A text is read by a reader that recognizes its sentences**, whatever it is read
as. -/
theorem Start.exists_reader (start : Start) :
    ∃ (σ : Type) (r : Reader σ start.symbol.Value), r.Recognizes (Derives start.symbol) ∧
      ∀ source, start.Admits source → start.parse source = r.read source := by
  cases start with
  | term => exact ⟨_, termReader, TermReader.recognizes, fun _ _ => rfl⟩
  | type => exact ⟨_, typeReader, TypeReader.recognizes, fun _ _ => rfl⟩
  | statement => exact ⟨_, statementReader, StatementReader.recognizes, fun _ _ => rfl⟩
  | library =>
    refine ⟨_, libraryReader, LibraryReader.recognizes, ?_⟩
    intro source hsource
    have hblank : ¬ Text.allBlank source = true := by simp [hsource rfl]
    exact if_neg hblank

/-- **The grammar is what is read.** A text is read as a value exactly when it
divides into tokens and these derive the value. The grammar is unambiguous: tokens
derive one value at most. -/
theorem parse_eq_ok_iff (start : Start) :
    (∀ source, start.Admits source → ∀ value, start.parse source = .ok value ↔
      ∃ tokens : List Located, Scan.Lexes 0 source.toList ⟨tokens, none⟩ ∧
        Derives start.symbol (tokens.map Located.token) value) ∧
    ∀ tokens value value', Derives start.symbol tokens value →
      Derives start.symbol tokens value' → value = value' := by
  obtain ⟨σ, r, hrecognizes, hread⟩ := start.exists_reader
  refine ⟨?_, ?_⟩
  · intro source hsource value
    rw [hread source hsource]
    exact hrecognizes.read_eq_ok_iff
  · intro tokens value value' hvalue hvalue'
    exact hrecognizes.value_unique hvalue hvalue'

/-- A library of one definition, with a comment after it: two binders, an
application, and an abstraction that ends it. -/
theorem parse_eq_ok_iff_const :
    let source := "k = λx y:A. f x λz. z; # a comment"
    let tokens : List Token :=
      [.ident "k", .equals, .lambda, .ident "x", .ident "y", .colon, .ident "A", .dot,
        .ident "f", .ident "x", .lambda, .ident "z", .dot, .ident "z", .semicolon]
    let body : Term := .app (.app (.var "f") (.var "x")) (.lam "z" none (.var "z"))
    let k : Term := .lam "x" none (.lam "y" (some (.simple (.base "A"))) body)
    Start.library.Admits source ∧ Definition.parseAll source = .ok [⟨"k", k⟩] ∧
      ∀ ds, Derives .library tokens ds → ds = [⟨"k", k⟩] := by
  intro source tokens body k
  have hadmits : Start.library.Admits source := fun _ => by decide +kernel
  have happ : Derives .app [.ident "f", .ident "x"] (.app (.var "f") (.var "x")) :=
    .app (.appAtom (.atomName "f")) (.atomName "x")
  have hlam : Derives .lam [.lambda, .ident "z", .dot, .ident "z"] (.lam "z" none (.var "z")) :=
    .lam (.oneBinder (.binderName "z")) (.termApp (.appAtom (.atomName "z")))
  have hbinders : Derives .binders [.ident "x", .ident "y", .colon, .ident "A"]
      [⟨"x", none⟩, ⟨"y", some (.base "A")⟩] :=
    .binders (.oneBinder (.binderName "x"))
      (.binderDeclared "y" (.typeOperand (.operandName "A")))
  have hterm := Derives.termLam (.lam hbinders (.termAppLam happ hlam))
  have hlibrary : Derives .library tokens [⟨"k", k⟩] :=
    .library (.definitions .noDefinitions (.definition "k" hterm))
  have hlexes : Scan.Lexes 0 source.toList (Scan.ofText source) := Scan.lexes_ofChars 0 _
  have hscan : Scan.ofText source = ⟨(Scan.ofText source).tokens, none⟩ := by decide +kernel
  have htokens : (Scan.ofText source).tokens.map Located.token = tokens := by decide +kernel
  rw [hscan] at hlexes
  refine ⟨hadmits, ((parse_eq_ok_iff .library).1 source hadmits _).2 ⟨_, hlexes, ?_⟩, ?_⟩
  · rw [htokens]
    exact hlibrary
  · intro ds hds
    exact (parse_eq_ok_iff .library).2 tokens ds _ hds hlibrary

end Grammar

end LambdaShell
