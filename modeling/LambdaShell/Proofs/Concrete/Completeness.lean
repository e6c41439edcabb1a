import LambdaShell.Proofs.Concrete.RoundTrip
import LambdaShell.Proofs.Concrete.Soundness

/-!
# Concrete syntax — a reader reads all that the grammar derives

What a reader does with the tokens of a derivation, symbol by symbol and
from any state in which they can come. An operand of an arrow, an atom or an
application is there when its tokens are read. A type, an abstraction or a
term is not: its last arrows or bodies still wait, and what holds is that
closing them gives what closing would have given with the value itself in
their place. A binder is over only with the token after it, so that after
its tokens the reader goes on as it would from the header with one binder
more (`TermReader.Ends`).

There is one statement for each production, and the induction over
derivations puts them together (`takes_of_derives`).
-/

namespace LambdaShell

open Grammar (Derives Symbol)

/-! ## Types -/

namespace TypeReader

/-- The tokens of an operand leave it behind. -/
def TakesOperand (ts : List Token) (τ : SimpleType) : Prop :=
  ∀ frames, typeReader.run ⟨frames, none⟩ ts = some ⟨frames, some τ⟩

/-- The tokens of a type leave what makes the type once the arrows are closed. -/
def TakesType (ts : List Token) (τ : SimpleType) : Prop :=
  ∀ frames, ∃ frames' τ', typeReader.run ⟨frames, none⟩ ts = some ⟨frames', some τ'⟩ ∧
    closeArrows frames' τ' = closeArrows frames τ

variable {ts us : List Token} {σ τ : SimpleType}

theorem TakesOperand.type (h : TakesOperand ts τ) : TakesType ts τ :=
  fun frames => ⟨frames, τ, h frames, rfl⟩

theorem TakesType.arrow (hσ : TakesOperand ts σ) (hτ : TakesType us τ) :
    TakesType (ts ++ .arrow :: us) (.arrow σ τ) := by
  intro frames
  obtain ⟨frames', τ', hrun, hclose⟩ := hτ (.domain σ :: frames)
  refine ⟨frames', τ', ?_, hclose⟩
  have harrow : step ⟨frames, some σ⟩ .arrow = some ⟨.domain σ :: frames, none⟩ := rfl
  simp only [Reader.run_append, Reader.run_cons, typeReader_step, hσ frames, harrow, hrun,
    Option.bind_some]

theorem TakesType.group (hτ : TakesType ts τ) :
    TakesOperand (.lparen :: (ts ++ [.rparen])) τ := by
  intro frames
  obtain ⟨frames', τ', hrun, hclose⟩ := hτ (.group :: frames)
  have hopen : step ⟨frames, none⟩ .lparen = some ⟨.group :: frames, none⟩ := rfl
  have hparen : step ⟨frames', some τ'⟩ .rparen = some ⟨frames, some τ⟩ := by
    simp only [step, hclose, closeArrows]
  simp only [Reader.run_append, Reader.run_cons, Reader.run_nil, typeReader_step, hopen, hrun,
    hparen, Option.bind_some]

/-- A complete type goes on with an arrow only. -/
theorem step_of_result {state : State} (h : result state = some τ) {token : Token}
    (htoken : token ≠ .arrow) : step state token = none := by
  obtain ⟨frames, operand⟩ := state
  cases operand with
  | none => cases h
  | some τ' =>
    cases token with
    | arrow => exact absurd rfl htoken
    | rparen =>
      simp only [result] at h
      split at h
      · rename_i hclose
        simp only [step, hclose]
      · cases h
    | _ => rfl

end TypeReader

/-! ## Terms -/

namespace TermReader

/-- **A state at the end of binders**: with a token that does not belong to the
last of them, it goes on as the header does. -/
def Ends (state : State) (frames : List Frame) (h : Header) : Prop :=
  ∀ token, token ≠ .colon → token ≠ .arrow → token ≠ .rparen →
    step state token = headerStep frames h token

theorem ends_header (frames : List Frame) (h : Header) : Ends ⟨frames, .header h⟩ frames h :=
  fun _ _ _ _ => rfl

/-- The tokens of a binder add it to the header. -/
def TakesBinder (ts : List Token) (b : Binder) : Prop :=
  ∀ state frames h, Ends state frames h →
    ∃ state', termReader.run state ts = some state' ∧ Ends state' frames (h.add b)

/-- The tokens of binders, of which there is one at least, make a header of them. -/
def TakesBinders (ts : List Token) (bs : List Binder) : Prop :=
  bs ≠ [] ∧ ∀ state frames fn, Ends state frames ⟨fn, []⟩ →
    ∃ state', termReader.run state ts = some state' ∧ Ends state' frames ⟨fn, bs.reverse⟩

/-- The tokens of an atom make it the next argument. -/
def TakesAtom (ts : List Token) (t : Term) : Prop :=
  ∀ frames fn, termReader.run ⟨frames, .spine fn⟩ ts = some ⟨frames, .spine (some (join fn t))⟩

/-- The tokens of an application leave it behind. -/
def TakesApp (ts : List Token) (t : Term) : Prop :=
  ∀ frames, termReader.run ⟨frames, .spine none⟩ ts = some ⟨frames, .spine (some t)⟩

/-- The tokens of an abstraction leave what makes it the last argument once the
bodies are closed. -/
def TakesLam (ts : List Token) (t : Term) : Prop :=
  ∀ frames fn, ∃ frames' t',
    termReader.run ⟨frames, .spine fn⟩ ts = some ⟨frames', .spine (some t')⟩ ∧
      closeBodies frames' t' = closeBodies frames (join fn t)

/-- The tokens of a term leave what makes the term once the bodies are closed. -/
def TakesTerm (ts : List Token) (t : Term) : Prop :=
  ∀ frames, ∃ frames' t',
    termReader.run ⟨frames, .spine none⟩ ts = some ⟨frames', .spine (some t')⟩ ∧
      closeBodies frames' t' = closeBodies frames t

variable {ts us : List Token} {t fn arg : Term} {τ : SimpleType} {b : Binder} {bs : List Binder}

/-! ### Binders -/

/-- After the name of a binder, a token that is no colon ends the binder. -/
theorem ends_name (frames : List Frame) (h : Header) (x : String) :
    Ends ⟨frames, .name h x⟩ frames (h.add ⟨x, none⟩) := by
  intro token hcolon _ _
  simp only [step, if_neg hcolon]

theorem takesBinder_name (x : String) : TakesBinder [.ident x] ⟨x, none⟩ := by
  intro state frames h hends
  have hident : step state (.ident x) = some ⟨frames, .name h x⟩ := by
    rw [hends (.ident x) (by simp) (by simp) (by simp)]
    rfl
  exact ⟨⟨frames, .name h x⟩, Reader.run_of_step hident, ends_name frames h x⟩

/-- After the type of a binder, a token that does not continue it ends the binder. -/
theorem ends_declared {type : TypeReader.State} (hτ : TypeReader.result type = some τ)
    (frames : List Frame) (h : Header) (x : String) :
    Ends ⟨frames, .declared h x false type⟩ frames (h.add ⟨x, some τ⟩) := by
  intro token _ harrow _
  have hstep := TypeReader.step_of_result hτ harrow
  simp only [step, declaredStep, hstep, hτ, Bool.false_eq_true, if_false]

theorem takesBinder_declared (x : String) (hτ : TypeReader.TakesType ts τ) :
    TakesBinder (.ident x :: .colon :: ts) ⟨x, some τ⟩ := by
  intro state frames h hends
  obtain ⟨inner, τ', hrun, hclose⟩ := hτ []
  have hident : step state (.ident x) = some ⟨frames, .name h x⟩ := by
    rw [hends (.ident x) (by simp) (by simp) (by simp)]
    rfl
  have hcolon : step ⟨frames, .name h x⟩ .colon =
      some ⟨frames, .declared h x false ⟨[], none⟩⟩ := rfl
  have htype := run_declared frames h x false hrun
  refine ⟨⟨frames, .declared h x false ⟨inner, some τ'⟩⟩, ?_,
    ends_declared (TypeReader.result_of_closeArrows hclose) frames h x⟩
  simp only [Reader.run_cons, termReader_step, hident, hcolon, Option.bind_some, htype]

/-- After the type of a binder in parentheses, the parenthesis ends the binder. -/
theorem step_groupDeclared {type : TypeReader.State} (hτ : TypeReader.result type = some τ)
    (frames : List Frame) (h : Header) (x : String) :
    step ⟨frames, .declared h x true type⟩ .rparen =
      some ⟨frames, .header (h.add ⟨x, some τ⟩)⟩ := by
  have hstep : TypeReader.step type .rparen = none := TypeReader.step_of_result hτ (by simp)
  simp only [step, declaredStep, hstep, hτ, if_true]

theorem takesBinder_group (x : String) (hτ : TypeReader.TakesType ts τ) :
    TakesBinder (.lparen :: .ident x :: .colon :: (ts ++ [.rparen])) ⟨x, some τ⟩ := by
  intro state frames h hends
  obtain ⟨inner, τ', hrun, hclose⟩ := hτ []
  have hopen : step state .lparen = some ⟨frames, .groupOpen h⟩ := by
    rw [hends .lparen (by simp) (by simp) (by simp)]
    rfl
  have hident : step ⟨frames, .groupOpen h⟩ (.ident x) = some ⟨frames, .groupName h x⟩ := rfl
  have hcolon : step ⟨frames, .groupName h x⟩ .colon =
      some ⟨frames, .declared h x true ⟨[], none⟩⟩ := rfl
  have htype := run_declared frames h x true hrun
  have hparen := step_groupDeclared (TypeReader.result_of_closeArrows hclose) frames h x
  refine ⟨⟨frames, .header (h.add ⟨x, some τ⟩)⟩, ?_, ends_header frames _⟩
  simp only [Reader.run_cons, Reader.run_append, Reader.run_nil, termReader_step, hopen, hident,
    hcolon, htype, hparen, Option.bind_some]

theorem TakesBinder.one (hb : TakesBinder ts b) : TakesBinders ts [b] :=
  ⟨by simp, fun state frames fn hends => hb state frames ⟨fn, []⟩ hends⟩

theorem TakesBinders.add (hbs : TakesBinders ts bs) (hb : TakesBinder us b) :
    TakesBinders (ts ++ us) (bs ++ [b]) := by
  refine ⟨by simp, ?_⟩
  intro state frames fn hends
  obtain ⟨state', hrun, hends'⟩ := hbs.2 state frames fn hends
  obtain ⟨state'', hrun', hends''⟩ := hb state' frames _ hends'
  refine ⟨state'', by rw [Reader.run_append, hrun, Option.bind_some, hrun'], ?_⟩
  rw [List.reverse_append]
  exact hends''

/-! ### Applications and abstractions -/

theorem takesAtom_name (x : String) : TakesAtom [.ident x] (.var x) := fun _ _ => rfl

theorem TakesTerm.group (h : TakesTerm ts t) : TakesAtom (.lparen :: (ts ++ [.rparen])) t := by
  intro frames fn
  obtain ⟨inner, t', hrun, hclose⟩ := h (.group fn :: frames)
  have hopen : step ⟨frames, .spine fn⟩ .lparen = some ⟨.group fn :: frames, .spine none⟩ := rfl
  have hparen : step ⟨inner, .spine (some t')⟩ .rparen =
      some ⟨frames, .spine (some (join fn t))⟩ := by
    simp only [step, spineStep, hclose, closeBodies]
  simp only [Reader.run_cons, Reader.run_append, Reader.run_nil, termReader_step, hopen, hrun,
    hparen, Option.bind_some]

theorem TakesAtom.app (h : TakesAtom ts t) : TakesApp ts t := fun frames => h frames none

theorem TakesApp.app (hfn : TakesApp ts fn) (harg : TakesAtom us arg) :
    TakesApp (ts ++ us) (.app fn arg) := by
  intro frames
  rw [Reader.run_append, hfn frames, Option.bind_some, harg frames (some fn), join]

theorem TakesApp.term (h : TakesApp ts t) : TakesTerm ts t :=
  fun frames => ⟨frames, t, h frames, rfl⟩

theorem TakesLam.term (h : TakesLam ts t) : TakesTerm ts t := fun frames => h frames none

theorem TakesApp.lam (hfn : TakesApp ts fn) (harg : TakesLam us arg) :
    TakesTerm (ts ++ us) (.app fn arg) := by
  intro frames
  obtain ⟨frames', t', hrun, hclose⟩ := harg frames (some fn)
  exact ⟨frames', t', by rw [Reader.run_append, hfn frames, Option.bind_some, hrun], hclose⟩

theorem TakesBinders.lam (hbs : TakesBinders ts bs) (ht : TakesTerm us t) :
    TakesLam (.lambda :: (ts ++ .dot :: us)) (Grammar.abstract bs t) := by
  intro frames fn
  obtain ⟨state, hrun, hends⟩ := hbs.2 _ frames fn (ends_header frames _)
  obtain ⟨frames', t', hrun', hclose⟩ := ht (.body ⟨fn, bs.reverse⟩ :: frames)
  have hlambda : step ⟨frames, .spine fn⟩ .lambda = some ⟨frames, .header ⟨fn, []⟩⟩ := rfl
  -- the dot ends the last binder, and there is one
  have hdot : step state .dot = some ⟨.body ⟨fn, bs.reverse⟩ :: frames, .spine none⟩ := by
    have hne : bs.reverse.isEmpty = false := by simpa using hbs.1
    rw [hends .dot (by simp) (by simp) (by simp)]
    simp only [headerStep, hne, Bool.false_eq_true, if_false]
  refine ⟨frames', t', ?_, ?_⟩
  · simp only [Reader.run_cons, Reader.run_append, termReader_step, hlambda, hrun, hdot, hrun',
      Option.bind_some]
  · rw [hclose, closeBodies, abstractOver_eq, List.reverse_reverse]

/-- The tokens of a term, and no more, make the term. -/
theorem TakesTerm.exists_result (h : TakesTerm ts t) :
    ∃ state, termReader.run start ts = some state ∧ result state = some t := by
  obtain ⟨frames, t', hrun, hclose⟩ := h []
  exact ⟨⟨frames, .spine (some t')⟩, hrun, by simp only [result, hclose, closeBodies]⟩

/-- **A term holds no semicolon and no equals sign** that is not refused. -/
theorem step_eq_none {token : Token} (htoken : token = .semicolon ∨ token = .equals)
    (state : State) : step state token = none := by
  have hheader : ∀ frames h, headerStep frames h token = none := by
    intro frames h
    rcases htoken with rfl | rfl <;> rfl
  obtain ⟨frames, mode⟩ := state
  cases mode with
  | spine fn => rcases htoken with rfl | rfl <;> rfl
  | header h => exact hheader frames h
  | name h x =>
    have hcolon : token ≠ .colon := by rcases htoken with rfl | rfl <;> simp
    simp only [step, if_neg hcolon, hheader]
  | groupOpen h => rcases htoken with rfl | rfl <;> rfl
  | groupName h x =>
    have hcolon : token ≠ .colon := by rcases htoken with rfl | rfl <;> simp
    simp only [step, if_neg hcolon]
  | declared h x grouped type =>
    have htype : TypeReader.step type token = none := by
      obtain ⟨inner, operand⟩ := type
      rcases htoken with rfl | rfl <;> cases operand <;> rfl
    have hparen : token ≠ .rparen := by rcases htoken with rfl | rfl <;> simp
    simp only [step, declaredStep, htype, hheader, if_neg hparen, ite_self]
    split <;> rfl

theorem ne_of_step {state state' : State} {token : Token} (h : step state token = some state') :
    token ≠ .semicolon ∧ token ≠ .equals := by
  refine ⟨?_, ?_⟩
  · rintro rfl
    rw [step_eq_none (.inl rfl)] at h
    cases h
  · rintro rfl
    rw [step_eq_none (.inr rfl)] at h
    cases h

end TermReader

/-! ## Statements -/

namespace StatementReader

@[simp] theorem statementReader_step : statementReader.step = step := rfl

/-- **The statement reader follows the term reader.** A name at the beginning is
remembered, and otherwise the term reader's state is kept. -/
inductive Follows (target : Option String) : TermReader.State → State → Prop where
  | start (h : target = none) : Follows target TermReader.start .start
  | name (h : target = none) (x : String) : Follows target (afterName x) (.name x)
  | body (inner : TermReader.State) : Follows target inner (.body target inner)

variable {target : Option String} {inner inner' : TermReader.State} {state : State} {token : Token}

theorem bodyStep_of_step (hstep : TermReader.step inner token = some inner') :
    bodyStep target inner token = some (.body target inner') := by
  simp only [bodyStep, if_neg (TermReader.ne_of_step hstep).1, hstep, Option.map_some]

theorem Follows.step (h : Follows target inner state)
    (hstep : TermReader.step inner token = some inner') :
    ∃ state', StatementReader.step state token = some state' ∧ Follows target inner' state' := by
  cases h with
  | start h =>
    subst h
    cases token with
    | ident x => cases hstep; exact ⟨.name x, rfl, .name rfl x⟩
    | _ => exact ⟨_, bodyStep_of_step hstep, .body inner'⟩
  | name h x =>
    subst h
    refine ⟨_, ?_, .body inner'⟩
    simp only [StatementReader.step, if_neg (TermReader.ne_of_step hstep).2,
      bodyStep_of_step hstep]
  | body => exact ⟨_, bodyStep_of_step hstep, .body inner'⟩

theorem Follows.run {ts : List Token} (h : Follows target inner state)
    (hrun : termReader.run inner ts = some inner') :
    ∃ state', statementReader.run state ts = some state' ∧ Follows target inner' state' := by
  have hmatch : ∀ {inner state token next}, Follows target inner state →
      termReader.step inner token = some next →
        ∃ state', statementReader.step state token = some state' ∧ Follows target next state' :=
    fun hfollows hstep => hfollows.step hstep
  exact Reader.run_simulates hmatch h hrun

/-- Where the term is complete the statement is, with or without a semicolon. -/
theorem Follows.result {t : Term} (h : Follows target inner state)
    (hresult : TermReader.result inner = some t) :
    StatementReader.result state = some (conclude target t) ∧
      StatementReader.step state .semicolon = some (.ended (conclude target t)) := by
  cases h with
  | start => cases hresult
  | name h x => subst h; cases hresult; exact ⟨rfl, rfl⟩
  | body =>
    have hsemicolon : bodyStep target inner .semicolon = some (.ended (conclude target t)) := by
      simp only [bodyStep, if_true, hresult, Option.map_some]
    exact ⟨by simp only [StatementReader.result, hresult, Option.map_some], hsemicolon⟩

/-- The tokens of a term, with or without a semicolon, make the statement about
it. -/
theorem Follows.valueFrom {ts us : List Token} {t : Term}
    (h : Follows target TermReader.start state) (ht : TermReader.TakesTerm ts t)
    (hus : us = [] ∨ us = [.semicolon]) :
    statementReader.valueFrom state (ts ++ us) = some (conclude target t) := by
  obtain ⟨inner, hrun, hresult⟩ := ht.exists_result
  obtain ⟨state', hrun', hfollows⟩ := h.run hrun
  obtain ⟨hvalue, hsemicolon⟩ := hfollows.result hresult
  rw [Reader.valueFrom_append, hrun', Option.bind_some]
  rcases hus with rfl | rfl
  · exact hvalue
  · have hended : statementReader.run state' [.semicolon] = some (.ended (conclude target t)) :=
      Reader.run_of_step hsemicolon
    rw [Reader.valueFrom, hended]
    rfl

end StatementReader

/-! ## Libraries -/

namespace LibraryReader

@[simp] theorem libraryReader_step : libraryReader.step = step := rfl

theorem step_body {inner inner' : TermReader.State} {token : Token} (done : List Definition)
    (x : String) (hstep : TermReader.step inner token = some inner') :
    step (.body done x inner) token = some (.body done x inner') := by
  simp only [step, if_neg (TermReader.ne_of_step hstep).1, hstep, Option.map_some]

/-- Inside a definition the reader of libraries follows the reader of terms. -/
theorem run_body {inner inner' : TermReader.State} {ts : List Token} (done : List Definition)
    (x : String) (hrun : termReader.run inner ts = some inner') :
    libraryReader.run (.body done x inner) ts = some (.body done x inner') := by
  have hmatch : ∀ {inner state token next}, state = State.body done x inner →
      termReader.step inner token = some next →
        ∃ state', libraryReader.step state token = some state' ∧ state' = .body done x next := by
    rintro inner _ token next rfl hstep
    exact ⟨_, step_body done x hstep, rfl⟩
  obtain ⟨state, hstate, rfl⟩ := Reader.run_simulates hmatch rfl hrun
  exact hstate

/-- A semicolon ends a definition whose term is complete. -/
theorem step_semicolon {inner : TermReader.State} {t : Term} (done : List Definition) (x : String)
    (ht : TermReader.result inner = some t) :
    step (.body done x inner) .semicolon = some (.between (⟨x, t⟩ :: done)) := by
  simp only [step, if_true, ht, Option.map_some]

/-- The tokens of a definition add it to those before. -/
def TakesDefinition (ts : List Token) (d : Definition) : Prop :=
  ∀ done, libraryReader.run (.between done) ts = some (.between (d :: done))

theorem takesDefinition {ts : List Token} {t : Term} (x : String)
    (ht : TermReader.TakesTerm ts t) :
    TakesDefinition (.ident x :: .equals :: (ts ++ [.semicolon])) ⟨x, t⟩ := by
  intro done
  obtain ⟨inner, hrun, hresult⟩ := ht.exists_result
  have hident : step (.between done) (.ident x) = some (.name done x) := rfl
  have hequals : step (.name done x) .equals = some (.body done x TermReader.start) := rfl
  simp only [Reader.run_cons, Reader.run_append, Reader.run_nil, libraryReader_step, hident,
    hequals, run_body done x hrun, step_semicolon done x hresult, Option.bind_some]

end LibraryReader

/-! ## Derivations -/

/-- **What a reader does with the tokens of a symbol.** -/
def Takes : (symbol : Symbol) → List Token → symbol.Value → Prop
  | .library, ts, ds => libraryReader.valueFrom (.between []) ts = some ds
  | .definitions, ts, ds => libraryReader.run (.between []) ts = some (.between ds.reverse)
  | .definition, ts, d => LibraryReader.TakesDefinition ts d
  | .statement, ts, s => statementReader.valueFrom .start ts = some s
  | .ending, ts, _ => ts = [] ∨ ts = [.semicolon]
  | .term, ts, t => TermReader.TakesTerm ts t
  | .lam, ts, t => TermReader.TakesLam ts t
  | .app, ts, t => TermReader.TakesApp ts t
  | .atom, ts, t => TermReader.TakesAtom ts t
  | .binders, ts, bs => TermReader.TakesBinders ts bs
  | .binder, ts, b => TermReader.TakesBinder ts b
  | .type, ts, τ => TypeReader.TakesType ts τ
  | .operand, ts, τ => TypeReader.TakesOperand ts τ

/-- **The readers take what the grammar derives.** -/
theorem takes_of_derives {symbol : Symbol} {ts : List Token} {v : symbol.Value}
    (h : Derives symbol ts v) : Takes symbol ts v := by
  induction h with
  | @library ts ds _ ih =>
    refine Reader.valueFrom_eq_some_iff.2 ⟨_, ih, ?_⟩
    exact congrArg some (List.reverse_reverse ds)
  | @definitions ts us ds d _ _ ihds ihd =>
    show libraryReader.run _ _ = _
    rw [Reader.run_append, show libraryReader.run _ ts = _ from ihds, Option.bind_some, ihd,
      List.reverse_append]
    rfl
  | noDefinitions => exact rfl
  | definition x _ ih => exact LibraryReader.takesDefinition x ih
  | statementDefinition x _ _ iht ihe =>
    exact StatementReader.Follows.valueFrom (.body TermReader.start) iht ihe
  | statementTerm _ _ iht ihe => exact StatementReader.Follows.valueFrom (.start rfl) iht ihe
  | semicolon => exact .inr rfl
  | noSemicolon => exact .inl rfl
  | termLam _ ih => exact TermReader.TakesLam.term ih
  | termAppLam _ _ ihf iha => exact TermReader.TakesApp.lam ihf iha
  | termApp _ ih => exact TermReader.TakesApp.term ih
  | lam _ _ ihbs iht => exact TermReader.TakesBinders.lam ihbs iht
  | app _ _ ihf iha => exact TermReader.TakesApp.app ihf iha
  | appAtom _ ih => exact TermReader.TakesAtom.app ih
  | atomName x => exact TermReader.takesAtom_name x
  | atomGroup _ ih => exact TermReader.TakesTerm.group ih
  | binders _ _ ihbs ihb => exact TermReader.TakesBinders.add ihbs ihb
  | oneBinder _ ih => exact TermReader.TakesBinder.one ih
  | binderName x => exact TermReader.takesBinder_name x
  | binderDeclared x _ ih => exact TermReader.takesBinder_declared x ih
  | binderGroup x _ ih => exact TermReader.takesBinder_group x ih
  | typeArrow _ _ ihσ ihτ => exact TypeReader.TakesType.arrow ihσ ihτ
  | typeOperand _ ih => exact TypeReader.TakesOperand.type ih
  | operandName x => exact fun frames => rfl
  | operandGroup _ ih => exact TypeReader.TakesType.group ih

end LambdaShell
