import LambdaShell.Proofs.Concrete.Grammar
import LambdaShell.Proofs.Concrete.Recognition

/-!
# Concrete syntax — a reader reads no more than the grammar

The state of a reader is what it remembers of the tokens it was given, so
the tokens can be read off it again, up to what derives the same values.
For each part of a state a relation says which tokens it stands for: the
frames that wait, the application in front of them, a header with its
binders, the mode. One step of a reader keeps the relation with one token
more (`TypeReader.Read.step`, `TermReader.Read.step` and so on), and a state
that is complete stands for a sentence.

A parenthesis or the end closes all the arrows, or abstractions, that wait
innermost. The tokens are then divided differently, between what still
waits and what is read, and stay the same.
-/

namespace LambdaShell

open Grammar (Derives)

/-! ## Types -/

namespace TypeReader

/-- **The tokens that the waiting frames stand for.** -/
inductive FramesRead : List Token → List Frame → Prop where
  | nil : FramesRead [] []
  | group {ts : List Token} {frames : List Frame} :
      FramesRead ts frames → FramesRead (ts ++ [.lparen]) (.group :: frames)
  | domain {ts us : List Token} {frames : List Frame} {σ : SimpleType} :
      FramesRead ts frames → Derives .operand us σ →
        FramesRead (ts ++ (us ++ [.arrow])) (.domain σ :: frames)

/-- **The tokens that a state stands for.** -/
inductive Read : List Token → State → Prop where
  | before {ts : List Token} {frames : List Frame} :
      FramesRead ts frames → Read ts ⟨frames, none⟩
  | after {ts us : List Token} {frames : List Frame} {τ : SimpleType} :
      FramesRead ts frames → Derives .operand us τ → Read (ts ++ us) ⟨frames, some τ⟩

theorem read_start : Read [] start := .before .nil

/-- Closing the arrows that wait divides the tokens anew. -/
theorem FramesRead.closeArrows {ts us : List Token} {frames : List Frame} {τ : SimpleType}
    (hframes : FramesRead ts frames) (hτ : Derives .type us τ) :
    ∃ ts' us', ts ++ us = ts' ++ us' ∧ FramesRead ts' (closeArrows frames τ).1 ∧
      Derives .type us' (closeArrows frames τ).2 := by
  induction hframes generalizing us τ with
  | nil => exact ⟨[], us, rfl, .nil, hτ⟩
  | @group ts frames hframes => exact ⟨ts ++ [.lparen], us, rfl, .group hframes, hτ⟩
  | @domain ts vs frames σ _ hσ ih =>
    obtain ⟨ts', us', heq, hread⟩ := ih (.typeArrow hσ hτ)
    exact ⟨ts', us', by rw [← heq]; simp, hread⟩

/-- **A step of the reader of types** adds its token to what the state stands for. -/
theorem Read.step {ts : List Token} {state state' : State} {token : Token} (h : Read ts state)
    (hstep : TypeReader.step state token = some state') : Read (ts ++ [token]) state' := by
  cases h with
  | @before _ frames hframes =>
    cases token with
    | ident x => cases hstep; exact .after hframes (.operandName x)
    | lparen => cases hstep; exact .before hframes.group
    | _ => cases hstep
  | @after ts us frames τ hframes hτ =>
    cases token with
    | arrow =>
      cases hstep
      rw [List.append_assoc]
      exact .before (hframes.domain hτ)
    | rparen =>
      -- the parenthesis closes the arrows inside it and then itself
      obtain ⟨ts', us', heq, hclosed, hτ'⟩ := hframes.closeArrows (.typeOperand hτ)
      simp only [TypeReader.step] at hstep
      split at hstep
      · rename_i frames' τ' hclose
        rw [hclose] at hclosed hτ'
        cases hstep
        cases hclosed with
        | @group ts'' _ hframes' =>
          have hread := Read.after hframes' (.operandGroup hτ')
          rw [heq]
          simpa using hread
      · cases hstep
    | _ => cases hstep

/-- A complete state stands for a type. -/
theorem Read.result {ts : List Token} {state : State} {τ : SimpleType} (h : Read ts state)
    (hresult : TypeReader.result state = some τ) : Derives .type ts τ := by
  cases h with
  | before _ => cases hresult
  | @after ts us frames τ' hframes hτ' =>
    obtain ⟨ts', us', heq, hclosed, hτ⟩ := hframes.closeArrows (.typeOperand hτ')
    simp only [TypeReader.result] at hresult
    split at hresult
    · rename_i τ'' hclose
      rw [hclose] at hclosed hτ
      cases hresult
      cases hclosed
      rw [heq]
      exact hτ
    · cases hresult

end TypeReader

/-! ## Terms -/

namespace TermReader

/-- The tokens of an application, of which there may be nothing yet. -/
inductive SpineRead : List Token → Option Term → Prop where
  | none : SpineRead [] none
  | some {ts : List Token} {t : Term} : Derives .app ts t → SpineRead ts (some t)

theorem SpineRead.atom {ts us : List Token} {fn : Option Term} {t : Term} (h : SpineRead ts fn)
    (ht : Derives .atom us t) : Derives .app (ts ++ us) (join fn t) := by
  cases h with
  | none => exact .appAtom ht
  | some hfn => exact .app hfn ht

theorem SpineRead.lam {ts us : List Token} {fn : Option Term} {t : Term} (h : SpineRead ts fn)
    (ht : Derives .lam us t) : Derives .term (ts ++ us) (join fn t) := by
  cases h with
  | none => exact .termLam ht
  | some hfn => exact .termAppLam hfn ht

/-- The tokens of binders, the last of which comes first. -/
inductive BindersRead : List Token → List Binder → Prop where
  | none : BindersRead [] []
  | some {ts : List Token} {bs : List Binder} : Derives .binders ts bs.reverse → BindersRead ts bs

theorem BindersRead.add {ts us : List Token} {bs : List Binder} {b : Binder}
    (h : BindersRead ts bs) (hb : Derives .binder us b) : BindersRead (ts ++ us) (b :: bs) := by
  refine .some ?_
  cases h with
  | none => exact .oneBinder hb
  | some hbs =>
    rw [List.reverse_cons]
    exact .binders hbs hb

/-- The tokens of a header: the application that it ends, and its binders. -/
inductive HeaderRead : List Token → Header → Prop where
  | mk {ts us : List Token} {h : Header} :
      SpineRead ts h.fn → BindersRead us h.binders → HeaderRead (ts ++ .lambda :: us) h

theorem HeaderRead.add {ts us : List Token} {h : Header} {b : Binder} (hh : HeaderRead ts h)
    (hb : Derives .binder us b) : HeaderRead (ts ++ us) (h.add b) := by
  obtain ⟨hfn, hbs⟩ := hh
  have hread := HeaderRead.mk (h := h.add b) hfn (hbs.add hb)
  simpa using hread

/-- Both ways to collect binders make the same abstraction. -/
theorem abstractOver_eq (bs : List Binder) (t : Term) :
    abstractOver bs t = Grammar.abstract bs.reverse t := by
  induction bs generalizing t with
  | nil => rfl
  | cons b bs ih =>
    rw [abstractOver, ih, Grammar.abstract, Grammar.abstract, List.reverse_cons, List.foldr_append]
    rfl

/-- **A header with its body is a term.** -/
theorem HeaderRead.close {ts us : List Token} {h : Header} {t : Term} (hh : HeaderRead ts h)
    (hne : h.binders ≠ []) (ht : Derives .term us t) :
    Derives .term (ts ++ .dot :: us) (join h.fn (abstractOver h.binders t)) := by
  obtain ⟨hfn, hbs⟩ := hh
  generalize h.binders = binders at hbs hne
  cases hbs with
  | none => exact absurd rfl hne
  | some hbs =>
    have hterm := hfn.lam (.lam hbs ht)
    rw [abstractOver_eq]
    simpa using hterm

/-- **The tokens that the waiting frames stand for.** -/
inductive FramesRead : List Token → List Frame → Prop where
  | nil : FramesRead [] []
  | group {ts us : List Token} {frames : List Frame} {fn : Option Term} :
      FramesRead ts frames → SpineRead us fn →
        FramesRead (ts ++ (us ++ [.lparen])) (.group fn :: frames)
  | body {ts us : List Token} {frames : List Frame} {h : Header} :
      FramesRead ts frames → HeaderRead us h → h.binders ≠ [] →
        FramesRead (ts ++ (us ++ [.dot])) (.body h :: frames)

/-- **The tokens that the mode stands for.** -/
inductive ModeRead : List Token → Mode → Prop where
  | spine {ts : List Token} {fn : Option Term} : SpineRead ts fn → ModeRead ts (.spine fn)
  | header {ts : List Token} {h : Header} : HeaderRead ts h → ModeRead ts (.header h)
  | name {ts : List Token} {h : Header} (x : String) :
      HeaderRead ts h → ModeRead (ts ++ [.ident x]) (.name h x)
  | groupOpen {ts : List Token} {h : Header} :
      HeaderRead ts h → ModeRead (ts ++ [.lparen]) (.groupOpen h)
  | groupName {ts : List Token} {h : Header} (x : String) :
      HeaderRead ts h → ModeRead (ts ++ [.lparen, .ident x]) (.groupName h x)
  | declared {ts us : List Token} {h : Header} (x : String) {type : TypeReader.State} :
      HeaderRead ts h → TypeReader.Read us type →
        ModeRead (ts ++ .ident x :: .colon :: us) (.declared h x false type)
  | groupDeclared {ts us : List Token} {h : Header} (x : String) {type : TypeReader.State} :
      HeaderRead ts h → TypeReader.Read us type →
        ModeRead (ts ++ .lparen :: .ident x :: .colon :: us) (.declared h x true type)

/-- **The tokens that a state stands for.** -/
inductive Read : List Token → State → Prop where
  | mk {ts us : List Token} {frames : List Frame} {mode : Mode} :
      FramesRead ts frames → ModeRead us mode → Read (ts ++ us) ⟨frames, mode⟩

theorem read_start : Read [] start := .mk .nil (.spine .none)

/-- Closing the abstractions that wait divides the tokens anew. -/
theorem FramesRead.closeBodies {ts us : List Token} {frames : List Frame} {t : Term}
    (hframes : FramesRead ts frames) (ht : Derives .term us t) :
    ∃ ts' us', ts ++ us = ts' ++ us' ∧ FramesRead ts' (closeBodies frames t).1 ∧
      Derives .term us' (closeBodies frames t).2 := by
  induction hframes generalizing us t with
  | nil => exact ⟨[], us, rfl, .nil, ht⟩
  | group hframes hfn => exact ⟨_, us, rfl, .group hframes hfn, ht⟩
  | @body ts vs frames h _ hh hne ih =>
    obtain ⟨ts', us', heq, hread⟩ := ih (hh.close hne ht)
    exact ⟨ts', us', by rw [← heq]; simp, hread⟩

section Step

variable {ts us : List Token} {frames : List Frame} {state : State} {token : Token}

theorem read_spineStep {fn : Option Term} (hframes : FramesRead ts frames) (hfn : SpineRead us fn)
    (hstep : spineStep frames fn token = some state) : Read (ts ++ (us ++ [token])) state := by
  cases token with
  | ident x =>
    cases hstep
    exact .mk hframes (.spine (.some (hfn.atom (.atomName x))))
  | lparen =>
    cases hstep
    have hread := Read.mk (hframes.group hfn) (.spine .none)
    rwa [List.append_nil] at hread
  | lambda =>
    cases hstep
    exact .mk hframes (.header (.mk hfn .none))
  | rparen =>
    cases hfn with
    | none => cases hstep
    | some ht =>
      -- the parenthesis closes the bodies inside it and then itself
      obtain ⟨ts', us', heq, hclosed, ht'⟩ := hframes.closeBodies (.termApp ht)
      simp only [spineStep] at hstep
      split at hstep
      · rename_i fn' frames' t' hclose
        rw [hclose] at hclosed ht'
        cases hstep
        cases hclosed with
        | group hframes' hfn' =>
          have hread := Read.mk hframes' (.spine (.some (hfn'.atom (.atomGroup ht'))))
          rw [← List.append_assoc, heq]
          simpa using hread
      · cases hstep
  | _ => cases hstep

theorem read_headerStep {h : Header} (hframes : FramesRead ts frames) (hh : HeaderRead us h)
    (hstep : headerStep frames h token = some state) : Read (ts ++ (us ++ [token])) state := by
  cases token with
  | ident x => cases hstep; exact .mk hframes (.name x hh)
  | lparen => cases hstep; exact .mk hframes (.groupOpen hh)
  | dot =>
    simp only [headerStep] at hstep
    split at hstep
    · cases hstep
    · rename_i hne
      cases hstep
      have hread := Read.mk (hframes.body hh (by simpa using hne)) (.spine .none)
      rwa [List.append_nil] at hread
  | _ => cases hstep

/-- A token that does not continue a type ends the binder it belongs to. -/
theorem read_declaredStep {h : Header} {x : String} {grouped : Bool} {type : TypeReader.State}
    (hframes : FramesRead ts frames) (hmode : ModeRead us (.declared h x grouped type))
    (hstep : declaredStep frames h x grouped type token = some state) :
    Read (ts ++ (us ++ [token])) state := by
  simp only [declaredStep] at hstep
  split at hstep
  · -- the type goes on
    rename_i type' htype'
    cases hstep
    refine .mk hframes ?_
    cases hmode with
    | declared x hh htype =>
      have hread := ModeRead.declared x hh (htype.step htype')
      simpa using hread
    | groupDeclared x hh htype =>
      have hread := ModeRead.groupDeclared x hh (htype.step htype')
      simpa using hread
  · split at hstep
    · cases hstep
    · rename_i τ hτ
      cases hmode with
      | declared x hh htype =>
        exact read_headerStep hframes (hh.add (.binderDeclared x (htype.result hτ))) hstep
      | groupDeclared x hh htype =>
        simp only [if_true] at hstep
        split at hstep
        · rename_i hparen
          cases hstep
          have hheader := hh.add (.binderGroup x (htype.result hτ))
          have hread := Read.mk hframes (.header hheader)
          rw [hparen]
          simpa using hread
        · cases hstep

/-- **A step of the reader of terms** adds its token to what the state stands for. -/
theorem Read.step {state' : State} (h : Read ts state)
    (hstep : TermReader.step state token = some state') : Read (ts ++ [token]) state' := by
  cases h with
  | @mk ts us frames mode hframes hmode =>
    rw [List.append_assoc]
    cases hmode with
    | spine hfn => exact read_spineStep hframes hfn hstep
    | header hh => exact read_headerStep hframes hh hstep
    | @name us h x hh =>
      simp only [TermReader.step] at hstep
      split at hstep
      · rename_i hcolon
        cases hstep
        have hread := Read.mk hframes (.declared x hh TypeReader.read_start)
        rw [hcolon]
        simpa using hread
      · exact read_headerStep hframes (hh.add (.binderName x)) hstep
    | @groupOpen us h hh =>
      cases token with
      | ident x =>
        cases hstep
        have hread := Read.mk hframes (.groupName x hh)
        simpa using hread
      | _ => cases hstep
    | @groupName us h x hh =>
      simp only [TermReader.step] at hstep
      split at hstep
      · rename_i hcolon
        cases hstep
        have hread := Read.mk hframes (.groupDeclared x hh TypeReader.read_start)
        rw [hcolon]
        simpa using hread
      · cases hstep
    | declared x hh htype => exact read_declaredStep hframes (.declared x hh htype) hstep
    | groupDeclared x hh htype => exact read_declaredStep hframes (.groupDeclared x hh htype) hstep

/-- A complete state stands for a term. -/
theorem Read.result {t : Term} (h : Read ts state) (hresult : TermReader.result state = some t) :
    Derives .term ts t := by
  cases h with
  | @mk ts us frames mode hframes hmode =>
    cases hmode with
    | spine hfn =>
      cases hfn with
      | none => cases hresult
      | some ht =>
        obtain ⟨ts', us', heq, hclosed, ht'⟩ := hframes.closeBodies (.termApp ht)
        simp only [TermReader.result] at hresult
        split at hresult
        · rename_i t' hclose
          rw [hclose] at hclosed ht'
          cases hresult
          cases hclosed
          rw [heq]
          exact ht'
        · cases hresult
    | _ => cases hresult

end Step

end TermReader

/-! ## Statements -/

namespace StatementReader

/-- **The tokens that a state stands for.** -/
inductive Read : List Token → State → Prop where
  | start : Read [] .start
  | name (x : String) : Read [.ident x] (.name x)
  | term {ts : List Token} {inner : TermReader.State} :
      TermReader.Read ts inner → Read ts (.body none inner)
  | definition {ts : List Token} (x : String) {inner : TermReader.State} :
      TermReader.Read ts inner → Read (.ident x :: .equals :: ts) (.body (some x) inner)
  | ended {ts : List Token} {s : Statement} : Derives .statement ts s → Read ts (.ended s)

theorem derives_name (x : String) : Derives .app [.ident x] (.var x) := .appAtom (.atomName x)

theorem read_afterName (x : String) : TermReader.Read [.ident x] (afterName x) :=
  .mk .nil (.spine (.some (derives_name x)))

/-- Inside the term, and at the semicolon after it. -/
theorem Read.bodyStep {ts : List Token} {target : Option String} {inner : TermReader.State}
    {token : Token} {state : State} (h : Read ts (.body target inner))
    (hstep : bodyStep target inner token = some state) : Read (ts ++ [token]) state := by
  simp only [StatementReader.bodyStep] at hstep
  split at hstep
  · rename_i hsemicolon
    subst hsemicolon
    obtain ⟨t, ht, rfl⟩ := Option.map_eq_some_iff.1 hstep
    cases h with
    | term hinner => exact .ended (.statementTerm (hinner.result ht) .semicolon)
    | definition x hinner => exact .ended (.statementDefinition x (hinner.result ht) .semicolon)
  · obtain ⟨inner', hinner', rfl⟩ := Option.map_eq_some_iff.1 hstep
    cases h with
    | term hinner => exact .term (hinner.step hinner')
    | definition x hinner => exact .definition x (hinner.step hinner')

/-- **A step of the reader of statements** adds its token to what the state stands
for. -/
theorem Read.step {ts : List Token} {state state' : State} {token : Token} (h : Read ts state)
    (hstep : StatementReader.step state token = some state') : Read (ts ++ [token]) state' := by
  cases h with
  | start =>
    cases token with
    | ident x => cases hstep; exact .name x
    | _ => exact Read.bodyStep (.term TermReader.read_start) hstep
  | name x =>
    simp only [StatementReader.step] at hstep
    split at hstep
    · rename_i hequals
      cases hstep
      rw [hequals]
      exact .definition x TermReader.read_start
    · exact Read.bodyStep (.term (read_afterName x)) hstep
  | term hinner => exact Read.bodyStep (.term hinner) hstep
  | definition x hinner => exact Read.bodyStep (.definition x hinner) hstep
  | ended _ => cases hstep

/-- A complete state stands for a statement. -/
theorem Read.result {ts : List Token} {state : State} {s : Statement} (h : Read ts state)
    (hresult : StatementReader.result state = some s) : Derives .statement ts s := by
  cases h with
  | start => cases hresult
  | name x =>
    cases hresult
    exact .statementTerm (.termApp (derives_name x)) .noSemicolon
  | term hinner =>
    obtain ⟨t, ht, rfl⟩ := Option.map_eq_some_iff.1 hresult
    have hstatement := Derives.statementTerm (hinner.result ht) .noSemicolon
    rwa [List.append_nil] at hstatement
  | definition x hinner =>
    obtain ⟨t, ht, rfl⟩ := Option.map_eq_some_iff.1 hresult
    have hstatement := Derives.statementDefinition x (hinner.result ht) .noSemicolon
    rwa [List.append_nil] at hstatement
  | ended hs => cases hresult; exact hs

end StatementReader

/-! ## Libraries -/

namespace LibraryReader

/-- **The tokens that a state stands for.** -/
inductive Read : List Token → State → Prop where
  | between {ts : List Token} {done : List Definition} :
      Derives .definitions ts done.reverse → Read ts (.between done)
  | name {ts : List Token} {done : List Definition} (x : String) :
      Derives .definitions ts done.reverse → Read (ts ++ [.ident x]) (.name done x)
  | body {ts us : List Token} {done : List Definition} (x : String) {inner : TermReader.State} :
      Derives .definitions ts done.reverse → TermReader.Read us inner →
        Read (ts ++ .ident x :: .equals :: us) (.body done x inner)

/-- **A step of the reader of libraries** adds its token to what the state stands
for. -/
theorem Read.step {ts : List Token} {state state' : State} {token : Token} (h : Read ts state)
    (hstep : LibraryReader.step state token = some state') : Read (ts ++ [token]) state' := by
  cases h with
  | between hdone =>
    cases token with
    | ident x => cases hstep; exact .name x hdone
    | _ => cases hstep
  | name x hdone =>
    simp only [LibraryReader.step] at hstep
    split at hstep
    · rename_i hequals
      cases hstep
      have hread := Read.body x hdone TermReader.read_start
      rw [hequals]
      simpa using hread
    · cases hstep
  | body x hdone hinner =>
    simp only [LibraryReader.step] at hstep
    split at hstep
    · rename_i hsemicolon
      subst hsemicolon
      obtain ⟨t, ht, rfl⟩ := Option.map_eq_some_iff.1 hstep
      have hdefinitions := hdone.definitions (.definition x (hinner.result ht))
      rw [← List.reverse_cons] at hdefinitions
      have hread := Read.between hdefinitions
      simpa using hread
    · obtain ⟨inner', hinner', rfl⟩ := Option.map_eq_some_iff.1 hstep
      have hread := Read.body x hdone (hinner.step hinner')
      simpa using hread

/-- A complete state stands for a library. -/
theorem Read.result {ts : List Token} {state : State} {ds : List Definition} (h : Read ts state)
    (hresult : LibraryReader.result state = some ds) : Derives .library ts ds := by
  cases h with
  | between hdone => cases hresult; exact .library hdone
  | name x _ => cases hresult
  | body x _ _ => cases hresult

end LibraryReader

end LambdaShell
