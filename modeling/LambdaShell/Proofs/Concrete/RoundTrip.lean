import LambdaShell.Concrete.Printer
import LambdaShell.Concrete.TermReader
import LambdaShell.Proofs.Concrete.Scanning

/-!
# Concrete syntax — what is written can be read

The written form of a term is read back as the same term, annotations
included, provided its names are names of the language and no annotation
is a fault. Between the two stands a third form, the tokens of the term:
the text scans as these tokens, and the reader makes the term of them.

The reader does not finish an abstraction when it has read its body; it
keeps it waiting until a parenthesis or the end closes it, and the same
goes for the domains of an arrow. What holds after the tokens of a term is
therefore not that the term is there, but that it will be there once the
waiting bodies are closed (`TermReader.takes_tokens`).
-/

namespace LambdaShell

open Scan (Spells)

/-! ## Terms that can be written -/

/-- Every base type is named by a name of the language. -/
def SimpleType.wellNamed : SimpleType → Bool
  | base name => Token.isName name
  | arrow σ τ => σ.wellNamed && τ.wellNamed

/-- A type of which `SimpleType.wellNamed` holds, and not a fault. -/
def Ty.wellNamed : Ty → Bool
  | simple τ => τ.wellNamed
  | fault _ => false

/-- **Every variable, binder and base type of the term is named by a name of
the language**, and no annotation is a fault. -/
def Term.wellNamed : Term → Bool
  | var x => Token.isName x
  | lam x a body => Token.isName x && a.all Ty.wellNamed && body.wellNamed
  | app fn arg => fn.wellNamed && arg.wellNamed

/-! ## The tokens of the written form -/

/-- Tokens in parentheses. -/
def Token.grouped (tokens : List Token) : List Token := .lparen :: (tokens ++ [.rparen])

/-- **The tokens of a simple type.** -/
def SimpleType.tokens : SimpleType → List Token
  | base name => [.ident name]
  | arrow (.arrow σ τ) ρ => Token.grouped (SimpleType.arrow σ τ).tokens ++ .arrow :: ρ.tokens
  | arrow (.base name) ρ => .ident name :: .arrow :: ρ.tokens

namespace Printer

/-- The tokens of a term in function position. -/
def functionTokens : Tightness → List Token → List Token
  | .loose, tokens => Token.grouped tokens
  | _, tokens => tokens

/-- The tokens of a term in argument position. -/
def argumentTokens : Tightness → List Token → List Token
  | .tight, tokens => tokens
  | _, tokens => Token.grouped tokens

/-- The tokens of an annotation, which has to be a type. -/
def declaredTokens : Option Ty → List Token
  | some (.simple τ) => .colon :: τ.tokens
  | _ => []

end Printer

namespace Term

open Printer

/-- How tightly the written form of a term holds together. -/
def tightness : Term → Tightness
  | var _ => .tight
  | lam _ _ _ => .loose
  | app _ _ => .row

/-- **The tokens of a term.** -/
def tokens : Term → List Token
  | var x => [.ident x]
  | app fn arg =>
    functionTokens fn.tightness fn.tokens ++ argumentTokens arg.tightness arg.tokens
  | lam x a body => .lambda :: .ident x :: (declaredTokens a ++ .dot :: body.tokens)

/-! ## The written form, constructor by constructor -/

theorem shownName_none (bound : List String) (t : Term) :
    shownName (fun _ => none) bound t = none := by
  cases t <;> simp [shownName]

/-- Without names for terms, the binders around a term do not matter. -/
theorem write_none (bound : List String) (t : Term) :
    write (fun _ => none) bound t = (t.text, t.tightness) := by
  induction t generalizing bound with
  | var x => simp only [text, write, shownName_none, tightness]
  | lam x a body ih =>
    rw [text, write.eq_3, write.eq_3, shownName_none, shownName_none, ih, ih]
    rfl
  | app fn arg ihf iha =>
    rw [text, write.eq_2, write.eq_2, shownName_none, shownName_none, ihf, iha, ihf, iha]
    rfl

@[simp] theorem text_var (x : String) : (var x).text = x := by
  rw [text, write.eq_1, shownName_none]

@[simp] theorem text_lam (x : String) (a : Option Ty) (body : Term) :
    (lam x a body).text = "λ" ++ binderText x a ++ ". " ++ body.text := by
  rw [text, write.eq_3, shownName_none, write_none]

@[simp] theorem text_app (fn arg : Term) :
    (app fn arg).text =
      asFunction (fn.text, fn.tightness) ++ " " ++ asArgument (arg.text, arg.tightness) := by
  rw [text, write.eq_2, shownName_none, write_none, write_none]

end Term

/-! ## The text spells the tokens -/

theorem SimpleType.spells_text {τ : SimpleType} (hτ : τ.wellNamed = true) :
    Spells τ.text τ.tokens := by
  induction τ using SimpleType.text.induct with
  | case1 name => exact Scan.spells_name hτ
  | case2 σ τ ρ ihd ihc =>
    simp only [wellNamed, Bool.and_eq_true] at hτ
    have hdomain : Spells (SimpleType.arrow σ τ).text (SimpleType.arrow σ τ).tokens :=
      ihd (by simpa [wellNamed] using hτ.1)
    have hmarks : ") -> " = ")" ++ " -> " := by decide
    rw [text, hmarks, ← String.append_assoc]
    exact hdomain.grouped.join Scan.separates_arrow (ihc hτ.2)
  | case3 name ρ ih =>
    simp only [wellNamed, Bool.and_eq_true] at hτ
    exact (Scan.spells_name hτ.1).join Scan.separates_arrow (ih hτ.2)

namespace Printer

theorem spells_binderText {x : String} {a : Option Ty} (hx : Token.isName x = true)
    (ha : a.all Ty.wellNamed = true) : Spells (binderText x a) (.ident x :: declaredTokens a) := by
  match a with
  | none => exact Scan.spells_name hx
  | some (.simple τ) =>
    exact (Scan.spells_name hx).join Scan.separates_colon (SimpleType.spells_text ha)
  | some (.fault _) => cases ha

theorem spells_asFunction {text : String} {tokens : List Token} (h : Spells text tokens)
    (tightness : Tightness) :
    Spells (asFunction (text, tightness)) (functionTokens tightness tokens) := by
  cases tightness with
  | loose => exact h.grouped
  | row => exact h
  | tight => exact h

theorem spells_asArgument {text : String} {tokens : List Token} (h : Spells text tokens)
    (tightness : Tightness) :
    Spells (asArgument (text, tightness)) (argumentTokens tightness tokens) := by
  cases tightness with
  | loose => exact h.grouped
  | row => exact h.grouped
  | tight => exact h

end Printer

/-- **The written form of a term spells its tokens.** -/
theorem Term.spells_text {t : Term} (ht : t.wellNamed = true) : Spells t.text t.tokens := by
  induction t with
  | var x =>
    rw [text_var]
    exact Scan.spells_name ht
  | lam x a body ih =>
    simp only [wellNamed, Bool.and_eq_true] at ht
    have hbinder := Printer.spells_binderText ht.1.1 ht.1.2
    rw [text_lam]
    exact (Scan.separates_lambda.spells_append hbinder).join Scan.separates_dot (ih ht.2)
  | app fn arg ihf iha =>
    simp only [wellNamed, Bool.and_eq_true] at ht
    rw [text_app]
    exact (Printer.spells_asFunction (ihf ht.1) _).join Scan.separates_blank
      (Printer.spells_asArgument (iha ht.2) _)

/-! ## The tokens are read as the type -/

namespace TypeReader

@[simp] theorem typeReader_step : typeReader.step = step := rfl

/-- **After the tokens of a type** the domains that wait, once closed, give what
the type would have given in their place. -/
theorem run_tokens (τ : SimpleType) (frames : List Frame) :
    ∃ frames' τ', typeReader.run ⟨frames, none⟩ τ.tokens = some ⟨frames', some τ'⟩ ∧
      closeArrows frames' τ' = closeArrows frames τ := by
  induction τ using SimpleType.tokens.induct generalizing frames with
  | case1 name => exact ⟨frames, .base name, rfl, rfl⟩
  | case2 σ τ ρ ihd ihc =>
    obtain ⟨inner, τ', hrun, hclose⟩ := ihd (.group :: frames)
    obtain ⟨frames', ρ', hrun', hclose'⟩ := ihc (.domain (.arrow σ τ) :: frames)
    refine ⟨frames', ρ', ?_, hclose'⟩
    -- the closing parenthesis finds the domain complete
    have hparen : step ⟨inner, some τ'⟩ .rparen = some ⟨frames, some (.arrow σ τ)⟩ := by
      simp only [step, hclose, closeArrows]
    have hopen : step ⟨frames, none⟩ .lparen = some ⟨.group :: frames, none⟩ := rfl
    have harrow : step ⟨frames, some (.arrow σ τ)⟩ .arrow =
        some ⟨.domain (.arrow σ τ) :: frames, none⟩ := rfl
    simp only [SimpleType.tokens, Token.grouped, List.cons_append, List.append_assoc,
      List.nil_append, Reader.run_cons, Reader.run_append, typeReader_step, hopen,
      Option.bind_some, hrun, hparen, harrow, hrun']
  | case3 name ρ ih =>
    obtain ⟨frames', ρ', hrun, hclose⟩ := ih (.domain (.base name) :: frames)
    exact ⟨frames', ρ', hrun, hclose⟩

/-- The tokens of a type, and no more, make the type. -/
theorem result_of_closeArrows {frames : List Frame} {τ τ' : SimpleType}
    (h : closeArrows frames τ' = ([], τ)) : result ⟨frames, some τ'⟩ = some τ := by
  simp only [result, h]

end TypeReader

/-! ## The tokens are read as the term -/

/-- An annotation that can be written is a type or missing. -/
theorem Ty.exists_of_wellNamed {a : Option Ty} (h : a.all wellNamed = true) :
    ∃ declared : Option SimpleType, a = declared.map .simple := by
  match a with
  | none => exact ⟨none, rfl⟩
  | some (.simple τ) => exact ⟨some τ, rfl⟩
  | some (.fault _) => cases h

namespace TermReader

open Printer

@[simp] theorem termReader_step : termReader.step = step := rfl

/-- Inside an annotation the reader of terms takes what the reader of types
takes. -/
theorem run_declared (frames : List Frame) (h : Header) (x : String) (grouped : Bool)
    {tokens : List Token} {type type' : TypeReader.State}
    (hrun : typeReader.run type tokens = some type') :
    termReader.run ⟨frames, .declared h x grouped type⟩ tokens =
      some ⟨frames, .declared h x grouped type'⟩ := by
  induction tokens generalizing type with
  | nil => cases hrun; rfl
  | cons token tokens ih =>
    rw [Reader.run_cons] at hrun ⊢
    obtain ⟨next, hnext, hrest⟩ := Option.bind_eq_some_iff.1 hrun
    have hstep : step ⟨frames, .declared h x grouped type⟩ token =
        some ⟨frames, .declared h x grouped next⟩ := by
      simp only [step, declaredStep, show TypeReader.step type token = some next from hnext]
    rw [termReader_step, hstep, Option.bind_some]
    exact ih hrest

/-- **The head of an abstraction** puts it among those whose bodies are read. -/
theorem run_head (frames : List Frame) (x : String) (declared : Option SimpleType)
    (tokens : List Token) :
    termReader.run ⟨frames, .spine none⟩
        (.lambda :: .ident x :: (declaredTokens (declared.map .simple) ++ .dot :: tokens)) =
      termReader.run ⟨.body ⟨none, [⟨x, declared⟩]⟩ :: frames, .spine none⟩ tokens := by
  match declared with
  | none => rfl
  | some τ =>
    obtain ⟨inner, τ', hrun, hclose⟩ := TypeReader.run_tokens τ []
    have htype := run_declared frames ⟨none, []⟩ x false hrun
    -- the dot continues no type, so it ends the annotation
    have hdot : step ⟨frames, .declared ⟨none, []⟩ x false ⟨inner, some τ'⟩⟩ .dot =
        some ⟨.body ⟨none, [⟨x, some τ⟩]⟩ :: frames, .spine none⟩ := by
      have hnone : TypeReader.step ⟨inner, some τ'⟩ .dot = none := rfl
      simp only [step, declaredStep, hnone, TypeReader.result_of_closeArrows hclose]
      rfl
    calc termReader.run ⟨frames, .spine none⟩
          (.lambda :: .ident x :: (declaredTokens (some (.simple τ)) ++ .dot :: tokens))
        = termReader.run ⟨frames, .declared ⟨none, []⟩ x false TypeReader.start⟩
            (τ.tokens ++ .dot :: tokens) := rfl
      _ = termReader.run ⟨frames, .declared ⟨none, []⟩ x false ⟨inner, some τ'⟩⟩
            (.dot :: tokens) := by
          rw [Reader.run_append, TypeReader.start, htype, Option.bind_some]
      _ = termReader.run ⟨.body ⟨none, [⟨x, some τ⟩]⟩ :: frames, .spine none⟩ tokens := by
          rw [Reader.run_cons, termReader_step, hdot, Option.bind_some]

/-- **The reader takes the tokens of a term**: the bodies that wait afterwards,
once closed, give what the term would have given in their place, and none
waits after anything but an abstraction. -/
def Takes (t : Term) : Prop :=
  ∀ frames, ∃ frames' t',
    termReader.run ⟨frames, .spine none⟩ t.tokens = some ⟨frames', .spine (some t')⟩ ∧
      closeBodies frames' t' = closeBodies frames t ∧
      (t.tightness ≠ .loose → frames' = frames ∧ t' = t)

/-- A term in parentheses becomes the next argument of what is before it. -/
theorem Takes.grouped {t : Term} (h : Takes t) (frames : List Frame) (fn : Option Term) :
    termReader.run ⟨frames, .spine fn⟩ (Token.grouped t.tokens) =
      some ⟨frames, .spine (some (join fn t))⟩ := by
  obtain ⟨inner, t', hrun, hclose, -⟩ := h (.group fn :: frames)
  have hopen : step ⟨frames, .spine fn⟩ .lparen = some ⟨.group fn :: frames, .spine none⟩ := rfl
  have hparen : step ⟨inner, .spine (some t')⟩ .rparen =
      some ⟨frames, .spine (some (join fn t))⟩ := by
    simp only [step, spineStep, hclose, closeBodies]
  simp only [Token.grouped, Reader.run_cons, Reader.run_append, termReader_step, hopen, hrun,
    hparen, Option.bind_some, Reader.run_nil]

theorem Takes.function {t : Term} (h : Takes t) (frames : List Frame) :
    termReader.run ⟨frames, .spine none⟩ (functionTokens t.tightness t.tokens) =
      some ⟨frames, .spine (some t)⟩ := by
  by_cases htight : t.tightness = .loose
  · rw [htight]
    exact h.grouped frames none
  · obtain ⟨frames', t', hrun, -, hsame⟩ := h frames
    obtain ⟨rfl, rfl⟩ := hsame htight
    rw [← hrun]
    cases hcase : t'.tightness with
    | loose => exact absurd hcase htight
    | row => rfl
    | tight => rfl

theorem Takes.argument {t : Term} (h : Takes t) (frames : List Frame) (fn : Option Term) :
    termReader.run ⟨frames, .spine fn⟩ (argumentTokens t.tightness t.tokens) =
      some ⟨frames, .spine (some (join fn t))⟩ := by
  cases t with
  | var x => rfl
  | lam x a body => exact h.grouped frames fn
  | app fn' arg => exact h.grouped frames fn

theorem takes_tokens {t : Term} (ht : t.wellNamed = true) : Takes t := by
  induction t with
  | var x => exact fun frames => ⟨frames, .var x, rfl, rfl, fun _ => ⟨rfl, rfl⟩⟩
  | lam x a body ih =>
    intro frames
    simp only [Term.wellNamed, Bool.and_eq_true] at ht
    obtain ⟨declared, rfl⟩ := Ty.exists_of_wellNamed ht.1.2
    obtain ⟨frames', t', hrun, hclose, -⟩ := ih ht.2 (.body ⟨none, [⟨x, declared⟩]⟩ :: frames)
    refine ⟨frames', t', ?_, hclose, fun h => absurd rfl h⟩
    rw [Term.tokens, run_head, hrun]
  | app fn arg ihf iha =>
    intro frames
    simp only [Term.wellNamed, Bool.and_eq_true] at ht
    refine ⟨frames, .app fn arg, ?_, rfl, fun _ => ⟨rfl, rfl⟩⟩
    rw [Term.tokens, Reader.run_append, (ihf ht.1).function, Option.bind_some,
      (iha ht.2).argument, join]

end TermReader

/-! ## Reading what is written -/

/-- The written form of a type is read as the type. -/
theorem SimpleType.parse_text {τ : SimpleType} (h : τ.wellNamed = true) :
    SimpleType.parse τ.text = .ok τ := by
  obtain ⟨frames, τ', hrun, hclose⟩ := TypeReader.run_tokens τ []
  exact typeReader.read_of_scans (spells_text h).scans_toList hrun
    (TypeReader.result_of_closeArrows hclose)

/-- The written form of a term is read as the term. -/
theorem Term.parse_text {t : Term} (h : t.wellNamed = true) : Term.parse t.text = .ok t := by
  obtain ⟨frames, t', hrun, hclose, -⟩ := TermReader.takes_tokens h []
  have hresult : TermReader.result ⟨frames, .spine (some t')⟩ = some t := by
    simp only [TermReader.result, hclose, TermReader.closeBodies]
  exact termReader.read_of_scans (spells_text h).scans_toList hrun hresult

/-- **Writing and then reading is the identity**, on terms with all their
annotations and on types. -/
theorem parse_text_eq :
    (∀ t : Term, t.wellNamed = true → Term.parse t.text = .ok t) ∧
      (∀ ty : Ty, ty.wellNamed = true → (SimpleType.parse ty.text).map .simple = .ok ty) := by
  refine ⟨fun t ht => Term.parse_text ht, fun ty hty => ?_⟩
  cases ty with
  | simple τ => rw [Ty.text, SimpleType.parse_text hty]; rfl
  | fault reason => cases hty

/-- A term in which every kind of parenthesis is needed: `λf:(A -> B) -> C. f
(λx'. x') (g z)`. -/
theorem parse_text_eq_nested :
    let ty : Ty := .simple (.arrow (.arrow (.base "A") (.base "B")) (.base "C"))
    let t : Term := .lam "f" (some ty)
      (.app (.app (.var "f") (.lam "x'" none (.var "x'"))) (.app (.var "g") (.var "z")))
    (t.wellNamed = true ∧ Term.parse t.text = .ok t) ∧
      (ty.wellNamed = true ∧ (SimpleType.parse ty.text).map .simple = .ok ty) :=
  ⟨⟨by decide, parse_text_eq.1 _ (by decide)⟩, ⟨by decide, parse_text_eq.2 _ (by decide)⟩⟩

end LambdaShell
