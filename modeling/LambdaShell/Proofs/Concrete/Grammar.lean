import LambdaShell.Concrete.LibraryReader
import LambdaShell.Concrete.Statement

/-!
# Concrete syntax — the grammar

The grammar of the written language, one constructor of `Derives` for each
production. A production says which tokens it puts together and which value
it makes of the values of its parts; nothing is said of the order in which
a reader notices them. The readers are measured against it elsewhere: what
they make of a list of tokens is what the list derives, and they refuse a
token exactly where no sentence goes on with it.

A sentence is derived from one of four symbols, `Start`, each of which has
a function that reads a text as its value.
-/

namespace LambdaShell

namespace Grammar

open TermReader (Binder)

/-- **The symbols of the grammar.** -/
inductive Symbol where
  | library
  | definitions
  | definition
  | statement
  /-- A semicolon that may be missing. -/
  | ending
  | term
  | lam
  | app
  | atom
  | binders
  | binder
  | type
  /-- A type that needs no parentheses on either side of an arrow. -/
  | operand
deriving DecidableEq, Repr

/-- **What a symbol stands for.** -/
@[reducible] def Symbol.Value : Symbol → Type
  | library | definitions => List Definition
  | definition => Definition
  | statement => Statement
  | ending => Unit
  | term | lam | app | atom => Term
  | binders => List Binder
  | binder => Binder
  | type | operand => SimpleType

/-- The abstraction of a term over binders, the first of them outermost. -/
def abstract (binders : List Binder) (body : Term) : Term :=
  binders.foldr (fun b t => .lam b.name (b.declared.map .simple) t) body

/-- **The tokens derive the value from the symbol.** -/
inductive Derives : (symbol : Symbol) → List Token → symbol.Value → Prop where
  -- Libraries and statements.
  | library {ts : List Token} {ds : List Definition} :
      Derives .definitions ts ds → Derives .library ts ds
  | definitions {ts us : List Token} {ds : List Definition} {d : Definition} :
      Derives .definitions ts ds → Derives .definition us d →
        Derives .definitions (ts ++ us) (ds ++ [d])
  | noDefinitions : Derives .definitions [] []
  | definition {ts : List Token} (x : String) {t : Term} :
      Derives .term ts t → Derives .definition (.ident x :: .equals :: (ts ++ [.semicolon])) ⟨x, t⟩
  | statementDefinition {ts us : List Token} (x : String) {t : Term} :
      Derives .term ts t → Derives .ending us () →
        Derives .statement (.ident x :: .equals :: (ts ++ us)) (.definition ⟨x, t⟩)
  | statementTerm {ts us : List Token} {t : Term} :
      Derives .term ts t → Derives .ending us () → Derives .statement (ts ++ us) (.term t)
  | semicolon : Derives .ending [.semicolon] ()
  | noSemicolon : Derives .ending [] ()
  -- Terms. An abstraction may end an application.
  | termLam {ts : List Token} {t : Term} : Derives .lam ts t → Derives .term ts t
  | termAppLam {ts us : List Token} {fn arg : Term} :
      Derives .app ts fn → Derives .lam us arg → Derives .term (ts ++ us) (.app fn arg)
  | termApp {ts : List Token} {t : Term} : Derives .app ts t → Derives .term ts t
  | lam {ts us : List Token} {bs : List Binder} {t : Term} :
      Derives .binders ts bs → Derives .term us t →
        Derives .lam (.lambda :: (ts ++ .dot :: us)) (abstract bs t)
  | app {ts us : List Token} {fn arg : Term} :
      Derives .app ts fn → Derives .atom us arg → Derives .app (ts ++ us) (.app fn arg)
  | appAtom {ts : List Token} {t : Term} : Derives .atom ts t → Derives .app ts t
  | atomName (x : String) : Derives .atom [.ident x] (.var x)
  | atomGroup {ts : List Token} {t : Term} :
      Derives .term ts t → Derives .atom (.lparen :: (ts ++ [.rparen])) t
  -- Binders, of which there is at least one.
  | binders {ts us : List Token} {bs : List Binder} {b : Binder} :
      Derives .binders ts bs → Derives .binder us b → Derives .binders (ts ++ us) (bs ++ [b])
  | oneBinder {ts : List Token} {b : Binder} : Derives .binder ts b → Derives .binders ts [b]
  | binderName (x : String) : Derives .binder [.ident x] ⟨x, none⟩
  | binderDeclared {ts : List Token} (x : String) {τ : SimpleType} :
      Derives .type ts τ → Derives .binder (.ident x :: .colon :: ts) ⟨x, some τ⟩
  | binderGroup {ts : List Token} (x : String) {τ : SimpleType} :
      Derives .type ts τ →
        Derives .binder (.lparen :: .ident x :: .colon :: (ts ++ [.rparen])) ⟨x, some τ⟩
  -- Types. Only the codomain of an arrow can be an arrow without parentheses.
  | typeArrow {ts us : List Token} {σ τ : SimpleType} :
      Derives .operand ts σ → Derives .type us τ → Derives .type (ts ++ .arrow :: us) (.arrow σ τ)
  | typeOperand {ts : List Token} {τ : SimpleType} : Derives .operand ts τ → Derives .type ts τ
  | operandName (x : String) : Derives .operand [.ident x] (.base x)
  | operandGroup {ts : List Token} {τ : SimpleType} :
      Derives .type ts τ → Derives .operand (.lparen :: (ts ++ [.rparen])) τ

/-- **The beginning of a sentence**: some tokens after these make a sentence. -/
def Viable (symbol : Symbol) (ts : List Token) : Prop :=
  ∃ (us : List Token) (v : symbol.Value), Derives symbol (ts ++ us) v

/-! ## Where a sentence starts -/

/-- **What a text can be read as.** -/
inductive Start where
  | term
  | type
  | statement
  | library
deriving DecidableEq, Repr

/-- The symbol that the sentences are derived from. -/
@[reducible] def Start.symbol : Start → Symbol
  | term => .term
  | type => .type
  | statement => .statement
  | library => .library

/-- **Reading a text**, as what the start asks for. -/
def Start.parse : (start : Start) → String → Except SyntaxError start.symbol.Value
  | term => Term.parse
  | type => SimpleType.parse
  | statement => Statement.parse
  | library => Definition.parseAll

/-- **The texts that are read by the grammar.** A library of blanks is empty
whatever the grammar says of the blanks, and is left aside. -/
def Start.Admits (start : Start) (source : String) : Prop :=
  start = .library → Text.allBlank source = false

end Grammar

end LambdaShell
