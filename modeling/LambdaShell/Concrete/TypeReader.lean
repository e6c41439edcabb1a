import LambdaShell.Concrete.Reader
import LambdaShell.Ty

/-!
# Concrete syntax — reading types

A type is a name, a type in parentheses, or an arrow, which associates to
the right: `A -> B -> C` is `A -> (B -> C)`. The reader keeps the domains
and open parentheses that wait for what follows them, innermost first. It
stands for the part of the LALR(1) parser that the productions of types give
(see `Reader`).
-/

namespace LambdaShell

namespace TypeReader

/-- What waits for the type being read. -/
inductive Frame where
  /-- An open parenthesis. -/
  | group
  /-- A domain and an arrow. -/
  | domain (σ : SimpleType)
deriving DecidableEq, Repr

/-- **The state of a type reader**: what waits, and the operand just read, if
an arrow or the end may follow. -/
structure State where
  frames : List Frame
  operand : Option SimpleType
deriving DecidableEq, Repr

/-- The state at the beginning of a type. -/
def start : State := ⟨[], none⟩

/-- The domains that wait innermost take the type as their codomain. -/
def closeArrows : List Frame → SimpleType → List Frame × SimpleType
  | .domain σ :: frames, τ => closeArrows frames (.arrow σ τ)
  | frames, τ => (frames, τ)

/-- One token of a type. -/
def step (state : State) (token : Token) : Option State :=
  match state.operand, token with
  | none, .ident name => some ⟨state.frames, some (.base name)⟩
  | none, .lparen => some ⟨.group :: state.frames, none⟩
  | some τ, .arrow => some ⟨.domain τ :: state.frames, none⟩
  | some τ, .rparen =>
    match closeArrows state.frames τ with
    | (.group :: frames, τ') => some ⟨frames, some τ'⟩
    | _ => none
  | _, _ => none

/-- The type read, if it is complete. -/
def result (state : State) : Option SimpleType :=
  match state.operand with
  | none => none
  | some τ =>
    match closeArrows state.frames τ with
    | ([], τ') => some τ'
    | _ => none

end TypeReader

/-- **The reader of types.** -/
def typeReader : Reader TypeReader.State SimpleType :=
  ⟨TypeReader.start, TypeReader.step, TypeReader.result⟩

/-- **The type a text denotes.** -/
def SimpleType.parse (source : String) : Except SyntaxError SimpleType := typeReader.read source

end LambdaShell
