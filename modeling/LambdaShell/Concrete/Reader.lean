import LambdaShell.Concrete.Scan
import LambdaShell.Concrete.SyntaxError

/-!
# Concrete syntax — readers

A reader takes the tokens of a text one at a time and keeps what it needs
of them in a state. It refuses a token at once when nothing that could
follow makes sense of it, so the first refused token is the place of the
error. Once all tokens are taken, an illegal character is the error; without
one the state has to be complete.

The readers of types, terms, statements and libraries stand for the LALR(1)
parsers that a generator builds from the written productions. They assume of
its tables that they have no conflicts, recognise what the productions
derive and nothing else, and refuse a token at once. That the readers do
this is proved: the productions are the constructors of `Grammar.Derives`,
and the readers are compared with them.
-/

namespace LambdaShell

/-- **A reader** of values of type `α` with states of type `σ`. -/
structure Reader (σ α : Type) where
  /-- The state before the first token. -/
  start : σ
  /-- The state after a token, unless the token is refused. -/
  step : σ → Token → Option σ
  /-- The value read, if the tokens so far are complete. -/
  result : σ → Option α

namespace Reader

variable {σ α : Type}

/-- **The state after the given tokens**, or the place of the first refused one. -/
def feed (r : Reader σ α) (state : σ) : List Located → Except Span σ
  | [] => .ok state
  | t :: ts =>
    match r.step state t.token with
    | some state' => r.feed state' ts
    | none => .error t.span

/-- **Reading a text.** -/
def read (r : Reader σ α) (source : String) : Except SyntaxError α :=
  let scan := Scan.ofText source
  match r.feed r.start scan.tokens with
  | .error span => .error ⟨.unexpectedToken, span, source⟩
  | .ok state =>
    match scan.illegal with
    | some (position, c) =>
      .error ⟨.unexpectedCharacter c, ⟨position, position + 1⟩, source⟩
    | none =>
      match r.result state with
      | some value => .ok value
      | none => .error ⟨.unexpectedEnd, ⟨source.length, source.length⟩, source⟩

end Reader

end LambdaShell
