import LambdaShell.Concrete.TermReader
import LambdaShell.Environment.Basic

/-!
# Concrete syntax — statements

A statement is a term, or a name, an equals sign and a term: a definition.
A semicolon may end it. The two kinds begin alike, so a name at the very
beginning is kept until the next token tells them apart. The reader stands
for the LALR(1) parser that starts from the production of a statement (see
`Reader`).
-/

namespace LambdaShell

/-- **Statements**: what a user enters. -/
inductive Statement where
  /-- The definition of a name. -/
  | definition (d : Definition)
  /-- A term to be evaluated. -/
  | term (t : Term)
deriving DecidableEq, Repr

namespace StatementReader

/-- **The state of a statement reader.** -/
inductive State where
  /-- Nothing is read yet. -/
  | start
  /-- One name is read, to be defined or not. -/
  | name (x : String)
  /-- The term is being read; `target` is the name it defines, if any. -/
  | body (target : Option String) (state : TermReader.State)
  /-- The semicolon is read. -/
  | ended (s : Statement)
deriving DecidableEq, Repr

/-- The statement about a term. -/
def conclude (target : Option String) (t : Term) : Statement :=
  match target with
  | some x => .definition ⟨x, t⟩
  | none => .term t

/-- One token of a statement inside its term or at its end. -/
def bodyStep (target : Option String) (state : TermReader.State) (token : Token) : Option State :=
  if token = .semicolon then (TermReader.result state).map fun t => .ended (conclude target t)
  else (TermReader.step state token).map (.body target)

/-- The state of a term reader that has read one name. -/
def afterName (x : String) : TermReader.State := ⟨[], .spine (some (.var x))⟩

/-- One token of a statement. -/
def step (state : State) (token : Token) : Option State :=
  match state with
  | .start =>
    match token with
    | .ident x => some (.name x)
    | _ => bodyStep none TermReader.start token
  | .name x =>
    if token = .equals then some (.body (some x) TermReader.start)
    else bodyStep none (afterName x) token
  | .body target inner => bodyStep target inner token
  | .ended _ => none

/-- The statement read, if it is complete. -/
def result : State → Option Statement
  | .start => none
  | .name x => some (.term (.var x))
  | .body target inner => (TermReader.result inner).map (conclude target)
  | .ended s => some s

end StatementReader

/-- **The reader of statements.** -/
def statementReader : Reader StatementReader.State Statement :=
  ⟨.start, StatementReader.step, StatementReader.result⟩

/-- **The statement a text denotes.** -/
def Statement.parse (source : String) : Except SyntaxError Statement :=
  statementReader.read source

end LambdaShell
