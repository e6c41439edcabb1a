/-!
# Concrete syntax — tokens

The words of the written language: names and eight marks. Lambda and the
arrow have two spellings each, which give the same token. A located token
remembers where it stood, in code points from the start of the text.
-/

namespace LambdaShell

/-- **Tokens.** -/
inductive Token where
  /-- A name. -/
  | ident (name : String)
  /-- Lambda: `λ` or a backslash. -/
  | lambda
  /-- A dot. -/
  | dot
  /-- A colon. -/
  | colon
  /-- An arrow: `->` or `→`. -/
  | arrow
  /-- An equals sign. -/
  | equals
  /-- A semicolon. -/
  | semicolon
  /-- An opening parenthesis. -/
  | lparen
  /-- A closing parenthesis. -/
  | rparen
deriving DecidableEq, Repr

/-- **A piece of a text**, from its first code point to the one after its last. -/
structure Span where
  start : Nat
  stop : Nat
deriving DecidableEq, Repr

/-- The characters of a text in a span, as far as there are any. -/
def Span.extract (s : Span) (source : String) : String :=
  String.ofList ((source.toList.drop s.start).take (s.stop - s.start))

/-- A token and its place. -/
structure Located where
  token : Token
  span : Span
deriving DecidableEq, Repr

namespace Token

/-- The characters a name can start with. -/
def isNameStart (c : Char) : Bool := c.isAlpha || c == '_'

/-- The characters a name can go on with. -/
def isNameChar (c : Char) : Bool := c.isAlphanum || c == '_' || c == '\x27'

/-- The characters between tokens that mean nothing. -/
def isLayout (c : Char) : Bool := c == ' ' || c == '\t' || c == '\r' || c == '\n'

/-- The marks of one character. -/
def ofChar? (c : Char) : Option Token :=
  if c = 'λ' ∨ c = '\\' then some lambda
  else if c = '.' then some dot
  else if c = ':' then some colon
  else if c = '→' then some arrow
  else if c = '=' then some equals
  else if c = ';' then some semicolon
  else if c = '(' then some lparen
  else if c = ')' then some rparen
  else none

/-- **Whether a text is a name**: a letter or underscore, then letters,
digits, underscores and apostrophes. -/
def isName (s : String) : Bool :=
  match s.toList with
  | [] => false
  | c :: cs => isNameStart c && cs.all isNameChar

end Token

end LambdaShell
