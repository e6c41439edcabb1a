import LambdaShell.Concrete.TypeReader
import LambdaShell.Term.Basic

/-!
# Concrete syntax — reading terms

An application is a row of names and parenthesised terms, nested to the
left; an abstraction may stand at its end and reaches as far to the right
as possible. Between `λ` and the dot there are one or more binders: a name,
a name with its type, or both in parentheses. A type without parentheses
ends where the next binder or the dot begins.

The reader keeps, innermost first, the open parentheses and the
abstractions whose bodies are being read, each with the application it will
be the argument of. It stands for the LALR(1) parser that starts from the
production of a term (see `Reader`).
-/

namespace LambdaShell

namespace TermReader

/-- **A binder**: a name, perhaps with its type. -/
structure Binder where
  name : String
  declared : Option SimpleType
deriving DecidableEq, Repr

/-- The abstraction of a term over binders, the last of which comes first. -/
def abstractOver : List Binder → Term → Term
  | [], t => t
  | b :: bs, t => abstractOver bs (.lam b.name (b.declared.map .simple) t)

/-- A term as the argument of what was read before it, if anything was. -/
def join : Option Term → Term → Term
  | none, t => t
  | some fn, t => .app fn t

/-- An abstraction being read: the application it ends, and its binders so
far, last one first. -/
structure Header where
  fn : Option Term
  binders : List Binder
deriving DecidableEq, Repr

/-- A header with one more binder. -/
def Header.add (h : Header) (b : Binder) : Header := { h with binders := b :: h.binders }

/-- What waits for the term being read. -/
inductive Frame where
  /-- An open parenthesis after the application `fn`. -/
  | group (fn : Option Term)
  /-- An abstraction whose body is being read. -/
  | body (h : Header)
deriving DecidableEq, Repr

/-- What is being read. -/
inductive Mode where
  /-- An application; `fn` is what there is of it. -/
  | spine (fn : Option Term)
  /-- The binders of an abstraction, at the beginning of one or at the dot. -/
  | header (h : Header)
  /-- A binder, after its name. -/
  | name (h : Header) (x : String)
  /-- A binder in parentheses, before its name. -/
  | groupOpen (h : Header)
  /-- A binder in parentheses, after its name. -/
  | groupName (h : Header) (x : String)
  /-- The type of a binder, in parentheses or not. -/
  | declared (h : Header) (x : String) (grouped : Bool) (type : TypeReader.State)
deriving DecidableEq, Repr

/-- **The state of a term reader.** -/
structure State where
  frames : List Frame
  mode : Mode
deriving DecidableEq, Repr

/-- The state at the beginning of a term. -/
def start : State := ⟨[], .spine none⟩

/-- The abstractions that wait innermost take the term as their body, and
with it end the applications they stand in. -/
def closeBodies : List Frame → Term → List Frame × Term
  | .body h :: frames, t => closeBodies frames (join h.fn (abstractOver h.binders t))
  | frames, t => (frames, t)

/-- One token of an application. -/
def spineStep (frames : List Frame) (fn : Option Term) : Token → Option State
  | .ident x => some ⟨frames, .spine (some (join fn (.var x)))⟩
  | .lparen => some ⟨.group fn :: frames, .spine none⟩
  | .lambda => some ⟨frames, .header ⟨fn, []⟩⟩
  | .rparen =>
    match fn with
    | none => none
    | some t =>
      match closeBodies frames t with
      | (.group fn' :: frames', t') => some ⟨frames', .spine (some (join fn' t'))⟩
      | _ => none
  | _ => none

/-- One token among binders, between two of them. -/
def headerStep (frames : List Frame) (h : Header) : Token → Option State
  | .ident x => some ⟨frames, .name h x⟩
  | .lparen => some ⟨frames, .groupOpen h⟩
  | .dot => if h.binders.isEmpty then none else some ⟨.body h :: frames, .spine none⟩
  | _ => none

/-- One token of the type of a binder. A token that does not continue a
complete type ends it. -/
def declaredStep (frames : List Frame) (h : Header) (x : String) (grouped : Bool)
    (type : TypeReader.State) (token : Token) : Option State :=
  match TypeReader.step type token with
  | some type' => some ⟨frames, .declared h x grouped type'⟩
  | none =>
    match TypeReader.result type with
    | none => none
    | some τ =>
      let h' := h.add ⟨x, some τ⟩
      if grouped then (if token = .rparen then some ⟨frames, .header h'⟩ else none)
      else headerStep frames h' token

/-- One token of a term. -/
def step (state : State) (token : Token) : Option State :=
  match state.mode with
  | .spine fn => spineStep state.frames fn token
  | .header h => headerStep state.frames h token
  | .name h x =>
    if token = .colon then some ⟨state.frames, .declared h x false TypeReader.start⟩
    else headerStep state.frames (h.add ⟨x, none⟩) token
  | .groupOpen h =>
    match token with
    | .ident x => some ⟨state.frames, .groupName h x⟩
    | _ => none
  | .groupName h x =>
    if token = .colon then some ⟨state.frames, .declared h x true TypeReader.start⟩ else none
  | .declared h x grouped type => declaredStep state.frames h x grouped type token

/-- The term read, if it is complete. -/
def result (state : State) : Option Term :=
  match state.mode with
  | .spine (some t) =>
    match closeBodies state.frames t with
    | ([], t') => some t'
    | _ => none
  | _ => none

end TermReader

/-- **The reader of terms.** -/
def termReader : Reader TermReader.State Term :=
  ⟨TermReader.start, TermReader.step, TermReader.result⟩

/-- **The term a text denotes.** -/
def Term.parse (source : String) : Except SyntaxError Term := termReader.read source

end LambdaShell
