import LambdaShell.Log.Message
import LambdaShell.OrderedMap
import LambdaShell.Term.Nameless
import LambdaShell.Text.Quoted

/-!
# Environments — named definitions

An environment gives meaning to names. It keeps, beside the definitions,
their nameless forms, by which a term is recognised as the meaning of a
name. A definition that is nested too deeply has no nameless form; it is
kept all the same, and the forms stay as they were.
-/

namespace LambdaShell

/-- **A definition**: a name and the term it stands for. -/
structure Definition where
  name : String
  term : Term
deriving DecidableEq, Repr

/-- **An environment.** -/
structure Environment where
  /-- The meaning of each name, in order of first definition. -/
  bindings : OrderedMap String Term
  /-- The nameless forms by which terms are recognised. -/
  forms : OrderedMap String Nameless
deriving DecidableEq, Repr

namespace Environment

/-- The environment without definitions. -/
def empty : Environment := ⟨.empty, .empty⟩

instance : Inhabited Environment := ⟨empty⟩

/-- **A definition**, replacing an earlier one of the same name in place. -/
def bind (env : Environment) (name : String) (t : Term) : Environment :=
  ⟨env.bindings.insert name t, env.forms.insert name (t.nameless [])⟩

/-- A definition whose nameless form is not computed. -/
def bindFormless (env : Environment) (name : String) (t : Term) : Environment :=
  { env with bindings := env.bindings.insert name t }

/-- **A definition under a limit of nesting**: beyond it there is no nameless
form. -/
def define (depth : Option Nat) (env : Environment) (name : String) (t : Term) : Environment :=
  if t.fits depth then env.bind name t else env.bindFormless name t

/-- Definitions one after another, up to and including the first that is
nested too deeply; the flag says whether there was none. -/
def defineAll (depth : Option Nat) : Environment → List Definition → Environment × Bool
  | env, [] => (env, true)
  | env, d :: ds =>
    if d.term.fits depth then defineAll depth (env.bind d.name d.term) ds
    else (env.bindFormless d.name d.term, false)

/-- **Removal of a name**; a name without meaning may be removed. -/
def unbind (env : Environment) (name : String) : Environment :=
  ⟨env.bindings.erase name, env.forms.erase name⟩

/-- The environment of a list of definitions. -/
def ofList (definitions : List Definition) : Environment :=
  definitions.foldl (fun env d => env.bind d.name d.term) empty

/-! ## Questions -/

/-- **The meaning of a name.** -/
def lookup (env : Environment) (name : String) : Option Term := env.bindings.get? name

/-- Whether a name has a meaning. -/
def contains (env : Environment) (name : String) : Bool := env.bindings.contains name

/-- The names, in order. -/
def names (env : Environment) : List String := env.bindings.keys

/-- The number of definitions. -/
def size (env : Environment) : Nat := env.bindings.size

/-- The definitions, in order. -/
def definitions (env : Environment) : List Definition :=
  env.bindings.entries.map fun e => ⟨e.1, e.2⟩

/-- **The first name that stands for a term**, up to renaming. -/
def aliasOf (env : Environment) (t : Term) : Option String :=
  let form := t.nameless []
  (env.forms.entries.find? fun e => e.2 = form).map Prod.fst

/-- Whether some name stands for a term. -/
def containsTerm (env : Environment) (t : Term) : Bool := (env.aliasOf t).isSome

/-- The environment at a glance: its names. -/
def summary (env : Environment) : String :=
  "Environment([" ++ ", ".intercalate (env.names.map Text.quoted) ++ "])"

/-! ## Messages -/

/-- The messages of definitions one after another, as far as `defineAll` gets. -/
def defineAllMessages (depth : Option Nat) : List Definition → List Log.Message
  | [] => []
  | d :: ds =>
    .defined d.name d.term :: (if d.term.fits depth then defineAllMessages depth ds else [])

/-- The messages of a removal: none for a name without meaning. -/
def unbindMessages (env : Environment) (name : String) : List Log.Message :=
  if env.contains name then [.removed name] else []

end Environment

end LambdaShell
