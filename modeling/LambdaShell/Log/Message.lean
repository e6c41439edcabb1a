import LambdaShell.Log.Level
import LambdaShell.Reduction.Strategy
import LambdaShell.Storage.Path
import LambdaShell.Term.Description

/-!
# Log — messages

The functions of this library return what they report as data, in order:
a message says what happened, and has a level and a text. A caller shows
those at or above the level it was asked for, and the text of a message is
made only then.
-/

namespace LambdaShell

namespace Log

/-- **Messages**: what is reported. -/
inductive Message where
  /-- A term was reduced to another. -/
  | reduced (s : Strategy) (t u : Term)
  /-- A term reduces to itself. -/
  | cycle (s : Strategy) (t : Term)
  /-- The budget of an evaluation, as it was given, is used up. -/
  | budgetSpent (s : Strategy) (budget : Int)
  /-- An evaluation came to a term that is nested too deeply. -/
  | tooDeep (s : Strategy) (steps : Nat)
  /-- A name was defined. -/
  | defined (name : String) (t : Term)
  /-- A name was removed. -/
  | removed (name : String)
  /-- A library was loaded. -/
  | loaded (path : Storage.Path) (count : Nat)
  /-- A library was saved. -/
  | saved (path : Storage.Path) (count : Nat)
  /-- A line of a session failed. -/
  | lineFailed
deriving DecidableEq, Repr

namespace Message

/-- The level of a message. -/
def level : Message → Level
  | budgetSpent _ _ => .warning
  | tooDeep _ _ => .warning
  | loaded _ _ => .info
  | saved _ _ => .info
  | _ => .debug

/-- What a stopped evaluation is reported as. -/
def stopText (s : Strategy) (steps : String) : String :=
  "Stopped " ++ s.name ++ " evaluation after " ++ steps ++ " steps"

/-- **The text of a message.** -/
def text : Message → String
  | reduced s t u => s.name ++ ": " ++ t.describe ++ " -> " ++ u.describe
  | cycle s t => s.name ++ ": cycle detected at " ++ t.describe
  | budgetSpent s budget => stopText s (toString budget)
  | tooDeep s steps => stopText s (Nat.repr steps) ++ ": term nested too deeply"
  | defined name t => "bind " ++ name ++ " = " ++ t.describe
  | removed name => "unbind " ++ name
  | loaded path count => "Loaded " ++ Nat.repr count ++ " definitions from " ++ path.text
  | saved path count => "Saved " ++ Nat.repr count ++ " definitions to " ++ path.text
  | lineFailed => "command failed"

end Message

/-- The messages at or above a level. -/
def atLeast (level : Level) (messages : List Message) : List Message :=
  messages.filter fun m => level.value ≤ m.level.value

end Log

end LambdaShell
