import LambdaShell.Reduction.Step
import LambdaShell.Text.Quoted

/-!
# Reduction — strategies

The three disciplines under the names by which a user selects them.
-/

namespace LambdaShell

/-- **The reduction strategies.** -/
inductive Strategy where
  | normalOrder
  | callByName
  | callByValue
deriving DecidableEq, Repr

/-- A name that no strategy has. -/
structure UnknownStrategy where
  name : String
deriving DecidableEq, Repr

/-- What an unknown strategy is reported as. -/
def UnknownStrategy.message (e : UnknownStrategy) : String :=
  "Unknown strategy " ++ Text.quoted e.name

namespace Strategy

/-- All strategies, in the order in which they are listed. -/
def all : List Strategy := [normalOrder, callByName, callByValue]

/-- The name of a strategy. -/
def name : Strategy → String
  | normalOrder => "normal-order"
  | callByName => "call-by-name"
  | callByValue => "call-by-value"

/-- **One step of a strategy.** -/
def step : Strategy → Term → Option Term
  | normalOrder => Reduction.normalOrder
  | callByName => Reduction.callByName
  | callByValue => Reduction.callByValue

/-- **The strategy of a name.** -/
def ofName (name : String) : Except UnknownStrategy Strategy :=
  match all.find? fun s => s.name = name with
  | some s => .ok s
  | none => .error ⟨name⟩

theorem ofName_name (s : Strategy) : ofName s.name = .ok s := by
  cases s <;> rfl

end Strategy

end LambdaShell
