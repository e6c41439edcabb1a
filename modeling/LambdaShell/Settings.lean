import LambdaShell.Log.Level
import LambdaShell.Reduction.Strategy
import LambdaShell.Storage.Path
import LambdaShell.Text.Numeral

/-!
# Settings

The options of a session. What a user gives is a draft, in which the
strategy and the log level are names and the number of steps is any
integer; `Draft.validate` turns it into settings or says what is wrong,
looking at the strategy, the steps and the log level in this order.
-/

namespace LambdaShell

open Storage (Path)

/-- **The options of a session.** -/
structure Settings where
  strategy : Strategy
  /-- Whether each step of an evaluation is shown. -/
  showSteps : Bool
  /-- Whether known terms are shown by name. -/
  showAliases : Bool
  /-- Whether a term is evaluated only if it has a type. -/
  checkTypes : Bool
  /-- The directory of the libraries. -/
  libraryPath : Path
  /-- The most steps of an evaluation, or zero for no bound. -/
  maxSteps : Nat
  logLevel : Log.Level
  /-- The log level as it was given. -/
  logLevelName : String
deriving DecidableEq, Repr

/-- **What can be wrong with options.** -/
inductive ConfigError where
  | unknownStrategy (name : String)
  | negativeSteps
  | unknownLogLevel (name : String)
  /-- The text for the steps is no integer. -/
  | stepsNotInteger (text : String)
  /-- The text for the steps is a negative integer. -/
  | stepsTextNegative
deriving DecidableEq, Repr

/-- What a configuration error says. -/
def ConfigError.message : ConfigError → String
  | .unknownStrategy name =>
    "Unknown strategy " ++ Text.quoted name ++ "; expected one of " ++
      ", ".intercalate (Strategy.all.map Strategy.name)
  | .negativeSteps => "max_steps must be non-negative"
  | .unknownLogLevel name => "Unknown log level " ++ Text.quoted name
  | .stepsNotInteger text => "max steps must be an integer, got " ++ Text.quoted text
  | .stepsTextNegative => "max steps must be non-negative"

namespace Settings

/-- **Options as they are given.** -/
structure Draft where
  strategy : String
  showSteps : Bool
  showAliases : Bool
  checkTypes : Bool
  libraryPath : Path
  maxSteps : Int
  logLevel : String
deriving DecidableEq, Repr

/-- The options that hold when nothing is given. -/
def Draft.default : Draft :=
  ⟨"call-by-value", true, true, false, .here, 1000, "WARNING"⟩

/-- **The settings of a draft**, or what is wrong with it. -/
def Draft.validate (d : Draft) : Except ConfigError Settings :=
  match Strategy.ofName d.strategy with
  | .error e => .error (.unknownStrategy e.name)
  | .ok strategy =>
    if d.maxSteps < 0 then .error .negativeSteps
    else
      match Log.Level.ofName? d.logLevel with
      | none => .error (.unknownLogLevel d.logLevel)
      | some level =>
        .ok ⟨strategy, d.showSteps, d.showAliases, d.checkTypes, d.libraryPath,
          d.maxSteps.toNat, level, d.logLevel⟩

/-- The draft that settings come from. -/
def draft (s : Settings) : Draft :=
  ⟨s.strategy.name, s.showSteps, s.showAliases, s.checkTypes, s.libraryPath, s.maxSteps,
    s.logLevelName⟩

/-- The settings that hold when nothing is given. -/
def default : Settings :=
  ⟨.callByValue, true, true, false, .here, 1000, .warning, "WARNING"⟩

theorem validate_default : Draft.default.validate = .ok default := rfl

/-- **The budget of an evaluation**: none if there is no bound. -/
def budget (s : Settings) : Option Int := if s.maxSteps = 0 then none else some s.maxSteps

/-- **Changes of options**; what is not given stays. -/
structure Changes where
  strategy : Option String
  showSteps : Option Bool
  showAliases : Option Bool
  checkTypes : Option Bool
  libraryPath : Option Path
  maxSteps : Option Int
  logLevel : Option String
deriving DecidableEq, Repr

/-- No change. -/
def Changes.none : Changes := ⟨.none, .none, .none, .none, .none, .none, .none⟩

/-- A draft with changes made. -/
def Draft.change (d : Draft) (c : Changes) : Draft :=
  ⟨c.strategy.getD d.strategy, c.showSteps.getD d.showSteps, c.showAliases.getD d.showAliases,
    c.checkTypes.getD d.checkTypes, c.libraryPath.getD d.libraryPath, c.maxSteps.getD d.maxSteps,
    c.logLevel.getD d.logLevel⟩

/-- **Settings with changes made**, or what is wrong with the changes. -/
def change (s : Settings) (c : Changes) : Except ConfigError Settings :=
  (s.draft.change c).validate

/-- **The number of steps a text denotes.** -/
def parseSteps (text : String) : Except ConfigError Nat :=
  match Text.readInteger? text with
  | none => .error (.stepsNotInteger text)
  | some n => if n < 0 then .error .stepsTextNegative else .ok n.toNat

/-- The number of steps an optional text denotes. -/
def parseSteps? : Option String → Except ConfigError (Option Int)
  | .none => .ok .none
  | some text =>
    match parseSteps text with
    | .error e => .error e
    | .ok n => .ok (some n)

/-- The variables that give settings. -/
def variableNames : List String :=
  ["LAMCALC_STRATEGY", "LAMCALC_LIB_PATH", "LAMCALC_MAX_STEPS", "LAMCALC_LOG_LEVEL"]

/-- **The settings given by variables.** The text for the steps is read before
anything is checked. -/
def ofVariables (lookup : String → Option String) : Except ConfigError Settings :=
  match parseSteps? (lookup "LAMCALC_MAX_STEPS") with
  | .error e => .error e
  | .ok maxSteps =>
    default.change
      { Changes.none with
        strategy := lookup "LAMCALC_STRATEGY"
        libraryPath := (lookup "LAMCALC_LIB_PATH").map Path.parse
        maxSteps := maxSteps
        logLevel := lookup "LAMCALC_LOG_LEVEL" }

end Settings

end LambdaShell
