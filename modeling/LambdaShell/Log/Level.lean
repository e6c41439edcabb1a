/-!
# Log — levels

What happens during a session is reported at five levels of importance. A
user names the least level to be shown, in any case of letters.
-/

namespace LambdaShell

namespace Log

/-- **Levels of importance**, least first. -/
inductive Level where
  | debug
  | info
  | warning
  | error
  | critical
deriving DecidableEq, Repr

namespace Level

/-- All levels, least first. -/
def all : List Level := [debug, info, warning, error, critical]

/-- The written name of a level. -/
def name : Level → String
  | debug => "DEBUG"
  | info => "INFO"
  | warning => "WARNING"
  | error => "ERROR"
  | critical => "CRITICAL"

/-- The numeric value of a level. -/
def value : Level → Nat
  | debug => 10
  | info => 20
  | warning => 30
  | error => 40
  | critical => 50

/-- The upper case of a letter, as far as the names of the levels are
concerned: besides the ASCII letters only the dotless `ı` becomes one of
their letters, namely `I`. -/
def upperChar (c : Char) : Char := if c = 'ı' then 'I' else c.toUpper

/-- **The level of a name**, in any case. -/
def ofName? (s : String) : Option Level :=
  let upper := s.toList.map upperChar
  all.find? fun level => level.name.toList = upper

end Level

end Log

end LambdaShell
