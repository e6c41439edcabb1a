import LambdaShell.Text.Blank
import LambdaShell.Text.DecimalDigit

/-!
# Text — integers

The written form of an integer: blanks, at most one sign, decimal digits of
any script with single underscores allowed between them, blanks. The
information separators, blank elsewhere, are not accepted around a number.
-/

namespace LambdaShell

namespace Text

/-- The digits after the first one, read onto `value`; an underscore counts
only between two digits. -/
def readDigits : Nat → List Char → Option Nat
  | value, [] => some value
  | value, '_' :: c :: cs => (digitValue? c).bind fun d => readDigits (10 * value + d) cs
  | value, c :: cs => (digitValue? c).bind fun d => readDigits (10 * value + d) cs

/-- A nonempty run of digits. -/
def readNatural? : List Char → Option Nat
  | [] => none
  | c :: cs => (digitValue? c).bind fun d => readDigits d cs

/-- An optional sign and a nonempty run of digits. -/
def readSigned? : List Char → Option Int
  | '+' :: cs => (readNatural? cs).map Int.ofNat
  | '-' :: cs => (readNatural? cs).map fun n => -Int.ofNat n
  | cs => (readNatural? cs).map Int.ofNat

/-- The blanks that may surround a number. -/
def isNumeralBlank (c : Char) : Bool := isBlank c && !(0x1C ≤ c.toNat && c.toNat ≤ 0x1F)

/-- **The integer a text denotes**, or `none` when it denotes none. -/
def readInteger? (s : String) : Option Int :=
  readSigned? (stripWhere isNumeralBlank s.toList)

end Text

end LambdaShell
