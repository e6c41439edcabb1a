import LambdaShell.Text.Printable

/-!
# Text — quoted text

How a piece of text is shown inside a message: between quotation marks, on
one line, with everything that would not be visible escaped. Apostrophes
are the marks of choice; double quotes are used for a text that holds
apostrophes and no double quote, so that no escape is needed there.
-/

namespace LambdaShell

namespace Text

/-- The apostrophe, which is the usual quotation mark. -/
def apostrophe : Char := '\x27'

/-- The lower-case hexadecimal digits of `n`, filled up with zeros to `width`. -/
def hexDigits (width n : Nat) : List Char :=
  let digits := Nat.toDigits 16 n
  List.replicate (width - digits.length) '0' ++ digits

/-- The escape of an unprintable character: two, four or eight hexadecimal
digits, whichever suffices first. -/
def escapeUnprintable (c : Char) : List Char :=
  let n := c.toNat
  if n < 0x100 then '\\' :: 'x' :: hexDigits 2 n
  else if n < 0x10000 then '\\' :: 'u' :: hexDigits 4 n
  else '\\' :: 'U' :: hexDigits 8 n

/-- How one character is written between marks `mark`. -/
def escapeChar (mark c : Char) : List Char :=
  if c = mark ∨ c = '\\' then ['\\', c]
  else if c = '\n' then ['\\', 'n']
  else if c = '\r' then ['\\', 'r']
  else if c = '\t' then ['\\', 't']
  else if isPrintable c then [c]
  else escapeUnprintable c

/-- **The quotation mark chosen for a text.** -/
def quoteMark (cs : List Char) : Char :=
  if apostrophe ∈ cs ∧ '"' ∉ cs then '"' else apostrophe

/-- **A text in quotation marks**, with its own marks, backslashes and
unprintable characters escaped. -/
def quoted (s : String) : String :=
  let mark := quoteMark s.toList
  String.ofList (mark :: s.toList.flatMap (escapeChar mark) ++ [mark])

end Text

end LambdaShell
