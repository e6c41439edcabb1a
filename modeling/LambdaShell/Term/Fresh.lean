import LambdaShell.Text.DecimalDigit

/-!
# Terms — fresh names

A name is made fresh by numbering: the digits at its end are dropped and
the least positive number is put in their place that gives a name not to be
avoided. Among one more candidates than there are names to avoid, one is
free, so the search is bounded by the length of the list.
-/

namespace LambdaShell

namespace Fresh

/-- Characters without the decimal digits at their end. -/
def dropDigits (cs : List Char) : List Char := (cs.reverse.dropWhile Text.isDecimalDigit).reverse

/-- Characters without the digits at the end of their last line, where one
final line feed still belongs to that line. -/
def dropNumber (cs : List Char) : List Char :=
  if cs.getLast? = some '\n' then dropDigits cs.dropLast ++ ['\n'] else dropDigits cs

/-- **The stem of a name**: the name without its number, or all of it when it
is a number. -/
def stem (base : String) : String :=
  let cs := dropNumber base.toList
  if cs.isEmpty then base else String.ofList cs

/-- The stem with the number `k`. -/
def numbered (stem : String) (k : Nat) : String := stem ++ Nat.repr k

/-- The first number from `k` on that gives a name outside `avoid`, after at
most `tries` failures. -/
def firstFree (stem : String) (avoid : List String) : Nat → Nat → Nat
  | 0, k => k
  | tries + 1, k => if numbered stem k ∈ avoid then firstFree stem avoid tries (k + 1) else k

/-- **A name like `base` that is not in `avoid`.** -/
def name (base : String) (avoid : List String) : String :=
  numbered (stem base) (firstFree (stem base) avoid avoid.length 1)

end Fresh

end LambdaShell
