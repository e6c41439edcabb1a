/-!
# Text — blank characters

A blank is a character that separates words and is dropped at the ends of
a line: the Unicode white space, together with the four information
separators `U+001C`–`U+001F`. The class is wider than `Char.isWhitespace`,
which knows four ASCII characters.
-/

namespace LambdaShell

namespace Text

/-- **A blank character**: white space in the sense of Unicode, or one of
the information separators. -/
def isBlank (c : Char) : Bool :=
  let n := c.toNat
  (0x09 ≤ n && n ≤ 0x0D) || (0x1C ≤ n && n ≤ 0x20) || n == 0x85 || n == 0xA0 ||
  n == 0x1680 || (0x2000 ≤ n && n ≤ 0x200A) || n == 0x2028 || n == 0x2029 ||
  n == 0x202F || n == 0x205F || n == 0x3000

/-- A list of characters without its leading and trailing members of a class. -/
def stripWhere (p : Char → Bool) (cs : List Char) : List Char :=
  ((cs.dropWhile p).reverse.dropWhile p).reverse

/-- **The text without the blanks at its ends.** -/
def trim (s : String) : String := String.ofList (stripWhere isBlank s.toList)

/-- The words of a list of characters, where `word` holds the characters of
the current word, last one first. -/
def wordsFrom : List Char → List Char → List String
  | [], [] => []
  | word, [] => [String.ofList word.reverse]
  | [], c :: cs => if isBlank c then wordsFrom [] cs else wordsFrom [c] cs
  | w :: ws, c :: cs =>
    if isBlank c then String.ofList (w :: ws).reverse :: wordsFrom [] cs
    else wordsFrom (c :: w :: ws) cs

/-- **The words of a text**: its maximal runs of characters that are not blank. -/
def words (s : String) : List String := wordsFrom [] s.toList

/-- Whether a text holds blanks only. -/
def allBlank (s : String) : Bool := s.toList.all isBlank

end Text

end LambdaShell
