import LambdaShell.Concrete.Token

/-!
# Concrete syntax — scanning

Scanning splits a text into tokens. A name is as long as possible; blanks,
line ends and comments from `#` to the end of the line are skipped. The
first character that starts no token ends the scan, and the scan keeps it:
whether it is the error to report depends on the tokens before it.
-/

namespace LambdaShell

/-- **A scanned text**: the tokens up to the first illegal character, and that
character with its place, if there is one. -/
structure Scan where
  tokens : List Located
  illegal : Option (Nat × Char)
deriving DecidableEq, Repr

namespace Scan

/-- A scan with one more token in front. -/
def push (token : Token) (start length : Nat) (rest : Scan) : Scan :=
  { rest with tokens := ⟨token, ⟨start, start + length⟩⟩ :: rest.tokens }

theorem length_dropWhile_le (p : Char → Bool) (cs : List Char) :
    (cs.dropWhile p).length ≤ cs.length :=
  (List.dropWhile_sublist p).length_le

/-- **The scan of characters** of which the first has the given position. -/
def ofChars (position : Nat) (cs : List Char) : Scan :=
  match cs with
  | [] => ⟨[], none⟩
  | '-' :: '>' :: rest => push .arrow position 2 (ofChars (position + 2) rest)
  | c :: rest =>
    if Token.isLayout c then ofChars (position + 1) rest
    else if c = '#' then
      ofChars (position + 1 + (rest.takeWhile (· ≠ '\n')).length) (rest.dropWhile (· ≠ '\n'))
    else if Token.isNameStart c then
      let word := c :: rest.takeWhile Token.isNameChar
      push (.ident (String.ofList word)) position word.length
        (ofChars (position + word.length) (rest.dropWhile Token.isNameChar))
    else
      match Token.ofChar? c with
      | some token => push token position 1 (ofChars (position + 1) rest)
      | none => ⟨[], some (position, c)⟩
termination_by cs.length
decreasing_by
  · simp only [List.length_cons]; omega
  · simp only [List.length_cons]; omega
  · have := length_dropWhile_le (· ≠ '\n') rest; simp only [List.length_cons]; omega
  · have := length_dropWhile_le Token.isNameChar rest; simp only [List.length_cons]; omega
  · simp only [List.length_cons]; omega

/-- **The scan of a text.** -/
def ofText (source : String) : Scan := ofChars 0 source.toList

end Scan

end LambdaShell
