import LambdaShell.Session.Basic

/-!
# Sessions — dialogues

A dialogue feeds a session the lines of a text: it prompts, takes the
characters up to the next line end, and shows the answer, until a line ends
the session. The end of the text counts as a line of its own that does so.
-/

namespace LambdaShell

namespace Session

/-- **A dialogue**: the session afterwards, the text shown, the messages, the
result of the last line, and the text that was not read. -/
structure Dialogue where
  session : Session
  output : String
  log : List Log.Message
  result : Result
  rest : List Char

/-- A dialogue after other text and messages. -/
def Dialogue.after (output : String) (log : List Log.Message) (d : Dialogue) : Dialogue :=
  { d with output := output ++ d.output, log := log ++ d.log }

/-- Whether a dialogue goes on after a line. -/
def Result.goesOn : Result → Bool
  | .proceed => true
  | .failed _ => true
  | .quit => false
  | .faulted _ => false
  | .unfinished => false

/-- The characters after the first line end. -/
def afterLine (cs : List Char) : List Char := (cs.dropWhile (· ≠ '\n')).tail

theorem length_afterLine_lt {cs : List Char} (h : cs ≠ []) : (afterLine cs).length < cs.length := by
  have hle : (cs.dropWhile (· ≠ '\n')).length ≤ cs.length := (List.dropWhile_sublist _).length_le
  have hpos : 0 < cs.length := List.length_pos_iff.2 h
  simp only [afterLine, List.length_tail]
  omega

/-- The dialogue over the given characters, from the first prompt on. -/
def converse (host : Host) (s : Session) (cs : List Char) : Dialogue :=
  if _h : cs = [] then
    let r := s.line host "EOF"
    ⟨r.session, prompt ++ r.output, r.log, r.result, []⟩
  else
    let r := s.line host (String.ofList (cs.takeWhile (· ≠ '\n')))
    let rest := afterLine cs
    if r.result.goesOn then (converse host r.session rest).after (prompt ++ r.output) r.log
    else ⟨r.session, prompt ++ r.output, r.log, r.result, rest⟩
termination_by cs.length
decreasing_by exact length_afterLine_lt _h

/-- **The dialogue over a text.** -/
def dialogue (host : Host) (s : Session) (input : String) : Dialogue :=
  (s.converse host input.toList).after (banner ++ "\n") []

/-- Lines one after another, up to the first after which the session does not
go on. -/
def runLines (host : Host) (s : Session) : List String → Dialogue
  | [] => ⟨s, "", [], .proceed, []⟩
  | text :: texts =>
    let r := s.line host text
    if r.result.goesOn then (runLines host r.session texts).after r.output r.log
    else ⟨r.session, r.output, r.log, r.result, []⟩

end Session

end LambdaShell
