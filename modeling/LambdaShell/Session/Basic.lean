import LambdaShell.Concrete.Statement
import LambdaShell.Evaluation.Outcome
import LambdaShell.Session.Command
import LambdaShell.Session.Failure
import LambdaShell.Settings

/-!
# Sessions

A session has settings, an environment and a store. A line of input is
answered by a reply: the session afterwards, the lines shown, the messages
logged, and the result. A line that fails still shows what it had shown
before, and leaves behind what it had done before. A line whose evaluation
is not finished within the host's fuel has no answer yet; the reply holds
what it has shown so far.
-/

namespace LambdaShell

open Storage (Path Store)

/-- **The state of a session.** -/
structure Session where
  settings : Settings
  env : Environment
  store : Store

namespace Session

/-- **What a session is given from outside**: the limits of its evaluations
and the time. -/
structure Host where
  limits : Limits
  /-- The time, as it is written into libraries. -/
  stamp : String

/-- **How a line ends.** -/
inductive Result where
  /-- The session goes on. -/
  | proceed
  /-- The session is over. -/
  | quit
  /-- The session goes on after a report. -/
  | failed (f : Failure)
  /-- The line broke off without a report. -/
  | faulted (f : Fault)
  /-- The line has not ended: the fuel was used up by an evaluation without a budget. -/
  | unfinished
deriving DecidableEq, Repr

/-- How a line ends with an evaluation of the given kind. -/
def Result.ofKind : Evaluation.Kind → Result
  | .normalForm => .proceed
  | .diverges => .proceed
  | .stepLimit => .proceed
  | .tooDeep => .proceed
  | .unfinished => .unfinished

/-- What ends with an evaluation goes on or is unfinished. -/
theorem Result.ofKind_cases (kind : Evaluation.Kind) :
    ofKind kind = .proceed ∨ ofKind kind = .unfinished := by
  cases kind with
  | unfinished => exact .inr rfl
  | _ => exact .inl rfl

theorem Result.ofKind_eq_unfinished_iff {kind : Evaluation.Kind} :
    ofKind kind = .unfinished ↔ kind = .unfinished := by
  cases kind <;> simp [ofKind]

/-- **The answer to a line.** -/
structure Reply where
  session : Session
  /-- The lines shown. -/
  lines : List String
  log : List Log.Message
  result : Result

namespace Reply

/-- A reply that shows lines and changes nothing. -/
def say (s : Session) (lines : List String) : Reply := ⟨s, lines, [], .proceed⟩

/-- A reply that ends in a failure and changes nothing. -/
def fail (s : Session) (f : Failure) : Reply := ⟨s, [], [], .failed f⟩

/-- A reply that ends in a fault and changes nothing. -/
def fault (s : Session) (f : Fault) : Reply := ⟨s, [], [], .faulted f⟩

/-- A reply after other lines and messages. -/
def after (lines : List String) (log : List Log.Message) (r : Reply) : Reply :=
  { r with lines := lines ++ r.lines, log := log ++ r.log }

/-- The text shown. -/
def output (r : Reply) : String := String.join (r.lines.map (· ++ "\n"))

end Reply

/-- A term as the session shows it. -/
def showTerm (s : Session) (t : Term) : String :=
  if s.settings.showAliases then t.textIn s.env else t.text

/-! ## Statements -/

/-- The line that shows a reduct. -/
def stepLine (s : Session) (t : Term) : String := " → " ++ s.showTerm t

/-- The lines that show where an evaluation came to. -/
def outcomeLines (s : Session) (o : Evaluation.Outcome) : List String :=
  let name := s.settings.strategy.name
  let final := if s.settings.showSteps then [] else [s.stepLine o.term]
  match o.kind with
  | .normalForm => final ++ [" ⇸"]
  | .diverges => ["The term '" ++ o.term.text ++ "' diverges using the " ++ name ++ " strategy."]
  | .stepLimit =>
    final ++ ["Gave up after " ++ Nat.repr o.stepCount ++ " steps using the " ++ name ++ " strategy."]
  | .tooDeep =>
    ["Gave up after " ++ Nat.repr o.stepCount ++ " steps using the " ++ name ++
      " strategy: the term is nested too deeply."]
  | .unfinished => []

/-- **The evaluation of a closed term**, shown. -/
def runTerm (host : Host) (s : Session) (t : Term) : Reply :=
  let budget := s.settings.budget
  let o := s.settings.strategy.evaluate host.limits budget t
  let steps := if s.settings.showSteps then o.reducts.map s.stepLine else []
  ⟨s, steps ++ s.outcomeLines o, Evaluation.messages s.settings.strategy budget o,
    .ofKind o.kind⟩

/-- An evaluation is shown or unfinished; it is no failure and not the end. -/
theorem result_runTerm_cases (host : Host) (s : Session) (t : Term) :
    (s.runTerm host t).result = .proceed ∨ (s.runTerm host t).result = .unfinished :=
  Result.ofKind_cases _

/-- The evaluation of an expanded term: its free names are reported, and its
type if it has to have one and has none. -/
def checkAndRun (host : Host) (s : Session) (t : Term) : Reply :=
  if t.isClosed then
    if s.settings.checkTypes then
      match Typing.typeOf .empty t with
      | .error e => .fault s (.arrow e)
      | .ok (.fault reason) => .say s [(Ty.fault reason).text]
      | .ok (.simple _) => s.runTerm host t
    else s.runTerm host t
  else .say s (t.issues.map Term.Issue.message)

/-- The line that repeats a term. A term that some name stands for is repeated
as it is. -/
def echoLine (s : Session) (t : Term) : String :=
  let folds := s.settings.showAliases && !s.env.containsTerm t
  "   " ++ (if folds then t.textIn s.env else t.text)

/-- **A term is entered**: it is repeated, expanded, checked and evaluated. -/
def enterTerm (host : Host) (s : Session) (t : Term) : Reply :=
  if t.fits host.limits.depth then
    Reply.after [s.echoLine t] [] <|
      match s.env.expand host.limits.depth t with
      | .error e => .fail s (.expansion e)
      | .ok expanded => s.checkAndRun host expanded
  else .fail s .tooDeep

/-- **A definition is entered.** -/
def enterDefinition (host : Host) (s : Session) (d : Definition) : Reply :=
  let s' := { s with env := s.env.define host.limits.depth d.name d.term }
  let log := [.defined d.name d.term]
  if d.term.fits host.limits.depth then
    ⟨s', [d.name ++ " added to the environment."], log, .proceed⟩
  else ⟨s', [], log, .failed .tooDeep⟩

/-- A statement is entered. -/
def enter (host : Host) (s : Session) (source : String) : Reply :=
  match Statement.parse source with
  | .error e => .fail s (.unparsable e)
  | .ok (.definition d) => s.enterDefinition host d
  | .ok (.term t) => s.enterTerm host t

/-! ## Commands -/

/-- A session with other settings. -/
def configure (s : Session) (f : Settings → Settings) : Session :=
  { s with settings := f s.settings }

/-- The lines of definitions, up to the first that is nested too deeply. -/
def definitionLines (depth : Option Nat) : List Definition → List String × Bool
  | [] => ([], true)
  | d :: ds =>
    if d.term.fits depth then
      let rest := definitionLines depth ds
      ((d.name ++ " = " ++ d.term.text) :: rest.1, rest.2)
    else ([], false)

/-- The definitions are listed. -/
def listDefinitions (host : Host) (s : Session) : Reply :=
  let listed := definitionLines host.limits.depth s.env.definitions
  ⟨s, listed.1, [], if listed.2 then .proceed else .failed .tooDeep⟩

/-- Names are removed. -/
def removeEach (s : Session) : List String → Session × List Log.Message
  | [] => (s, [])
  | name :: names =>
    let rest := removeEach { s with env := s.env.unbind name } names
    (rest.1, s.env.unbindMessages name ++ rest.2)

/-- **Names are removed**, and listed. -/
def remove (s : Session) (names : List String) : Reply :=
  let removed := s.removeEach names
  ⟨removed.1, ["[" ++ ", ".intercalate names ++ "] removed from the environment"], removed.2,
    .proceed⟩

/-- What becomes of a library that cannot be loaded or saved. -/
def libraryReply (s : Session) : Library.Failure → Reply
  | .reported e => .fail s (.library e)
  | .fault f => .fault s (.file f)

/-- **Libraries are loaded** one after another, up to the first that fails. -/
def load (host : Host) (s : Session) : List String → Reply
  | [] => .say s []
  | name :: names =>
    match Library.load s.store s.settings.libraryPath name with
    | .error f => s.libraryReply f
    | .ok definitions =>
      let defined := s.env.defineAll host.limits.depth definitions
      let s' := { s with env := defined.1 }
      let log := Environment.defineAllMessages host.limits.depth definitions
      if defined.2 then
        let path := Library.file s.settings.libraryPath name
        (load host s' names).after ["Library " ++ name ++ " loaded in the environment"]
          (log ++ [.loaded path definitions.length])
      else ⟨s', [], log, .failed .tooDeep⟩

/-- **The definitions are saved** as a library. Their text is made after the
library is known to be new and before anything is written. -/
def save (host : Host) (s : Session) (name : String) (overwrite : Bool) : Reply :=
  let path := Library.file s.settings.libraryPath name
  if name = "" then .say s ["Usage: :save <name>"]
  else if s.env.definitions.all (·.term.fits host.limits.depth) then
    match Library.save s.store s.settings.libraryPath name overwrite host.stamp s.env with
    | .error f => s.libraryReply f
    | .ok store =>
      ⟨{ s with store := store }, ["Environment saved to library " ++ name],
        [.saved path s.env.size], .proceed⟩
  else if s.store.contains path && !overwrite then .fail s (.library (.alreadyExists name))
  else .fail s .tooDeep

/-- A term is read and expanded, and the result is shown. -/
def withTerm (host : Host) (s : Session) (source : String) (answer : Term → Reply) : Reply :=
  match Term.parse source with
  | .error e => .fail s (.unparsable e)
  | .ok t =>
    match s.env.expand host.limits.depth t with
    | .error e => .fail s (.expansion e)
    | .ok expanded => answer expanded

/-- The type of a term is shown. -/
def showType (s : Session) (t : Term) : Reply :=
  match Typing.typeOf .empty t with
  | .error e => .fault s (.arrow e)
  | .ok ty => .say s [ty.text]

/-- The derivation of the type of a term is shown. -/
def showDerivation (s : Session) (t : Term) : Reply :=
  match Typing.derive .empty t with
  | .error e => .fault s (.arrow e)
  | .ok (d, _) =>
    match Latex.derivation d with
    | .error e => .fault s (.premises e)
    | .ok text => .say s [text]

/-- **A command is carried out.** -/
def command (host : Host) (s : Session) : Command → Reply
  | .help => .say s helpLines
  | .quit => ⟨s, [], [], .quit⟩
  | .select strategy =>
    .say (s.configure ({ · with strategy })) ["Using the " ++ strategy.name ++ " strategy."]
  | .showStrategy => .say s [s.settings.strategy.name]
  | .showSteps on => .say (s.configure ({ · with showSteps := on })) []
  | .showAliases on => .say (s.configure ({ · with showAliases := on })) []
  | .checkTypes on => .say (s.configure ({ · with checkTypes := on })) []
  | .listDefinitions => s.listDefinitions host
  | .remove names => s.remove names
  | .load names => s.load host names
  | .save name overwrite => s.save host name overwrite
  | .nameless source => s.withTerm host source fun t => .say s [(t.nameless []).text]
  | .typeOf source => s.withTerm host source s.showType
  | .derivation source => s.withTerm host source s.showDerivation
  | .unknown name =>
    .say s ["Unknown command :" ++ name ++ ". Type :help for the list of commands."]

/-! ## Lines -/

/-- The files that a line reads or writes. -/
def paths (s : Session) : Input → List Path
  | .command (.load names) => names.map (Library.file s.settings.libraryPath)
  | .command (.save name _) => [Library.file s.settings.libraryPath name]
  | _ => []

/-- What a line does, before a failure is reported. -/
def perform (host : Host) (s : Session) : Input → Reply
  | .blank => .say s []
  | .ending => ⟨s, [""], [], .quit⟩
  | .command c => s.command host c
  | .statement source => s.enter host source

/-- A reply with its failure reported. -/
def report (r : Reply) : Reply :=
  match r.result with
  | .failed f =>
    { r with lines := r.lines ++ [f.message], log := r.log ++ [.lineFailed] }
  | _ => r

/-- Where nothing has failed, nothing is reported. -/
theorem report_eq_self {r : Reply} (h : ∀ f, r.result ≠ .failed f) : report r = r := by
  unfold report
  split
  · rename_i f hf
    exact absurd hf (h f)
  · rfl

/-- **The answer of a session to a line.** -/
def line (host : Host) (s : Session) (text : String) : Reply :=
  report (s.perform host (.parse text))

end Session

end LambdaShell
