import LambdaShell.Settings

/-!
# Command line — options

The arguments of the program: options, their values, and the names of
libraries. A long option may be shortened to any beginning that no other
option shares, and may carry its value after an equals sign; a short option
may carry it directly. Two dashes end the options. All names of libraries
stand together; names after a later option are left over, and an argument
left over is a usage error.
-/

namespace LambdaShell

namespace CommandLine

/-- **Options.** -/
inductive Flag where
  | help
  | strategy
  | libraryPath
  | maxSteps
  | typing
  | logLevel
  | statement
deriving DecidableEq, Repr

/-- Whether an option has a value. -/
def Flag.takesValue : Flag → Bool
  | .help => false
  | .typing => false
  | _ => true

/-- The spellings of the options. -/
def spellings : List (String × Flag) :=
  [("-h", .help), ("--help", .help), ("--strategy", .strategy), ("--lib-path", .libraryPath),
   ("--max-steps", .maxSteps), ("--typing", .typing), ("--log-level", .logLevel),
   ("-e", .statement), ("--eval", .statement)]

/-- The option of an exact spelling. -/
def flagOf? (s : List Char) : Option Flag :=
  (spellings.find? fun e => e.1.toList = s).map Prod.snd

/-- **Why the program does not start.** -/
inductive Stop where
  /-- The arguments are wrong. -/
  | usage
  /-- The help was asked for. -/
  | help
deriving DecidableEq, Repr

/-- How the program is called. -/
def usage : String :=
  "usage: lamcalc [-h] [--strategy NAME] [--lib-path DIRECTORY] [--max-steps NUMBER] [--typing]\n" ++
  "               [--log-level LEVEL] [-e STATEMENT] [LIBRARY ...]"

/-- **Arguments, classified.** -/
inductive Argument where
  /-- A value or the name of a library. -/
  | word (s : String)
  /-- Two dashes, where they end the options. -/
  | dashes
  /-- An option, with the value it carries, if it carries one. -/
  | option (flag : Flag) (value : Option String)
  /-- Letters written directly after `-h`. -/
  | cluster (letters : List Char)
  /-- Something that looks like an option and is none. -/
  | unknown
deriving DecidableEq, Repr

/-- The characters before and after the first equals sign, if there is one. -/
def splitEquals (cs : List Char) : Option (List Char × List Char) :=
  if '=' ∈ cs then some (cs.takeWhile (· ≠ '='), (cs.dropWhile (· ≠ '=')).tail) else none

/-- Whether a text is a dash and a decimal number, which is taken for a word. -/
def isNegativeNumber (cs : List Char) : Bool :=
  let body := if cs.getLast? = some '\n' then cs.dropLast else cs
  match body with
  | '-' :: digits =>
    let whole := digits.takeWhile Text.isDecimalDigit
    match digits.dropWhile Text.isDecimalDigit with
    | [] => !whole.isEmpty
    | '.' :: fraction => !fraction.isEmpty && fraction.all Text.isDecimalDigit
    | _ => false
  | _ => false

/-- A short option with what is written directly after it. -/
def carried (flag : Flag) (tail : List Char) : Argument :=
  if flag.takesValue then .option flag (some (String.ofList tail)) else .cluster tail

/-- What a shortened spelling, or a short option with its value, can mean. -/
def candidates (cs : List Char) : List Argument :=
  match cs with
  | '-' :: '-' :: _ =>
    let parts := (splitEquals cs).getD (cs, [])
    let value := (splitEquals cs).map fun p => String.ofList p.2
    (spellings.filter fun e => parts.1.isPrefixOf e.1.toList).map
      fun e => .option e.2 value
  | '-' :: c :: tail =>
    (spellings.filter fun e => e.1.toList = ['-', c]).map fun e => carried e.2 tail
  | _ => []

/-- An argument that begins with a dash and is not the exact spelling of an
option. -/
def classifyDashed (s : String) (cs : List Char) : Except Stop Argument :=
  match (splitEquals cs).bind fun p => (flagOf? p.1).map fun f => (f, String.ofList p.2) with
  | some (flag, value) => .ok (.option flag (some value))
  | none =>
    match candidates cs with
    | [a] => .ok a
    | _ :: _ :: _ => .error .usage
    | [] => if isNegativeNumber cs || cs.contains ' ' then .ok (.word s) else .ok .unknown

/-- **The class of an argument** before two dashes. -/
def classify (s : String) : Except Stop Argument :=
  match s.toList with
  | '-' :: c :: cs =>
    match flagOf? ('-' :: c :: cs) with
    | some flag => .ok (.option flag none)
    | none => classifyDashed s ('-' :: c :: cs)
  | _ => .ok (.word s)

/-- **All arguments, classified**; after two dashes everything is a word. -/
def classifyAll : List String → Except Stop (List Argument)
  | [] => .ok []
  | s :: ss =>
    if s = "--" then .ok (.dashes :: ss.map .word)
    else
      match classify s with
      | .error e => .error e
      | .ok a =>
        match classifyAll ss with
        | .error e => .error e
        | .ok rest => .ok (a :: rest)

/-- **What the program is asked to do.** -/
structure Invocation where
  /-- The libraries to load first. -/
  libraries : List String
  changes : Settings.Changes
  /-- The statements to run instead of a dialogue, if there are any. -/
  statements : List String

/-- The state of reading arguments: what was asked so far, how far the names
of libraries are, and whether something is left over. -/
structure Progress where
  invocation : Invocation
  /-- The names of libraries have begun. -/
  begun : Bool
  /-- The names of libraries are over. -/
  closed : Bool
  leftOver : Bool

/-- Nothing read. -/
def Progress.start : Progress := ⟨⟨[], .none, []⟩, false, false, false⟩

/-- An option comes: the names of libraries, once begun, are over. -/
def Progress.interrupt (p : Progress) : Progress := { p with closed := p.begun }

/-- A word that is no value, or two dashes. -/
def Progress.take (p : Progress) (name : Option String) : Progress :=
  if p.closed then { p with leftOver := true }
  else
    let inv := { p.invocation with libraries := p.invocation.libraries ++ name.toList }
    { p with begun := true, invocation := inv }

/-- The changes with an option set. -/
def Invocation.set (inv : Invocation) (flag : Flag) (value : String) : Except Stop Invocation :=
  let changed (c : Settings.Changes) : Invocation := { inv with changes := c }
  match flag with
  | .help => .error .help
  | .strategy =>
    match Strategy.ofName value with
    | .ok _ => .ok (changed { inv.changes with strategy := some value })
    | .error _ => .error .usage
  | .libraryPath => .ok (changed { inv.changes with libraryPath := some (.parse value) })
  | .maxSteps =>
    match Settings.parseSteps value with
    | .ok n => .ok (changed { inv.changes with maxSteps := some n })
    | .error _ => .error .usage
  | .typing => .ok (changed { inv.changes with checkTypes := some true })
  | .logLevel => .ok (changed { inv.changes with logLevel := some value })
  | .statement => .ok { inv with statements := inv.statements ++ [value] }

/-- What letters after `-h` come to: the help, unless they are wrong. They are
read as short options up to one that takes a value or is unknown; the last
letter may need the next argument for its value. -/
def clusterStop (rest : List Argument) : List Char → Stop
  | [] => .help
  | '-' :: _ => .usage
  | 'h' :: '=' :: _ => .usage
  | 'h' :: cs => clusterStop rest cs
  | ['e'] =>
    match rest with
    | .word _ :: _ => .help
    | _ => .usage
  | _ => .help

/-- An option that carries a value, which it has to take. -/
def Progress.setCarried (p : Progress) (flag : Flag) (value : String) : Except Stop Progress :=
  if flag.takesValue then
    (p.invocation.set flag value).map fun inv => { p with invocation := inv }
  else .error .usage

/-- **The arguments, one after another.** -/
def readArguments (p : Progress) : List Argument → Except Stop Progress
  | [] => .ok p
  | .word s :: rest => readArguments (p.take (some s)) rest
  | .dashes :: rest => readArguments (p.take none) rest
  | .unknown :: rest => readArguments { p.interrupt with leftOver := true } rest
  | .cluster letters :: rest => .error (clusterStop rest letters)
  | .option flag (some value) :: rest =>
    match p.interrupt.setCarried flag value with
    | .error e => .error e
    | .ok p' => readArguments p' rest
  | .option flag none :: rest =>
    if flag.takesValue then
      match rest with
      | .word value :: rest' =>
        match p.invocation.set flag value with
        | .error e => .error e
        | .ok inv => readArguments { p.interrupt with invocation := inv } rest'
      | _ => .error .usage
    else
      match p.invocation.set flag "" with
      | .error e => .error e
      | .ok inv => readArguments { p.interrupt with invocation := inv } rest

/-- **What arguments ask for.** -/
def parse (arguments : List String) : Except Stop Invocation :=
  match classifyAll arguments with
  | .error e => .error e
  | .ok classified =>
    match readArguments .start classified with
    | .error e => .error e
    | .ok p => if p.leftOver then .error .usage else .ok p.invocation

end CommandLine

end LambdaShell
