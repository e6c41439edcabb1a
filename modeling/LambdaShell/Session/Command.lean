import LambdaShell.Reduction.Strategy
import LambdaShell.Text.Blank

/-!
# Sessions — input lines

A line is blank, the mark of the end of input, a command after a colon, or
a statement. The name of a command ends at the first space; what follows is
its argument.
-/

namespace LambdaShell

namespace Session

/-- **Commands.** -/
inductive Command where
  | help
  | quit
  /-- Selects a strategy. -/
  | select (strategy : Strategy)
  /-- Shows the selected strategy. -/
  | showStrategy
  | showSteps (on : Bool)
  | showAliases (on : Bool)
  | checkTypes (on : Bool)
  /-- Lists the definitions. -/
  | listDefinitions
  /-- Removes names. -/
  | remove (names : List String)
  /-- Loads libraries. -/
  | load (names : List String)
  /-- Saves the definitions as a library. -/
  | save (name : String) (overwrite : Bool)
  /-- Shows the nameless form of a term. -/
  | nameless (source : String)
  /-- Shows the type of a term. -/
  | typeOf (source : String)
  /-- Shows the derivation of the type of a term. -/
  | derivation (source : String)
  /-- A name that no command has. -/
  | unknown (name : String)
deriving DecidableEq, Repr

namespace Command

/-- The command of a name, with its argument. -/
def ofName (name argument : String) : Command :=
  match name with
  | "help" => .help
  | "quit" => .quit
  | "normal-order" => .select .normalOrder
  | "call-by-name" => .select .callByName
  | "call-by-value" => .select .callByValue
  | "strategy" => .showStrategy
  | "show-steps" => .showSteps true
  | "hide-steps" => .showSteps false
  | "show-aliases" => .showAliases true
  | "hide-aliases" => .showAliases false
  | "enable-typing" => .checkTypes true
  | "disable-typing" => .checkTypes false
  | "env" => .listDefinitions
  | "rm" => .remove (Text.words argument)
  | "load" => .load (Text.words argument)
  | "save" => .save argument false
  | "save!" => .save argument true
  | "de-bruijn" => .nameless argument
  | "type" => .typeOf argument
  | "derivation" => .derivation argument
  | other => .unknown other

/-- **The command of a text**, without its colon. -/
def parse (text : String) : Command :=
  let cs := (Text.trim text).toList
  ofName (String.ofList (cs.takeWhile (· ≠ ' ')))
    (Text.trim (String.ofList (cs.dropWhile (· ≠ ' '))))

end Command

/-- **Input lines.** -/
inductive Input where
  | blank
  /-- The end of input. -/
  | ending
  | command (c : Command)
  | statement (source : String)
deriving DecidableEq, Repr

/-- **The meaning of a line.** -/
def Input.parse (line : String) : Input :=
  let source := Text.trim line
  match source.toList with
  | [] => .blank
  | ':' :: cs => .command (.parse (String.ofList cs))
  | _ => if source = "EOF" then .ending else .statement source

/-- What a session says at its beginning. -/
def banner : String := "λ Interpreter\ntype :help for help and :quit to quit"

/-- What is shown before a line is read. -/
def prompt : String := "λ > "

/-- The lines of the help. -/
def helpLines : List String :=
  ["Available commands:",
   " :help               Display this help",
   " :quit               Quit the λ Interpreter",
   " :normal-order       Use normal order strategy to reduce the terms",
   " :call-by-name       Use call by name strategy to reduce the terms",
   " :call-by-value      Use call by value strategy to reduce the terms (default)",
   " :strategy           Show the current strategy",
   " :show-steps         Show the steps when reducing (enabled by default)",
   " :hide-steps         Do not show steps when reducing",
   " :env                Show the current environment",
   " :rm <n1> [<n2> ...] Removes the given names from the environment",
   " :load <name>        Load the definitions from the given library to environment",
   " :save <name>        Save the current environment to the given library",
   " :save! <name>       Same as :save, overwriting an existing library",
   " :show-aliases       Display alias when an expression is known as an alias (default)",
   " :hide-aliases       Do not display aliases",
   " :de-bruijn <expr>   Show the De Bruijn representation of the given lambda term",
   " :enable-typing      Enable type checking of lambda terms",
   " :disable-typing     Disable type checking of lambda terms (default)",
   " :type <expr>        Display the type of the expression",
   " :derivation <expr>  Creates a LaTeX representation of the typing derivation tree"]

end Session

end LambdaShell
