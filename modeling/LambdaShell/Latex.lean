import LambdaShell.Typing.Derivation

/-!
# LaTeX

Types, terms, contexts and derivations as LaTeX text. A derivation becomes
a sequence of stack commands in postorder: a leaf is pushed, an inference
takes as many trees off the stack as it has premises and puts back one.
Inferences with more than two premises have no command.
-/

namespace LambdaShell

namespace Latex

/-- A text in braces. -/
def braced (s : String) : String := "\x7b" ++ s ++ "\x7d"

/-- A character that LaTeX would take for a command is written as one. -/
def escapeChar (c : Char) : List Char :=
  if c = '_' ∨ c = '&' ∨ c = '%' ∨ c = '$' ∨ c = '#' then ['\\', c] else [c]

/-- A text with its special characters escaped. -/
def escape (s : String) : String := String.ofList (s.toList.flatMap escapeChar)

/-- **A name**: one character stands for itself, a longer name is set as a word. -/
def name (s : String) : String :=
  if 1 < s.length then "\\mathit" ++ braced (escape s) else escape s

/-- **A simple type.** -/
def simpleType : SimpleType → String
  | .base a => name a
  | .arrow (.arrow σ τ) ρ =>
    "(" ++ simpleType (.arrow σ τ) ++ ") \\to " ++ simpleType ρ
  | .arrow (.base a) ρ => name a ++ " \\to " ++ simpleType ρ

/-- A type or fault. -/
def type : Ty → String
  | .simple τ => simpleType τ
  | .fault reason =>
    "\\mathbf" ++ braced "error" ++ "(\\text" ++ braced (escape reason.message) ++ ")"

/-- A binder, perhaps with its type. -/
def binder (x : String) : Option Ty → String
  | none => name x
  | some ty => name x ++ braced ":" ++ type ty

/-- A text in parentheses, when they are asked for. -/
def parenthesized (wanted : Bool) (s : String) : String := if wanted then "(" ++ s ++ ")" else s

/-- Whether a term is an abstraction. -/
def isLam : Term → Bool
  | .lam _ _ _ => true
  | _ => false

/-- Whether a term is a variable. -/
def isVar : Term → Bool
  | .var _ => true
  | _ => false

/-- **A term.** -/
def term : Term → String
  | .var x => name x
  | .lam x a body => "\\lambda " ++ binder x a ++ ".\\, " ++ term body
  | .app fn arg => parenthesized (isLam fn) (term fn) ++ "\\ " ++ parenthesized (!isVar arg) (term arg)

/-- An entry of a context. -/
def entry (e : String × Ty) : String := name e.1 ++ " : " ++ type e.2

/-- **A context.** -/
def context (ctx : Context) : String :=
  if ctx.entries.isEmpty then "\\emptyset" else ", ".intercalate (ctx.entries.map entry)

/-! ## Derivations -/

open Typing

/-- **A command of a proof tree.** -/
inductive ProofLine where
  /-- Pushes an empty tree. -/
  | leaf
  /-- Sets the label of the next inference. -/
  | label (rule : String)
  /-- Concludes from one tree. -/
  | unary (conclusion : String)
  /-- Concludes from two trees. -/
  | binary (conclusion : String)
deriving DecidableEq, Repr

/-- The text of a command. -/
def ProofLine.text : ProofLine → String
  | leaf => "\\AxiomC" ++ braced ""
  | label rule => "\\RightLabel" ++ braced ("\\scriptsize " ++ rule)
  | unary conclusion => "\\UnaryInfC" ++ braced conclusion
  | binary conclusion => "\\BinaryInfC" ++ braced conclusion

/-- An inference without command: it has more than two premises. -/
structure TooManyPremises where
  count : Nat
deriving DecidableEq, Repr

/-- What is said of an inference without command. -/
def TooManyPremises.message (e : TooManyPremises) : String :=
  "Derivation node with " ++ Nat.repr e.count ++ " premises"

/-- The judgement `ctx ⊢ term : ty`. -/
def judgement (ctx : Context) (t : Term) (ty : Ty) : String :=
  "$" ++ context ctx ++ " \\vdash " ++ term t ++ " : " ++ type ty ++ "$"

/-- The commands that conclude from a number of premises. -/
def inference (premises : Nat) (rule : Rule) (conclusion : String) :
    Except TooManyPremises (List ProofLine) :=
  match premises with
  | 0 => .ok [.leaf, .label rule.label, .unary conclusion]
  | 1 => .ok [.label rule.label, .unary conclusion]
  | 2 => .ok [.label rule.label, .binary conclusion]
  | n => .error ⟨n⟩

mutual

/-- **The commands of a derivation**: those of its premises, then its own. -/
def proofLines : Derivation → Except TooManyPremises (List ProofLine)
  | .node ctx t ty rule premises =>
    match allProofLines premises with
    | .error e => .error e
    | .ok above =>
      match inference premises.length rule (judgement ctx t ty) with
      | .error e => .error e
      | .ok own => .ok (above ++ own)

/-- The commands of several derivations, one after another. -/
def allProofLines : List Derivation → Except TooManyPremises (List ProofLine)
  | [] => .ok []
  | d :: ds =>
    match proofLines d with
    | .error e => .error e
    | .ok lines =>
      match allProofLines ds with
      | .error e => .error e
      | .ok rest => .ok (lines ++ rest)

end

/-- **A derivation as a proof tree.** -/
def derivation (d : Derivation) : Except TooManyPremises String :=
  match proofLines d with
  | .error e => .error e
  | .ok lines =>
    .ok ("\\begin" ++ braced "prooftree" ++ "\n" ++ "\n".intercalate (lines.map ProofLine.text) ++
      "\n\\end" ++ braced "prooftree")

end Latex

end LambdaShell
