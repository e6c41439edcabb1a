import LambdaShell.Ty

/-!
# Terms

Lambda terms with named variables. An abstraction may carry the type of its
argument; only the type checker looks at it. `depth` counts the levels of
nesting, and `fits` compares it with a limit, where no limit admits every
term.

The limit stands for the stack of the machine that works on a term, and is
idealised in one way: the arrows of an annotation are not counted, neither
where a term is defined or moved nor where it is printed. A term whose
annotations are nested beyond the limit is therefore printed here, although
a printer that descends into types on the same stack would give it up.
-/

namespace LambdaShell

/-- **Terms of the lambda calculus.** -/
inductive Term where
  /-- A variable. -/
  | var (name : String)
  /-- The abstraction of `binder` over `body`, perhaps with the type of the argument. -/
  | lam (binder : String) (declared : Option Ty) (body : Term)
  /-- The application of `fn` to `arg`. -/
  | app (fn arg : Term)
deriving DecidableEq, Repr

namespace Term

instance : Inhabited Term := ⟨.var ""⟩

/-- The number of constructors of a term. -/
def size : Term → Nat
  | var _ => 1
  | lam _ _ body => body.size + 1
  | app fn arg => fn.size + arg.size + 1

/-- The number of levels on the longest path to a variable. The levels of the
annotations on the way are not counted. -/
def depth : Term → Nat
  | var _ => 1
  | lam _ _ body => body.depth + 1
  | app fn arg => max fn.depth arg.depth + 1

/-- **Whether a term is nested at most as deeply as a limit allows**, whatever its
annotations are. -/
def fits (limit : Option Nat) (t : Term) : Bool :=
  match limit with
  | none => true
  | some n => t.depth ≤ n

@[simp] theorem fits_none (t : Term) : t.fits none = true := rfl

/-- The abstraction over several names, first name outermost. -/
def abstractAll (names : List String) (body : Term) : Term :=
  names.foldr (fun name t => lam name none t) body

/-- The application of a term to several arguments, nested to the left. -/
def applyAll (fn : Term) (args : List Term) : Term := args.foldl app fn

end Term

end LambdaShell
