import LambdaShell.Typing.Check

/-!
# Typing — derivations

A derivation shows how the type of a term is found: a tree of judgements,
each concluded by a rule from the judgements above it. Where checking stops
at a fault, the premises that were not reached are absent.
-/

namespace LambdaShell

namespace Typing

/-- **A typing rule**, known by its label. -/
structure Rule where
  label : String
deriving DecidableEq, Repr

/-- The rule for variables. -/
def Rule.var : Rule := ⟨"Var"⟩

/-- The rule for abstractions. -/
def Rule.abs : Rule := ⟨"Abs"⟩

/-- The rule for applications. -/
def Rule.app : Rule := ⟨"App"⟩

/-- **A derivation** of `ctx ⊢ term : ty` by a rule from premises. -/
inductive Derivation where
  | node (ctx : Context) (term : Term) (ty : Ty) (rule : Rule) (premises : List Derivation)

namespace Derivation

/-- The context of the conclusion. -/
def ctx : Derivation → Context
  | node ctx _ _ _ _ => ctx

/-- The term of the conclusion. -/
def term : Derivation → Term
  | node _ term _ _ _ => term

/-- The type of the conclusion. -/
def ty : Derivation → Ty
  | node _ _ ty _ _ => ty

/-- The rule of the conclusion. -/
def rule : Derivation → Rule
  | node _ _ _ rule _ => rule

/-- The derivations above the conclusion. -/
def premises : Derivation → List Derivation
  | node _ _ _ _ premises => premises

end Derivation

/-- **A conclusion** by a rule from premises, with its type beside it. -/
def conclude (ctx : Context) (t : Term) (rule : Rule) (ty : Ty) (premises : List Derivation) :
    Derivation × Ty :=
  (.node ctx t ty rule premises, ty)

/-- **The derivation of the type of a term** in a context, and the type. -/
def derive (ctx : Context) : Term → Except ArrowError (Derivation × Ty)
  | .var x => .ok (conclude ctx (.var x) .var (typeOfVar ctx x) [])
  | .lam x none body =>
    .ok (conclude ctx (.lam x none body) .abs (.fault (.unannotated x)) [])
  | .lam x (some domain) body =>
    let conclude := conclude ctx (.lam x (some domain) body) .abs
    match derive (ctx.insert x domain) body with
    | .error e => .error e
    | .ok (d, .fault reason) => .ok (conclude (.fault reason) [d])
    | .ok (d, .simple τ) =>
      match domain.arrow (.simple τ) with
      | .error e => .error e
      | .ok ty => .ok (conclude ty [d])
  | .app fn arg =>
    let conclude := conclude ctx (.app fn arg) .app
    match derive ctx fn with
    | .error e => .error e
    | .ok (d, .fault reason) => .ok (conclude (.fault reason) [d])
    | .ok (d, .simple (.base _)) => .ok (conclude (.fault .notFunction) [d])
    | .ok (d, .simple (.arrow σ τ)) =>
      match derive ctx arg with
      | .error e => .error e
      | .ok (d', ty) => .ok (conclude (applyType σ τ ty) [d, d'])

end Typing

end LambdaShell
