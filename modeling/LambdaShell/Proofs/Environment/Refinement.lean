import LambdaShell.Library
import LambdaShell.Proofs.Environment.Forms

/-!
# Environments — an environment is a list of definitions

Seen from outside, an environment is a list of definitions with different
names: a definition takes the place of the one that has its name, or the
last place if none has; a removal closes the gap; a library is its
definitions one after another. The environment itself keeps two maps and
answers some questions from one and some from the other. `Shows` says that
all its answers are those of a list, and `shows_operations` that they are
so after any operations, for the list on which the same operations were
done. The one thing that is carried along is that the forms are in step
with the definitions.
-/

namespace LambdaShell

open Storage (Path Store)

/-! ## Lists of definitions -/

/-- **The list after a definition is made**: in the place of the one that has its
name, or at the end if none has. -/
def Definition.into (d : Definition) (ds : List Definition) : List Definition :=
  if ds.any (·.name = d.name) then ds.map fun e => if e.name = d.name then d else e
  else ds ++ [d]

namespace Environment

/-- **What can be done to an environment.** -/
inductive Operation where
  | bind (d : Definition)
  | unbind (name : String)
  | clear
  /-- The definitions of a library are made, if it can be read. -/
  | load (store : Store) (directory : Path) (library : String)

namespace Operation

/-- What an operation does to an environment. -/
def perform (depth : Option Nat) (env : Environment) : Operation → Environment
  | bind d => env.define depth d.name d.term
  | unbind name => env.unbind name
  | clear => .empty
  | load store directory library =>
    match Library.load store directory library with
    | .ok ds => (env.defineAll depth ds).1
    | .error _ => env

/-- **What an operation does to a list of definitions.** -/
def revise (ds : List Definition) : Operation → List Definition
  | bind d => d.into ds
  | unbind name => ds.filter (·.name ≠ name)
  | clear => []
  | load store directory library =>
    match Library.load store directory library with
    | .ok new => new.foldl (fun ds d => d.into ds) ds
    | .error _ => ds

/-- **All definitions that an operation makes are completed**: none is nested too
deeply. -/
def Completes (depth : Option Nat) : Operation → Prop
  | bind d => d.term.fits depth = true
  | load store directory library =>
    ∀ ds, Library.load store directory library = .ok ds → ∀ d ∈ ds, d.term.fits depth = true
  | _ => True

end Operation

/-- **All answers of an environment are those of a list of definitions.** -/
structure Shows (env : Environment) (ds : List Definition) : Prop where
  definitions : env.definitions = ds
  names : env.names = ds.map Definition.name
  size : env.size = ds.length
  contains : ∀ x, env.contains x = true ↔ ∃ d ∈ ds, d.name = x
  lookup : ∀ x, env.lookup x = (ds.find? fun d => d.name = x).map Definition.term
  /-- The name of a term is the first whose term is equal to it up to bound names. -/
  aliasOf : ∀ t, env.aliasOf t = (ds.find? fun d => d.term.AlphaEq t).map Definition.name
  containsTerm : ∀ t, env.containsTerm t = true ↔ ∃ d ∈ ds, d.term.AlphaEq t

variable {env : Environment} {depth : Option Nat} {ds : List Definition}

/-! ## The answers -/

theorem names_eq (env : Environment) : env.names = env.definitions.map Definition.name := by
  rw [definitions, List.map_map]
  rfl

theorem mem_names {x : String} : x ∈ env.names ↔ ∃ d ∈ env.definitions, d.name = x := by
  rw [names_eq, List.mem_map]

/-- **An environment in step shows its definitions.** -/
theorem InStep.shows (h : env.InStep) : env.Shows env.definitions where
  definitions := rfl
  names := env.names_eq
  size := by
    rw [definitions, List.length_map]
    rfl
  contains := by
    intro x
    rw [contains, OrderedMap.contains, decide_eq_true_iff]
    exact mem_names
  lookup := env.lookup_eq
  aliasOf := h.aliasOf_eq
  containsTerm := by
    intro t
    rw [containsTerm, h.aliasOf_eq, Option.isSome_map, List.find?_isSome]
    simp only [decide_eq_true_eq]

/-! ## One operation -/

theorem definitions_bind (env : Environment) (x : String) (t : Term) :
    (env.bind x t).definitions = Definition.into ⟨x, t⟩ env.definitions := by
  have hany : env.definitions.any (·.name = x) = true ↔ x ∈ env.names := by
    rw [List.any_eq_true, mem_names]
    simp only [decide_eq_true_eq]
  have hput : (env.bind x t).definitions =
      (OrderedMap.putEntry x t env.bindings.entries).map fun e => ⟨e.1, e.2⟩ := rfl
  unfold Definition.into
  by_cases hx : x ∈ env.names
  · rw [if_pos (hany.2 hx), hput, OrderedMap.putEntry_of_mem env.bindings.nodup hx, definitions,
      List.map_map, List.map_map]
    refine List.map_congr_left fun e _ => ?_
    simp only [Function.comp_apply]
    split <;> rfl
  · rw [if_neg fun h => hx (hany.1 h), hput, OrderedMap.putEntry_of_not_mem hx, List.map_append]
    rfl

theorem definitions_unbind (env : Environment) (x : String) :
    (env.unbind x).definitions = env.definitions.filter (·.name ≠ x) := by
  show (env.bindings.entries.filter _).map _ = (env.bindings.entries.map _).filter _
  rw [List.filter_map]
  rfl

/-- Definitions that are all completed are made one after another. -/
theorem defineAll_of_fits (env : Environment) (hds : ∀ d ∈ ds, d.term.fits depth = true) :
    env.defineAll depth ds = (ds.foldl (fun env d => env.bind d.name d.term) env, true) := by
  induction ds generalizing env with
  | nil => rfl
  | cons d ds ih =>
    rw [defineAll, if_pos (hds d List.mem_cons_self),
      ih _ fun d' hd' => hds d' (List.mem_cons_of_mem _ hd'), List.foldl_cons]

theorem definitions_foldl_bind (env : Environment) (ds : List Definition) :
    (ds.foldl (fun env d => env.bind d.name d.term) env).definitions =
      ds.foldl (fun ds d => d.into ds) env.definitions := by
  induction ds generalizing env with
  | nil => rfl
  | cons d ds ih => rw [List.foldl_cons, List.foldl_cons, ih, definitions_bind]

section LoadEquations

-- reading a library is not to be computed while the equations are checked
attribute [local irreducible] Library.load

theorem Operation.perform_load (depth : Option Nat) (env : Environment) (store : Store)
    (directory : Path) (library : String) :
    (load store directory library).perform depth env =
      match Library.load store directory library with
      | .ok ds => (env.defineAll depth ds).1
      | .error _ => env := rfl

theorem Operation.revise_load (ds : List Definition) (store : Store) (directory : Path)
    (library : String) :
    (load store directory library).revise ds =
      match Library.load store directory library with
      | .ok new => new.foldl (fun ds d => d.into ds) ds
      | .error _ => ds := rfl

end LoadEquations

/-- **One operation**: it keeps the forms in step, and does to the definitions what
it does to their list. -/
theorem InStep.perform (h : env.InStep) {op : Operation} (hop : op.Completes depth) :
    (op.perform depth env).InStep ∧
      (op.perform depth env).definitions = op.revise env.definitions := by
  cases op with
  | bind d =>
    have hperform : (Operation.bind d).perform depth env = env.bind d.name d.term := if_pos hop
    rw [hperform]
    exact ⟨h.bind d.name d.term, env.definitions_bind d.name d.term⟩
  | unbind name => exact ⟨h.unbind name, env.definitions_unbind name⟩
  | clear => exact ⟨inStep_empty, rfl⟩
  | load store directory library =>
    rw [Operation.perform_load, Operation.revise_load]
    cases hload : Library.load store directory library with
    | error e => exact ⟨h, rfl⟩
    | ok ds =>
      dsimp only
      rw [env.defineAll_of_fits (hop ds hload)]
      exact ⟨(foldl_bind h ds).1, env.definitions_foldl_bind ds⟩

/-! ## Any number of operations -/

/-- **After any operations** the forms are in step, and the definitions are those of
the list on which the same operations were done. -/
theorem InStep.foldl_perform (h : env.InStep) {ops : List Operation}
    (hops : ∀ op ∈ ops, op.Completes depth) :
    (ops.foldl (Operation.perform depth) env).InStep ∧
      (ops.foldl (Operation.perform depth) env).definitions =
        ops.foldl Operation.revise env.definitions := by
  induction ops generalizing env with
  | nil => exact ⟨h, rfl⟩
  | cons op ops ih =>
    obtain ⟨hstep, hdefinitions⟩ := h.perform (hops op List.mem_cons_self)
    have hrest := ih hstep fun op' hop' => hops op' (List.mem_cons_of_mem _ hop')
    rw [hdefinitions] at hrest
    exact hrest

/-- **An environment is the list of its definitions.** Made from any definitions and
changed by any operations, as long as every definition is completed, it
gives at every question the answer of the list to which the same was done. -/
theorem shows_operations {depth : Option Nat} (initial : List Definition) {ops : List Operation}
    (hops : ∀ op ∈ ops, op.Completes depth) :
    (ops.foldl (Operation.perform depth) (ofList initial)).Shows
      (ops.foldl Operation.revise (initial.foldl (fun ds d => d.into ds) [])) := by
  have hinitial : (ofList initial).definitions = initial.foldl (fun ds d => d.into ds) [] :=
    empty.definitions_foldl_bind initial
  have hinStep : (ofList initial).InStep := (foldl_bind inStep_empty initial).1
  obtain ⟨hstep, hdefinitions⟩ := hinStep.foldl_perform hops
  rw [← hinitial, ← hdefinitions]
  exact hstep.shows

/-- Two names stand for the same; the first is given another meaning in its place, a
library defines it once more and brings another name, and the second is
removed and comes back at the end. -/
theorem shows_operations_again :
    let identity : Term := .lam "x" none (.var "x")
    let const : Term := .lam "x" none (.lam "y" none (.var "x"))
    let initial : List Definition := [⟨"I", identity⟩, ⟨"J", identity⟩]
    let store := (Store.empty []).addFile ["lib.lbd"] "L = λx. I;\nI = λz. z;".toUTF8
    let ops : List Operation :=
      [.bind ⟨"I", const⟩, .load store .here "lib", .unbind "J", .bind ⟨"J", identity⟩]
    (∀ op ∈ ops, op.Completes (some 3)) ∧
      (ops.foldl (Operation.perform (some 3)) (ofList initial)).Shows
        [⟨"I", .lam "z" none (.var "z")⟩, ⟨"L", .lam "x" none (.var "I")⟩, ⟨"J", identity⟩] := by
  intro identity const initial store ops
  have hload : (Library.load store .here "lib").toOption =
      some [⟨"L", .lam "x" none (.var "I")⟩, ⟨"I", .lam "z" none (.var "z")⟩] := by
    decide +kernel
  have hops : ∀ op ∈ ops, op.Completes (some 3) := by
    intro op hop
    simp only [ops, List.mem_cons, List.not_mem_nil, or_false] at hop
    rcases hop with rfl | rfl | rfl | rfl
    · exact (by decide : const.fits (some 3) = true)
    · intro ds hds
      rw [hds] at hload
      cases hload
      decide
    · trivial
    · exact (by decide : identity.fits (some 3) = true)
  have hlist : ops.foldl Operation.revise (initial.foldl (fun ds d => d.into ds) []) =
      [⟨"I", .lam "z" none (.var "z")⟩, ⟨"L", .lam "x" none (.var "I")⟩, ⟨"J", identity⟩] := by
    decide +kernel
  refine ⟨hops, ?_⟩
  rw [← hlist]
  exact shows_operations initial hops

end Environment

end LambdaShell
