import LambdaShell.Proofs.Typing.ProofTrees

/-!
# LaTeX — the stack machine behind a proof tree

The commands of a proof tree are carried out one after another on a stack of
trees: a leaf is pushed, a label is kept for the next inference, and an
inference takes the trees off the stack that it concludes from and pushes
the tree of its conclusion. `Machine` is such a stack, and it takes a command
as it is written: a name and an argument in braces, which may itself have
braces in it.

The commands of a derivation, carried out on any stack, leave it as it was
with one tree more, which is that of the derivation (`exec_proofLines`). The
induction is over the derivation, and its statement is for every stack and
every label left over from before: a premise is drawn on top of the trees of
the premises to its left.
-/

namespace LambdaShell

open Typing

/-- A derivation is what holds of it whenever it holds of its premises. -/
theorem Typing.Derivation.forall_of_premises {P : Derivation → Prop}
    (h : ∀ d : Derivation, (∀ p ∈ d.premises, P p) → P d) (d : Derivation) : P d :=
  h d fun p _ => forall_of_premises h p
termination_by sizeOf d
decreasing_by
  rename_i hp
  obtain ⟨ctx, t, ty, rule, premises⟩ := d
  have hsize : sizeOf p < sizeOf premises := List.sizeOf_lt_of_mem hp
  simp only [Derivation.node.sizeOf_spec]
  omega

/-- **No node has more than two premises.** -/
def Typing.Derivation.Narrow (d : Derivation) : Prop :=
  ∀ address n, d.nodeAt address = some n → n.premises.length ≤ 2

theorem Typing.Derivation.Narrow.premise {d p : Derivation} (h : d.Narrow)
    (hp : p ∈ d.premises) : p.Narrow := by
  intro address n hn
  obtain ⟨i, hi⟩ := List.getElem?_of_mem hp
  exact h (i :: address) n (nodeAt_cons_eq_some_iff.2 ⟨p, hi, hn⟩)

namespace Latex

/-! ## The machine -/

/-- **A proof tree as it is drawn.** -/
inductive Tree where
  /-- Nothing, as above a conclusion without premises. -/
  | leaf
  /-- A conclusion with the label of its inference, below trees from left to right. -/
  | node (label : Option String) (conclusion : String) (above : List Tree)

/-- **A machine that draws proof trees.** -/
structure Machine where
  /-- The trees that wait for an inference, last one first. -/
  stack : List Tree
  /-- The label that waits for an inference. -/
  pending : Option String

/-- **One command.** An inference without trees to conclude from cannot be carried out. -/
def ProofLine.exec : ProofLine → Machine → Option Machine
  | .leaf, ⟨stack, pending⟩ => some ⟨.leaf :: stack, pending⟩
  | .label rule, ⟨stack, _⟩ => some ⟨stack, some rule⟩
  | .unary conclusion, ⟨a :: stack, pending⟩ =>
    some ⟨.node pending conclusion [a] :: stack, none⟩
  | .binary conclusion, ⟨b :: a :: stack, pending⟩ =>
    some ⟨.node pending conclusion [a, b] :: stack, none⟩
  | _, _ => none

/-- Commands one after another. -/
def execAll (lines : List ProofLine) (m : Machine) : Option Machine :=
  lines.foldlM (fun m line => line.exec m) m

/-- The name and the argument of a command. -/
def call? (s : String) : Option (String × String) :=
  match s.toList.dropWhile (· ≠ '\x7b') with
  | [] => none
  | _ :: rest =>
    if rest.getLast? = some '\x7d' then
      some (String.ofList (s.toList.takeWhile (· ≠ '\x7b')), String.ofList rest.dropLast)
    else none

/-- **The command that a text is.** -/
def ProofLine.ofText? (s : String) : Option ProofLine :=
  match call? s with
  | some ("\\AxiomC", "") => some .leaf
  | some ("\\RightLabel", argument) =>
    ("\\scriptsize ".toList.isPrefixOf? argument.toList).map fun rule => .label (String.ofList rule)
  | some ("\\UnaryInfC", argument) => some (.unary argument)
  | some ("\\BinaryInfC", argument) => some (.binary argument)
  | _ => none

/-- **Carrying out a text**, line by line. -/
def run (lines : List String) (m : Machine) : Option Machine :=
  lines.foldlM (fun m line => (ProofLine.ofText? line).bind fun command => command.exec m) m

/-! ## Commands as they are written -/

theorem call?_braced {name argument : String} (hname : '\x7b' ∉ name.toList) :
    call? (name ++ braced argument) = some (name, argument) := by
  have hall : ∀ c ∈ name.toList, decide (c ≠ '\x7b') = true := by
    intro c hc
    exact decide_eq_true fun e => hname (e ▸ hc)
  have htext : (name ++ braced argument).toList =
      name.toList ++ '\x7b' :: (argument.toList ++ ['\x7d']) := by
    simp [braced]
  unfold call?
  rw [htext, List.dropWhile_append_of_pos hall, List.takeWhile_append_of_pos hall]
  simp

/-- **A command is known by its text.** -/
theorem ProofLine.ofText?_text (line : ProofLine) : ofText? line.text = some line := by
  cases line with
  | leaf => decide +kernel
  | label rule =>
    rw [text, ofText?, call?_braced (by decide)]
    simp
  | unary conclusion =>
    rw [text, ofText?, call?_braced (by decide)]
    simp
  | binary conclusion =>
    rw [text, ofText?, call?_braced (by decide)]
    simp

theorem run_map_text (lines : List ProofLine) (m : Machine) :
    run (lines.map ProofLine.text) m = execAll lines m := by
  simp only [run, execAll, List.foldlM_map, ProofLine.ofText?_text, Option.bind_some]

/-! ## The commands of a derivation -/

mutual

/-- **The tree of a derivation**: its judgements with their rules, and an empty leaf above
each judgement without premises. -/
def treeOf : Derivation → Tree
  | .node ctx t ty rule [] => .node (some rule.label) (judgement ctx t ty) [.leaf]
  | .node ctx t ty rule (p :: premises) =>
    .node (some rule.label) (judgement ctx t ty) (treeOf p :: treesOf premises)

/-- The trees of several derivations, from left to right. -/
def treesOf : List Derivation → List Tree
  | [] => []
  | d :: ds => treeOf d :: treesOf ds

end

theorem execAll_append (lines lines' : List ProofLine) (m : Machine) :
    execAll (lines ++ lines') m = (execAll lines m).bind (execAll lines') :=
  List.foldlM_append

/-- **The commands draw the tree** on any stack, whatever label is left over. -/
def Draws (lines : List ProofLine) (tree : Tree) : Prop :=
  ∀ stack pending, execAll lines ⟨stack, pending⟩ = some ⟨tree :: stack, none⟩

/-- **The commands of several derivations** draw their trees, each on top of those to its
left. -/
theorem exec_allProofLines {ds : List Derivation}
    (h : ∀ d ∈ ds, ∃ lines, proofLines d = .ok lines ∧ Draws lines (treeOf d)) :
    ∃ lines, allProofLines ds = .ok lines ∧
      ∀ stack pending, ∃ pending', execAll lines ⟨stack, pending⟩ =
        some ⟨(treesOf ds).reverse ++ stack, pending'⟩ := by
  induction ds with
  | nil => exact ⟨[], rfl, fun stack pending => ⟨pending, rfl⟩⟩
  | cons d ds ih =>
    obtain ⟨first, hfirst, hdraws⟩ := h d List.mem_cons_self
    obtain ⟨rest, hrest, hexec⟩ := ih fun d' hd' => h d' (List.mem_cons_of_mem _ hd')
    refine ⟨first ++ rest, by rw [allProofLines, hfirst, hrest], fun stack pending => ?_⟩
    obtain ⟨pending', hexec⟩ := hexec (treeOf d :: stack) none
    refine ⟨pending', ?_⟩
    rw [execAll_append, hdraws, Option.bind_some, hexec, treesOf, List.reverse_cons,
      List.append_assoc, List.singleton_append]

/-- **The own commands of a node** put its tree in the place of those above it. -/
theorem exec_inference {d : Derivation} (h : d.premises.length ≤ 2) :
    ∃ own, inference d.premises.length d.rule (judgement d.ctx d.term d.ty) = .ok own ∧
      ∀ stack pending, execAll own ⟨(treesOf d.premises).reverse ++ stack, pending⟩ =
        some ⟨treeOf d :: stack, none⟩ := by
  obtain ⟨ctx, t, ty, rule, premises⟩ := d
  match premises with
  | [] => exact ⟨_, rfl, fun _ _ => rfl⟩
  | [p] => exact ⟨_, rfl, fun _ _ => rfl⟩
  | [p, q] => exact ⟨_, rfl, fun _ _ => rfl⟩
  | p :: q :: r :: rest => exact absurd h (by simp [Derivation.premises])

/-- **The commands of a derivation draw its tree.** -/
theorem exec_proofLines {d : Derivation} (h : d.Narrow) :
    ∃ lines, proofLines d = .ok lines ∧ Draws lines (treeOf d) := by
  induction d using Derivation.forall_of_premises with
  | h d ih =>
    obtain ⟨above, habove, hexec⟩ := exec_allProofLines fun p hp => ih p hp (h.premise hp)
    obtain ⟨own, hown, hdraws⟩ := exec_inference (h [] d rfl)
    refine ⟨above ++ own, ?_, fun stack pending => ?_⟩
    · obtain ⟨ctx, t, ty, rule, premises⟩ := d
      rw [proofLines, show allProofLines premises = _ from habove]
      simp only [show inference premises.length rule (judgement ctx t ty) = _ from hown]
    · obtain ⟨pending', hexec⟩ := hexec stack pending
      rw [execAll_append, hexec, Option.bind_some, hdraws]

/-- **The text of a proof tree rebuilds the derivation.** If no node of a derivation has
more than two premises, the derivation has a text, and its lines can be
carried out one by one on any stack and with any label left over. They leave
the stack as it was with one tree more, and that is the tree of the
derivation. -/
theorem run_proofLines {d : Derivation} (h : d.Narrow) :
    ∃ lines, proofLines d = .ok lines ∧ ∀ stack pending,
      run (lines.map ProofLine.text) ⟨stack, pending⟩ = some ⟨treeOf d :: stack, none⟩ := by
  obtain ⟨lines, hlines, hdraws⟩ := exec_proofLines h
  refine ⟨lines, hlines, fun stack pending => ?_⟩
  rw [run_map_text, hdraws]

/-- The derivation of `y : A ⊢ (λx:A. x) y : A` has nodes with two premises, with one and
without. Its lines put its tree on a stack that holds a leaf already. -/
theorem run_proofLines_application :
    let a : Ty := .simple (.base "A")
    let arrow : Ty := .simple (.arrow (.base "A") (.base "A"))
    let ctx : Context := .ofList [("y", a)]
    let inner : Context := .ofList [("y", a), ("x", a)]
    let identity : Term := .lam "x" (some a) (.var "x")
    let t : Term := .app identity (.var "y")
    let x : Derivation := .node inner (.var "x") a .var []
    let y : Derivation := .node ctx (.var "y") a .var []
    let d : Derivation := .node ctx t a .app [.node ctx identity arrow .abs [x], y]
    let assumed (ctx : Context) (t : Term) : Tree :=
      .node (some "Var") (judgement ctx t a) [.leaf]
    let tree : Tree := .node (some "App") (judgement ctx t a)
      [.node (some "Abs") (judgement ctx identity arrow) [assumed inner (.var "x")],
        assumed ctx (.var "y")]
    d.Narrow ∧
      judgement ctx t a = "$y : A \\vdash (\\lambda x\x7b:\x7dA.\\, x)\\ y : A$" ∧
      ∃ lines, proofLines d = .ok lines ∧
        run (lines.map ProofLine.text) ⟨[.leaf], some "Abs"⟩ = some ⟨[tree, .leaf], none⟩ := by
  intro a arrow ctx inner identity t x y d assumed tree
  have hderive : derive ctx t = .ok (d, a) := rfl
  have hnarrow : d.Narrow := by
    intro address n hn
    exact ((derived_of_derive hderive).nodeAt hn).wellMade.length_premises_le
  obtain ⟨lines, hlines, hrun⟩ := run_proofLines hnarrow
  exact ⟨hnarrow, by decide +kernel, lines, hlines, hrun [.leaf] (some "Abs")⟩

end Latex

end LambdaShell
