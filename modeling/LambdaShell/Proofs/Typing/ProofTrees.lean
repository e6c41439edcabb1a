import LambdaShell.Proofs.Typing.Derivations

/-!
# Typing — derivations are proof trees

A derivation is more than its root. Each of its nodes judges a part of the
term of the node below it, in the context that the rule asks for, and the
whole is a proof exactly if the root has a type: then no node has a fault,
and at every node a rule is applied as it should be.

If the root has a fault, there is one place where it came up, and it was
passed on from there downwards, always from the last premise, since after
a fault no further premise is looked at. So the nodes with a fault are
those on one path from the root (`FaultPath`), and beside the path stand
complete proofs.

A node is named by its address, the numbers of the premises to go up
through: the same derivation may stand in several places. Since what
stands above a node is derived like the node itself, every statement on all
nodes is an induction on the address; the path alone is found by a
recursion on the tree.
-/

namespace LambdaShell

namespace Typing

variable {ctx : Context} {t : Term} {d p : Derivation} {ty : Ty} {reason : TypeFault}

/-- **The rule for a term**, by its form. -/
def ruleFor : Term → Rule
  | .var _ => .var
  | .lam _ _ _ => .abs
  | .app _ _ => .app

/-- **What a rule asks to be judged** above its conclusion, from left to right. For the
body of an abstraction the context is overridden at the binder; without an
annotation there is nothing to override it with. -/
def required (ctx : Context) : Term → List (Context × Term)
  | .var _ => []
  | .lam _ none _ => []
  | .lam x (some domain) body => [(ctx.insert x domain, body)]
  | .app fn arg => [(ctx, fn), (ctx, arg)]

/-- **The context holds types**, and no fault. -/
def HoldsTypes (ctx : Context) : Prop := ∀ x reason, ctx.get? x ≠ some (.fault reason)

namespace Derivation

/-- What is judged at the root, without the type. -/
def subject (d : Derivation) : Context × Term := (d.ctx, d.term)

theorem Concludes.subject_eq (h : d.Concludes ctx t ty) : d.subject = (ctx, t) := by
  rw [subject, h.ctx_eq, h.term_eq]

/-- **A node fits its term**: the rule goes by the form of the term, and the premises
that are there judge what the rule asks for, in order. -/
structure Fits (d : Derivation) : Prop where
  rule_eq : d.rule = ruleFor d.term
  premises_prefix : d.premises.map subject <+: required d.ctx d.term

/-- **The node at an address**: the numbers of the premises to go up through. -/
def nodeAt : List Nat → Derivation → Option Derivation
  | [], d => some d
  | i :: address, d => d.premises[i]?.bind (nodeAt address)

theorem nodeAt_cons_eq_some_iff {i : Nat} {address : List Nat} {n : Derivation} :
    d.nodeAt (i :: address) = some n ↔
      ∃ p, d.premises[i]? = some p ∧ p.nodeAt address = some n :=
  Option.bind_eq_some_iff

/-- **The faults of a derivation are on one path** from the root, and all the same. -/
structure FaultPath (d : Derivation) (reason : TypeFault) (path : List Nat) : Prop where
  /-- Every node on the path has the fault. -/
  on_path : ∀ {address n}, d.nodeAt address = some n → address <+: path → n.ty = .fault reason
  /-- Every other node has none, and its rule is applied as it should be. -/
  off_path : ∀ {address n}, d.nodeAt address = some n → ¬ address <+: path →
    n.ty.isFault = false ∧ n.Instance
  /-- The path always goes on through the last premise that is there. -/
  last : ∀ {address i n}, d.nodeAt address = some n → address ++ [i] <+: path →
    i + 1 = n.premises.length
  /-- The fault comes up at the node where the path ends. -/
  ends : ∃ n, d.nodeAt path = some n ∧ n.Introduces reason

/-! ## A node and its premises -/

theorem Concludes.typed {τ : SimpleType} (h : d.Concludes ctx t (.simple τ)) :
    d.ty.isFault = false := by
  rw [h.ty_eq]
  rfl

theorem Instance.typed (h : d.Instance) : d.ty.isFault = false := by
  cases h <;> rfl

theorem Instance.premises_typed (h : d.Instance) : ∀ p ∈ d.premises, p.ty.isFault = false := by
  cases h with
  | var => exact nofun
  | abs hbody => exact List.forall_mem_singleton.2 hbody.typed
  | app hfn harg =>
    exact List.forall_mem_cons.2 ⟨hfn.typed, List.forall_mem_singleton.2 harg.typed⟩

theorem Introduces.ty_eq (h : d.Introduces reason) : d.ty = .fault reason := by
  cases h <;> rfl

theorem Introduces.premises_typed (h : d.Introduces reason) :
    ∀ p ∈ d.premises, p.ty.isFault = false := by
  cases h with
  | unbound => exact nofun
  | assumed => exact nofun
  | unannotated => exact nofun
  | notFunction hfn => exact List.forall_mem_singleton.2 hfn.typed
  | argumentMismatch hfn harg =>
    exact List.forall_mem_cons.2 ⟨hfn.typed, List.forall_mem_singleton.2 harg.typed⟩

theorem Passes.ty_eq (h : d.Passes reason) : d.ty = .fault reason := by
  cases h <;> rfl

/-- A fault that is passed on is that of the last premise, and no premise before has one. -/
theorem Passes.premises_eq (h : d.Passes reason) :
    ∃ before p, d.premises = before ++ [p] ∧ p.ty = .fault reason ∧
      ∀ q ∈ before, q.ty.isFault = false := by
  cases h with
  | body hbody => exact ⟨[], _, rfl, hbody.ty_eq, nofun⟩
  | function hfn => exact ⟨[], _, rfl, hfn.ty_eq, nofun⟩
  | argument hfn harg => exact ⟨[_], _, rfl, harg.ty_eq, List.forall_mem_singleton.2 hfn.typed⟩

section Fits

variable {fn arg body : Term} {x : String} {domain ty₁ ty₂ : Ty} {d₁ d₂ : Derivation}

theorem fits_body (h : d₁.Concludes (ctx.insert x domain) body ty₁) :
    (node ctx (.lam x (some domain) body) ty .abs [d₁]).Fits where
  rule_eq := rfl
  premises_prefix := by
    refine ⟨[], ?_⟩
    show [d₁.subject] = [(ctx.insert x domain, body)]
    rw [h.subject_eq]

theorem fits_function (hfn : d₁.Concludes ctx fn ty₁) :
    (node ctx (.app fn arg) ty .app [d₁]).Fits where
  rule_eq := rfl
  premises_prefix := by
    refine ⟨[(ctx, arg)], ?_⟩
    show [d₁.subject, (ctx, arg)] = [(ctx, fn), (ctx, arg)]
    rw [hfn.subject_eq]

theorem fits_argument (hfn : d₁.Concludes ctx fn ty₁) (harg : d₂.Concludes ctx arg ty₂) :
    (node ctx (.app fn arg) ty .app [d₁, d₂]).Fits where
  rule_eq := rfl
  premises_prefix := by
    refine ⟨[], ?_⟩
    show [d₁.subject, d₂.subject] = [(ctx, fn), (ctx, arg)]
    rw [hfn.subject_eq, harg.subject_eq]

end Fits

/-- **Whatever stands at a node, it fits its term.** -/
theorem WellMade.fits (h : d.WellMade) : d.Fits := by
  cases h with
  | rule h =>
    cases h with
    | var => exact ⟨rfl, List.prefix_rfl⟩
    | abs hbody => exact fits_body hbody
    | app hfn harg => exact fits_argument hfn harg
  | introduces h =>
    cases h with
    | unbound => exact ⟨rfl, List.prefix_rfl⟩
    | assumed => exact ⟨rfl, List.prefix_rfl⟩
    | unannotated => exact ⟨rfl, List.prefix_rfl⟩
    | notFunction hfn => exact fits_function hfn
    | argumentMismatch hfn harg => exact fits_argument hfn harg
  | passes h =>
    cases h with
    | body hbody => exact fits_body hbody
    | function hfn => exact fits_function hfn
    | argument hfn harg => exact fits_argument hfn harg

theorem Fits.subject_mem (h : d.Fits) (hp : p ∈ d.premises) :
    p.subject ∈ required d.ctx d.term :=
  h.premises_prefix.subset (List.mem_map_of_mem hp)

/-! ## All nodes -/

variable {address path : List Nat} {n : Derivation}

/-- **Every node is derived** as the whole is. -/
theorem Derived.nodeAt (h : d.Derived) (hn : d.nodeAt address = some n) : n.Derived := by
  induction address generalizing d with
  | nil => cases hn; exact h
  | cons i address ih =>
    obtain ⟨p, hp, hn⟩ := nodeAt_cons_eq_some_iff.1 hn
    exact ih (h.premise (List.mem_of_getElem? hp)).1 hn

/-- Where the root has a type, its rule is applied as it should be. -/
theorem WellMade.instance_of_typed (h : d.WellMade) (hty : d.ty.isFault = false) :
    d.Instance := by
  cases h with
  | rule h => exact h
  | introduces h => rw [h.ty_eq] at hty; cases hty
  | passes h => rw [h.ty_eq] at hty; cases hty

/-- **A derivation whose root has a type is a proof**: at every node a rule is applied
as it should be. -/
theorem Derived.instance_nodeAt (h : d.Derived) (hty : d.ty.isFault = false)
    (hn : d.nodeAt address = some n) : n.Instance := by
  induction address generalizing d with
  | nil => cases hn; exact h.wellMade.instance_of_typed hty
  | cons i address ih =>
    obtain ⟨p, hp, hn⟩ := nodeAt_cons_eq_some_iff.1 hn
    have hp := List.mem_of_getElem? hp
    have htyped := (h.wellMade.instance_of_typed hty).premises_typed p hp
    exact ih (h.premise hp).1 htyped hn

/-! ## The path of a fault -/

/-- **A fault that comes up at the root** is nowhere else. -/
theorem Introduces.faultPath (hd : d.Derived) (h : d.Introduces reason) :
    d.FaultPath reason [] where
  on_path := by
    intro address n hn haddress
    rw [List.prefix_nil.1 haddress] at hn
    cases hn
    exact h.ty_eq
  off_path := by
    intro address n hn haddress
    cases address with
    | nil => exact absurd List.prefix_rfl haddress
    | cons i address =>
      obtain ⟨p, hp, hn⟩ := nodeAt_cons_eq_some_iff.1 hn
      have hp := List.mem_of_getElem? hp
      have hrule := (hd.premise hp).1.instance_nodeAt (h.premises_typed p hp) hn
      exact ⟨hrule.typed, hrule⟩
  last := by
    intro address i n _ haddress
    have hnil := List.prefix_nil.1 haddress
    simp at hnil
  ends := ⟨d, rfl, h⟩

/-- An address beyond the root goes through the last premise or through one before it. -/
theorem nodeAt_cons_cases {before : List Derivation} {i : Nat}
    (hpremises : d.premises = before ++ [p]) (hn : d.nodeAt (i :: address) = some n) :
    (i = before.length ∧ p.nodeAt address = some n) ∨
      (i ≠ before.length ∧ ∃ q ∈ before, q.nodeAt address = some n) := by
  obtain ⟨q, hq, hn⟩ := nodeAt_cons_eq_some_iff.1 hn
  rw [hpremises] at hq
  rcases Nat.lt_trichotomy i before.length with hi | rfl | hi
  · rw [List.getElem?_append_left hi] at hq
    exact .inr ⟨by omega, q, List.mem_of_getElem? hq, hn⟩
  · rw [List.getElem?_concat_length] at hq
    cases hq
    exact .inl ⟨rfl, hn⟩
  · have hlength : (before ++ [p]).length ≤ i := by
      rw [List.length_append, List.length_singleton]
      omega
    rw [List.getElem?_eq_none hlength] at hq
    cases hq

/-- **A fault that is passed on** has its path through the last premise. -/
theorem FaultPath.cons {before : List Derivation} (h : p.FaultPath reason path)
    (hty : d.ty = .fault reason) (hpremises : d.premises = before ++ [p])
    (hbefore : ∀ q ∈ before, q.Derived ∧ q.ty.isFault = false) :
    d.FaultPath reason (before.length :: path) where
  on_path := by
    intro address n hn haddress
    cases address with
    | nil => cases hn; exact hty
    | cons i address =>
      obtain ⟨rfl, hprefix⟩ := List.cons_prefix_cons.1 haddress
      rcases nodeAt_cons_cases hpremises hn with ⟨-, hn⟩ | ⟨hne, -⟩
      · exact h.on_path hn hprefix
      · exact absurd rfl hne
  off_path := by
    intro address n hn haddress
    cases address with
    | nil => exact absurd List.nil_prefix haddress
    | cons i address =>
      rcases nodeAt_cons_cases hpremises hn with ⟨rfl, hn'⟩ | ⟨-, q, hq, hn'⟩
      · refine h.off_path hn' fun hprefix => haddress ?_
        exact List.cons_prefix_cons.2 ⟨rfl, hprefix⟩
      · -- beside the path stands a derivation whose root has a type
        obtain ⟨hderived, htyped⟩ := hbefore q hq
        have hrule := hderived.instance_nodeAt htyped hn'
        exact ⟨hrule.typed, hrule⟩
  last := by
    intro address i n hn haddress
    cases address with
    | nil =>
      cases hn
      obtain ⟨rfl, -⟩ := List.cons_prefix_cons.1 haddress
      rw [hpremises, List.length_append, List.length_singleton]
    | cons j address =>
      obtain ⟨rfl, hprefix⟩ := List.cons_prefix_cons.1 haddress
      rcases nodeAt_cons_cases hpremises hn with ⟨-, hn⟩ | ⟨hne, -⟩
      · exact h.last hn hprefix
      · exact absurd rfl hne
  ends := by
    obtain ⟨n, hn, hintroduces⟩ := h.ends
    refine ⟨n, nodeAt_cons_eq_some_iff.2 ⟨p, ?_, hn⟩, hintroduces⟩
    rw [hpremises, List.getElem?_concat_length]

/-- **Where the root has a fault, there is a path of it.** -/
theorem Derived.exists_faultPath {d : Derivation} (h : d.Derived) (hty : d.ty = .fault reason) :
    ∃ path, d.FaultPath reason path := by
  cases h.wellMade with
  | rule hrule =>
    have htyped := hrule.typed
    rw [hty] at htyped
    cases htyped
  | introduces hintroduces =>
    obtain rfl : reason = _ := Ty.fault.inj (hty.symm.trans hintroduces.ty_eq)
    exact ⟨[], hintroduces.faultPath h⟩
  | passes hpasses =>
    obtain rfl : reason = _ := Ty.fault.inj (hty.symm.trans hpasses.ty_eq)
    obtain ⟨before, p, hpremises, hp, hbefore⟩ := hpasses.premises_eq
    have hmem : p ∈ d.premises := by rw [hpremises]; simp
    obtain ⟨hderived, hsize⟩ := h.premise hmem
    obtain ⟨path, hpath⟩ := Derived.exists_faultPath hderived hp
    refine ⟨_, hpath.cons hty hpremises fun q hq => ⟨?_, hbefore q hq⟩⟩
    have hq' : q ∈ d.premises := by rw [hpremises]; simp [hq]
    exact (h.premise hq').1
termination_by d.term.size

/-! ## Contexts without faults -/

/-- What a rule asks to be judged is again a term annotated with types, in a context that
holds types. -/
theorem holdsTypes_of_required {ctx' : Context} {t' : Term} (hctx : HoldsTypes ctx)
    (ht : t.declaresTypes = true) (h : (ctx', t') ∈ required ctx t) :
    HoldsTypes ctx' ∧ t'.declaresTypes = true := by
  cases t with
  | var x => cases h
  | lam x a body =>
    cases a with
    | none => cases h
    | some domain =>
      obtain ⟨⟨-, hdomain⟩, hbody⟩ := Term.every_lam.1 ht
      obtain ⟨rfl, rfl⟩ := Prod.mk.inj (List.mem_singleton.1 h)
      refine ⟨fun y reason hy => ?_, hbody⟩
      rw [OrderedMap.get?_insert] at hy
      split at hy
      · cases hy
        cases hdomain
      · exact hctx y reason hy
  | app fn arg =>
    obtain ⟨hfn, harg⟩ := Term.every_app.1 ht
    rcases List.mem_pair.1 h with hpart | hpart
    · obtain ⟨rfl, rfl⟩ := Prod.mk.inj hpart
      exact ⟨hctx, hfn⟩
    · obtain ⟨rfl, rfl⟩ := Prod.mk.inj hpart
      exact ⟨hctx, harg⟩

/-- **No fault gets into a context** that is not in the first one or in an annotation. -/
theorem Derived.holdsTypes_nodeAt (h : d.Derived) (hctx : HoldsTypes d.ctx)
    (ht : d.term.declaresTypes = true) (hn : d.nodeAt address = some n) : HoldsTypes n.ctx := by
  induction address generalizing d with
  | nil => cases hn; exact hctx
  | cons i address ih =>
    obtain ⟨p, hp, hn⟩ := nodeAt_cons_eq_some_iff.1 hn
    have hp := List.mem_of_getElem? hp
    obtain ⟨hctx', ht'⟩ := holdsTypes_of_required hctx ht (h.wellMade.fits.subject_mem hp)
    exact ih (h.premise hp).1 hctx' ht' hn

end Derivation

/-- **Derivations are proof trees.** In whatever context and for whatever term a
derivation is found, its root judges this term in this context, and every
node is the one found for its own judgement, fits its term and has at most
two premises. If the root has a type, so has every node, and at every node
a rule is applied as it should be, to all its premises. If the root has a
fault, the nodes that have one are those on a path from the root, which
always goes on through the last premise that is there; they have the same
fault, which comes up where the path ends, and at every other node a rule
is applied as it should be. If neither the context nor an annotation of the
term holds a fault, then no context in the derivation does, so that no
fault comes up by assumption. And every derivation can be shown. -/
theorem derive_builds_proof (h : derive ctx t = .ok (d, ty)) :
    d.Concludes ctx t ty ∧
      (∀ address n, d.nodeAt address = some n →
        n.Derived ∧ n.Fits ∧ n.premises.length ≤ 2) ∧
      (ty.isFault = false →
        ∀ address n, d.nodeAt address = some n → n.ty.isFault = false ∧ n.Instance) ∧
      (∀ reason, ty = .fault reason → ∃ path, d.FaultPath reason path) ∧
      (HoldsTypes ctx → t.declaresTypes = true →
        ∀ address n, d.nodeAt address = some n → HoldsTypes n.ctx) ∧
      ∃ text, Latex.derivation d = .ok text := by
  have hroot := concludes_of_derive h
  have hderived := derived_of_derive h
  refine ⟨hroot, ?_, ?_, ?_, ?_, exists_latex_derivation h⟩
  · intro address n hn
    have hnode := hderived.nodeAt hn
    exact ⟨hnode, hnode.wellMade.fits, hnode.wellMade.length_premises_le⟩
  · intro hty address n hn
    rw [← hroot.ty_eq] at hty
    have hrule := hderived.instance_nodeAt hty hn
    exact ⟨hrule.typed, hrule⟩
  · intro reason hty
    exact hderived.exists_faultPath (hroot.ty_eq.trans hty)
  · intro hctx ht address n hn
    rw [← hroot.ctx_eq] at hctx
    rw [← hroot.term_eq] at ht
    exact hderived.holdsTypes_nodeAt hctx ht hn

/-- In `λf:A->A. f (λx. x)` the argument of `f` has a fault, for want of an annotation. It is on
the path through the body to the second premise, and `f` beside it has its
type. -/
theorem derive_builds_proof_unannotated :
    let arrow : Ty := .simple (.arrow (.base "A") (.base "A"))
    let reason : TypeFault := .unannotated "x"
    let identity : Term := .lam "x" none (.var "x")
    let body : Term := .app (.var "f") identity
    let inner : Context := .ofList [("f", arrow)]
    let f : Derivation := .node inner (.var "f") arrow .var []
    let argument : Derivation := .node inner identity (.fault reason) .abs []
    let application : Derivation := .node inner body (.fault reason) .app [f, argument]
    let d : Derivation :=
      .node .empty (.lam "f" (some arrow) body) (.fault reason) .abs [application]
    derive .empty (.lam "f" (some arrow) body) = .ok (d, .fault reason) ∧
      d.FaultPath reason [0, 1] ∧ f.Instance ∧ ∃ text, Latex.derivation d = .ok text := by
  intro arrow reason identity body inner f argument application d
  have h : derive .empty (.lam "f" (some arrow) body) = .ok (d, .fault reason) := rfl
  obtain ⟨-, -, -, hpath, -, htext⟩ := derive_builds_proof h
  obtain ⟨path, hpath⟩ := hpath reason rfl
  -- the argument has the fault, so the path leads there, and nothing stands above it
  have hargument : d.nodeAt [0, 1] = some argument := rfl
  have hprefix : [0, 1] <+: path := by
    by_contra hoff
    cases (hpath.off_path hargument hoff).1
  obtain ⟨rest, rfl⟩ := hprefix
  obtain ⟨n, hn, -⟩ := hpath.ends
  cases rest with
  | cons i rest => cases hn
  | nil =>
    have hf : d.nodeAt [0, 0] = some f := rfl
    exact ⟨h, hpath, (hpath.off_path hf (by decide)).2, htext⟩

end Typing

end LambdaShell
