import LambdaShell.Environment.Expansion
import LambdaShell.Proofs.Concrete.RoundTrip
import LambdaShell.Proofs.Environment.Forms
import LambdaShell.Proofs.Reduction.Contraction

/-!
# Reduction — the names and the annotations of a term

Reduction and expansion put terms together from parts of others. Whatever
is true of every name and of every annotation before is therefore true
afterwards, with one exception: the names that binders take when they are
renamed. A condition on names is kept if it is kept by the making of fresh
names (`NameClosed`), and a condition on annotations is always kept.
-/

namespace LambdaShell

/-- **A condition on names that is kept by the making of fresh names.** -/
def NameClosed (p : String → Bool) : Prop :=
  ∀ base avoid, p base = true → p (Fresh.name base avoid) = true

theorem nameClosed_true : NameClosed fun _ => true := fun _ _ _ => rfl

namespace Term

/-- **Every variable and binder of the term satisfies `p`, and every annotation
satisfies `q`.** -/
def every (p : String → Bool) (q : Ty → Bool) : Term → Bool
  | var x => p x
  | lam x a body => p x && a.all q && body.every p q
  | app fn arg => fn.every p q && arg.every p q

variable {p : String → Bool} {q : Ty → Bool} {t u r : Term} {x y : String}

theorem every_lam {a : Option Ty} {body : Term} :
    (lam x a body).every p q = true ↔
      (p x = true ∧ a.all q = true) ∧ body.every p q = true := by
  simp only [every, Bool.and_eq_true]

theorem every_app {fn arg : Term} :
    (app fn arg).every p q = true ↔ fn.every p q = true ∧ arg.every p q = true := by
  simp only [every, Bool.and_eq_true]

/-- A weaker condition holds throughout where a stronger one does. -/
theorem every_mono {p' : String → Bool} {q' : Ty → Bool} (hp : ∀ x, p x = true → p' x = true)
    (hq : ∀ ty, q ty = true → q' ty = true) (ht : t.every p q = true) : t.every p' q' = true := by
  induction t with
  | var x => exact hp x ht
  | lam x a body ih =>
    obtain ⟨⟨hx, ha⟩, hbody⟩ := every_lam.1 ht
    refine every_lam.2 ⟨⟨hp x hx, ?_⟩, ih hbody⟩
    cases a with
    | none => rfl
    | some ty => exact hq ty ha
  | app fn arg ihf iha =>
    obtain ⟨hf, ha⟩ := every_app.1 ht
    exact every_app.2 ⟨ihf hf, iha ha⟩

/-! ## The conditions that are asked for -/

theorem wellNamed_eq_every (t : Term) : t.wellNamed = t.every Token.isName Ty.wellNamed := by
  induction t with
  | var x => rfl
  | lam x a body ih => rw [wellNamed, every, ih]
  | app fn arg ihf iha => rw [wellNamed, every, ihf, iha]

/-- **No annotation of the term is a fault.** -/
def declaresTypes (t : Term) : Bool := t.every (fun _ => true) fun ty => !ty.isFault

/-- What can be written is annotated with types only. -/
theorem declaresTypes_of_wellNamed (h : t.wellNamed = true) : t.declaresTypes = true := by
  rw [wellNamed_eq_every] at h
  refine every_mono (fun _ _ => rfl) (fun ty hty => ?_) h
  cases ty with
  | simple τ => rfl
  | fault reason => cases hty

/-! ## Substitution and contraction -/

theorem every_replaceName (hy : p y = true) (ht : t.every p q = true) :
    (t.replaceName x y).every p q = true := by
  induction t with
  | var z =>
    simp only [replaceName]
    split
    · exact hy
    · exact ht
  | lam z a body ih =>
    simp only [replaceName]
    split
    · exact ht
    · obtain ⟨hz, hbody⟩ := every_lam.1 ht
      exact every_lam.2 ⟨hz, ih hbody⟩
  | app fn arg ihf iha =>
    obtain ⟨hf, ha⟩ := every_app.1 ht
    exact every_app.2 ⟨ihf hf, iha ha⟩

theorem every_subst (hp : NameClosed p) (ht : t.every p q = true) (hr : r.every p q = true) :
    (t.subst x r).every p q = true := by
  fun_induction Term.subst t x r with
  | case1 => exact hr
  | case2 => exact ht
  | case3 fn arg ihf iha =>
    obtain ⟨hf, ha⟩ := every_app.1 ht
    exact every_app.2 ⟨ihf hf, iha ha⟩
  | case4 => exact ht
  | case5 z a body _ _ y =>
    rename_i ih
    obtain ⟨⟨hz, ha⟩, hbody⟩ := every_lam.1 ht
    have hy : p y = true := hp z _ hz
    exact every_lam.2 ⟨⟨hy, ha⟩, ih (every_replaceName hy hbody)⟩
  | case6 z a body _ _ ih =>
    obtain ⟨hz, hbody⟩ := every_lam.1 ht
    exact every_lam.2 ⟨hz, ih hbody⟩

/-- **A contraction keeps to the names and annotations there are.** -/
theorem Contracts.every (hp : NameClosed p) (h : Contracts t u) (ht : t.every p q = true) :
    u.every p q = true := by
  induction h with
  | contract x a body arg =>
    obtain ⟨hfn, harg⟩ := every_app.1 ht
    exact every_subst hp (every_lam.1 hfn).2 harg
  | function arg _ ih =>
    obtain ⟨hfn, harg⟩ := every_app.1 ht
    exact every_app.2 ⟨ih hfn, harg⟩
  | argument fn _ ih =>
    obtain ⟨hfn, harg⟩ := every_app.1 ht
    exact every_app.2 ⟨hfn, ih harg⟩
  | body x a _ ih =>
    obtain ⟨hx, hbody⟩ := every_lam.1 ht
    exact every_lam.2 ⟨hx, ih hbody⟩

end Term

/-! ## Expansion -/

namespace Environment

variable {env : Environment} {depth : Option Nat} {p : String → Bool} {q : Ty → Bool} {t u : Term}

theorem exists_mem_of_lookup {x : String} {meaning : Term} (h : env.lookup x = some meaning) :
    ∃ d ∈ env.definitions, d.term = meaning := by
  rw [lookup_eq, Option.map_eq_some_iff] at h
  obtain ⟨d, hd, hterm⟩ := h
  exact ⟨d, List.mem_of_find?_eq_some hd, hterm⟩

theorem every_expandEach (hp : NameClosed p)
    (henv : ∀ d ∈ env.definitions, d.term.every p q = true) {chain names : List String}
    (h : env.expandEach depth chain names t = .ok u) (ht : t.every p q = true) :
    u.every p q = true := by
  fun_induction expandEach env depth chain names t generalizing u with
  | case1 chain t _ => cases h; exact ht
  | case2 => cases h
  | case3 chain t name names _ ih => exact ih h ht
  | case4 => cases h
  | case5 chain t name names meaning hmeaning _ _ expanded hexpanded ihmeaning ihrest =>
    obtain ⟨d, hd, rfl⟩ := exists_mem_of_lookup hmeaning
    exact ihrest h (Term.every_subst hp ht (ihmeaning hexpanded (henv d hd)))
  | case6 => cases h
  | case7 => cases h

/-- **Expansion keeps to the names and annotations** of the term and of the
definitions. -/
theorem every_expand (hp : NameClosed p)
    (henv : ∀ d ∈ env.definitions, d.term.every p q = true)
    (h : env.expand depth t = .ok u) (ht : t.every p q = true) : u.every p q = true := by
  unfold expand at h
  split at h
  · exact every_expandEach hp henv h ht
  · cases h

end Environment

/-! ## Evaluation -/

/-- **A step keeps to the names and annotations there are.** -/
theorem Strategy.every_step {s : Strategy} {p : String → Bool} {q : Ty → Bool} {t u : Term}
    (hp : NameClosed p) (h : s.step t = some u) (ht : t.every p q = true) :
    u.every p q = true :=
  (contracts_of_step h).every hp ht

end LambdaShell
