import LambdaShell.Proofs.Concrete.Naming
import LambdaShell.Proofs.Environment.Forms
import LambdaShell.Proofs.Environment.Unfolding

/-!
# Concrete syntax — terms shown by their names

A printer that is given names for terms writes another term, in which the
subterms that have a name are variables (`Printer.folded`). That term is
what the text is read as. It means what the given term means wherever the
name of a subterm still means the definition it was taken from; but a
binder around the subterm may have the same name, and the printer does not
look for it. Such a name is captured: in the text it belongs to the binder.

`expand_parse_textIn` says that this is all that can go wrong: the text is
always read, what is read is always expanded, and the result is the
expansion of the given term exactly if no name is captured.
`expand_parse_textIn_captured` is a term of which it is not.
-/

namespace LambdaShell

namespace Printer

variable {naming : Term → Option String} {bound : List String} {t : Term}

/-- **The term that is written**: subterms that are shown by a name are variables. -/
def folded (naming : Term → Option String) (bound : List String) (t : Term) : Term :=
  match shownName naming bound t with
  | some name => .var name
  | none =>
    match t with
    | .var x => .var x
    | .app fn arg => .app (folded naming bound fn) (folded naming bound arg)
    | .lam x a body => .lam x a (folded naming (x :: bound) body)

/-- **No term is shown by a name that is bound around it.** -/
def uncaptured (naming : Term → Option String) (bound : List String) (t : Term) : Bool :=
  match shownName naming bound t with
  | some name => decide (name ∉ bound)
  | none =>
    match t with
    | .var _ => true
    | .app fn arg => uncaptured naming bound fn && uncaptured naming bound arg
    | .lam x _ body => uncaptured naming (x :: bound) body

/-- A term is shown by the name it has, if it is no variable and no binder around
it binds one of its free names. -/
theorem of_shownName {name : String} (h : shownName naming bound t = some name) :
    naming t = some name ∧ (∀ x, t ≠ .var x) ∧ ∀ x ∈ t.freeVars, x ∉ bound := by
  unfold shownName at h
  split at h
  · cases h
  · rename_i hvar
    split at h
    · cases h
    · rename_i hfree
      refine ⟨h, hvar, fun x hx hbound => hfree ?_⟩
      exact List.any_eq_true.2 ⟨x, hx, by simpa using hbound⟩

/-! ## The text of a term with names is the text of the folded term -/

theorem write_eq (naming : Term → Option String) (bound : List String) (t : Term) :
    write naming bound t = ((folded naming bound t).text, (folded naming bound t).tightness) := by
  fun_induction folded naming bound t with
  | case1 t bound name h =>
    unfold write
    rw [h, Term.text_var]
    rfl
  | case2 bound x h =>
    unfold write
    rw [h, Term.text_var]
    rfl
  | case3 bound fn arg h ihf iha =>
    unfold write
    rw [h, Term.text_app, ← ihf, ← iha]
    rfl
  | case4 bound x a body h ih =>
    unfold write
    rw [h, Term.text_lam]
    simp only [ih, Term.tightness]

theorem wellNamed_folded (hnaming : ∀ t x, naming t = some x → Token.isName x = true)
    (ht : t.wellNamed = true) : (folded naming bound t).wellNamed = true := by
  fun_induction folded naming bound t with
  | case1 t bound name h => exact hnaming t name (of_shownName h).1
  | case2 bound x h => exact ht
  | case3 bound fn arg h ihf iha =>
    simp only [Term.wellNamed, Bool.and_eq_true] at ht ⊢
    exact ⟨ihf ht.1, iha ht.2⟩
  | case4 bound x a body h ih =>
    simp only [Term.wellNamed, Bool.and_eq_true] at ht ⊢
    exact ⟨ht.1, ih ht.2⟩

theorem depth_folded_le (naming : Term → Option String) (bound : List String) (t : Term) :
    (folded naming bound t).depth ≤ t.depth := by
  fun_induction folded naming bound t with
  | case1 t bound name h =>
    have hpos : 1 ≤ t.depth := by cases t <;> simp only [Term.depth] <;> omega
    exact hpos
  | case2 bound x h => exact Nat.le_refl _
  | case3 bound fn arg h ihf iha =>
    simp only [Term.depth]
    omega
  | case4 bound x a body h ih =>
    simp only [Term.depth]
    omega

end Printer

/-! ## The folded term means what the term means -/

namespace Environment

open Printer (folded uncaptured shownName)

variable {env : Environment} {depth : Option Nat} {bound : List String} {t : Term} {n : Nameless}

/-- Only a bound variable unfolds to an index. -/
theorem Unfolds.ne_index (h : Unfolds env depth (t.nameless bound) n) (ht : ∀ x, t ≠ .var x)
    (i : Nat) : .index i ≠ n := by
  rintro rfl
  cases t with
  | var x => exact ht x rfl
  | lam x a body => cases h
  | app fn arg => cases h

/-- **What becomes of the folded term**: it unfolds, to nothing deeper, and to the
same as the given term exactly if no name is captured. -/
theorem Unfolds.exists_folded (henv : env.InStep) (h : Unfolds env depth (t.nameless bound) n)
    (ht : (t.nameless bound).fits depth = true) (hn : n.fits depth = true) :
    ∃ n', Unfolds env depth ((folded env.aliasOf bound t).nameless bound) n' ∧
      n'.depth ≤ n.depth ∧ (n' = n ↔ uncaptured env.aliasOf bound t = true) := by
  fun_induction folded env.aliasOf bound t generalizing n with
  | case1 t bound _ hshown =>
    obtain ⟨halias, hvar, hfree⟩ := Printer.of_shownName hshown
    obtain ⟨d, hd, rfl, halpha⟩ := henv.exists_mem_of_aliasOf halias
    unfold uncaptured
    rw [hshown]
    simp only [decide_eq_true_eq]
    by_cases hbound : d.name ∈ bound
    · -- the name is that of a binder, and the given term is no variable
      obtain ⟨i, hi⟩ := Term.exists_resolve_of_mem hbound
      refine ⟨.index i, ?_, ?_, ?_⟩
      · rw [Term.nameless, hi]
        exact .index i
      · cases n <;> simp [Nameless.depth]
      · exact iff_of_false (h.ne_index hvar i) (not_not_intro hbound)
    · -- the name means the definition, which has the form of the given term
      have hform : d.term.nameless [] = t.nameless bound := by
        rw [Term.nameless_eq_nil hfree]
        exact halpha
      refine ⟨n, ?_, Nat.le_refl _, iff_of_true rfl hbound⟩
      rw [Term.nameless, Term.resolve_of_not_mem hbound]
      refine .known (lookup_of_mem hd) ?_ hn (by rw [hform]; exact h)
      rw [← Term.fits_nameless [] d.term, hform]
      exact ht
  | case2 bound x hshown =>
    refine ⟨n, h, Nat.le_refl _, iff_of_true rfl ?_⟩
    unfold uncaptured
    rw [hshown]
  | case3 bound fn arg hshown ihf iha =>
    cases h with
    | app hf ha =>
      obtain ⟨ht₁, ht₂⟩ := Nameless.fits_app ht
      obtain ⟨hn₁, hn₂⟩ := Nameless.fits_app hn
      obtain ⟨n₁, hf', hd₁, hiff₁⟩ := ihf hf ht₁ hn₁
      obtain ⟨n₂, ha', hd₂, hiff₂⟩ := iha ha ht₂ hn₂
      refine ⟨.app n₁ n₂, .app hf' ha', ?_, ?_⟩
      · simp only [Nameless.depth]
        omega
      · unfold uncaptured
        rw [hshown]
        simp only [Nameless.app.injEq, hiff₁, hiff₂, Bool.and_eq_true]
  | case4 bound x a body hshown ih =>
    cases h with
    | lam h =>
      obtain ⟨n', h', hd, hiff⟩ := ih h (Nameless.fits_lam ht) (Nameless.fits_lam hn)
      refine ⟨.lam n', .lam h', ?_, ?_⟩
      · simp only [Nameless.depth]
        omega
      · unfold uncaptured
        rw [hshown]
        simp only [Nameless.lam.injEq, hiff]

end Environment

/-- **A text with names is read as a term that means the same, exactly if no name
is captured.** Of a term that can be written and expanded, the text is read
and what is read is expanded; the two expansions are equal up to bound names
if and only if no subterm is shown by a name that is bound around it. -/
theorem expand_parse_textIn {env : Environment} {depth : Option Nat} {t u : Term}
    (henv : env.InStep) (hnamed : ∀ d ∈ env.definitions, d.wellNamed = true)
    (ht : t.wellNamed = true) (hu : env.expand depth t = .ok u) :
    ∃ t' u', Term.parse (t.textIn env) = .ok t' ∧ env.expand depth t' = .ok u' ∧
      (u'.AlphaEq u ↔ Printer.uncaptured env.aliasOf [] t = true) := by
  obtain ⟨htfits, hufits, hunfolds⟩ := Environment.unfolds_of_expand hu
  rw [← Term.fits_nameless []] at htfits hufits
  -- what is read is the folded term, whose names are those of `t` and of definitions
  have hnames : ∀ t x, env.aliasOf t = some x → Token.isName x = true := by
    intro s x hx
    obtain ⟨d, hd, rfl, -⟩ := henv.exists_mem_of_aliasOf hx
    exact (Bool.and_eq_true_iff.1 (hnamed d hd)).1
  have htext : t.textIn env = (Printer.folded env.aliasOf [] t).text := by
    rw [Term.textIn, Printer.write_eq]
  have hparse : Term.parse (t.textIn env) = .ok (Printer.folded env.aliasOf [] t) := by
    rw [htext]
    exact Term.parse_text (Printer.wellNamed_folded hnames ht)
  -- it is nested no deeper than `t`, and unfolds to nothing deeper
  obtain ⟨n, hfolded, hdepth, hiff⟩ := hunfolds.exists_folded henv htfits hufits
  have hdepth' : ((Printer.folded env.aliasOf [] t).nameless []).depth ≤ (t.nameless []).depth := by
    rw [Term.depth_nameless, Term.depth_nameless]
    exact Printer.depth_folded_le env.aliasOf [] t
  have hfits : (Printer.folded env.aliasOf [] t).fits depth = true := by
    rw [← Term.fits_nameless []]
    exact Nameless.fits_of_depth_le hdepth' htfits
  obtain ⟨u', hu', rfl⟩ :=
    Environment.expand_of_unfolds hfolded hfits (Nameless.fits_of_depth_le hdepth hufits)
  exact ⟨_, u', hparse, hu', hiff⟩

/-- `λz. z (λa. λb. a) (K I) (λI:A. I)` is shown as `λz. z K KI I`: three names stand
under a binder that is none of them, the second for a term with free names,
the last for an abstraction whose own binder has that name. -/
theorem expand_parse_textIn_nested :
    let identity : Term := .lam "x" none (.var "x")
    let const : Term := .lam "x" none (.lam "y" none (.var "x"))
    let applied : Term := .app (.var "K") (.var "I")
    let env := Environment.ofList [⟨"I", identity⟩, ⟨"K", const⟩, ⟨"KI", applied⟩]
    let first : Term := .app (.var "z") (.lam "a" none (.lam "b" none (.var "a")))
    let last : Term := .lam "I" (some (.simple (.base "A"))) (.var "I")
    let t : Term := .lam "z" none (.app (.app first applied) last)
    let u : Term := .lam "z" none (.app (.app first (.app const identity)) last)
    t.textIn env = "λz. z K KI I" ∧ env.expand none t = .ok u ∧
      ∃ t' u', Term.parse (t.textIn env) = .ok t' ∧ env.expand none t' = .ok u' ∧
        u'.AlphaEq u := by
  intro identity const applied env first last t u
  have henv : env.InStep := (Environment.foldl_bind Environment.inStep_empty _).1
  have hnames : t.freeNames = ["I", "K"] := by decide
  have hI : env.lookup "I" = some identity := by decide
  have hK : env.lookup "K" = some const := by decide
  have hsubst : (t.subst "I" identity).subst "K" const = u := by
    simp +decide [t, u, first, last, applied, identity, const, Term.subst]
  have hu : env.expand none t = .ok u := by
    rw [Environment.expand, if_pos (show t.fits none = true from rfl), hnames,
      Environment.expandEach_cons_of_closed hI List.not_mem_nil (by decide) rfl,
      Environment.expandEach_cons_of_closed hK List.not_mem_nil (by decide) rfl, hsubst,
      Environment.expandEach, if_pos (show u.fits none = true from rfl)]
  obtain ⟨t', u', hparse, hexpand, hiff⟩ :=
    expand_parse_textIn henv (by decide) (by decide) hu
  exact ⟨by decide +kernel, hu, t', u', hparse, hexpand, hiff.2 (by decide)⟩

/-- **A captured name**: where `I` is the identity, `λI. I (λx. x)` is shown as
`λI. I I`, which is read as another term, and expanded to another term. -/
theorem expand_parse_textIn_captured :
    let identity : Term := .lam "x" none (.var "x")
    let env := Environment.ofList [⟨"I", identity⟩]
    let t : Term := .lam "I" none (.app (.var "I") identity)
    let t' : Term := .lam "I" none (.app (.var "I") (.var "I"))
    env.InStep ∧ (∀ d ∈ env.definitions, d.wellNamed = true) ∧ t.wellNamed = true ∧
      env.expand none t = .ok t ∧ Term.parse (t.textIn env) = .ok t' ∧
      env.expand none t' = .ok t' ∧ ¬ t'.AlphaEq t := by
  intro identity env t t'
  have henv : env.InStep := (Environment.foldl_bind Environment.inStep_empty _).1
  have ht : env.expand none t = .ok t := env.expand_of_closed (by decide) rfl
  have ht' : env.expand none t' = .ok t' := env.expand_of_closed (by decide) rfl
  exact ⟨henv, by decide, by decide, ht, by decide +kernel, ht', by decide⟩

end LambdaShell
