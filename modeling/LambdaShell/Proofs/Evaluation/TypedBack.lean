import LambdaShell.Proofs.Concrete.Naming
import LambdaShell.Proofs.Environment.Unfolding
import LambdaShell.Proofs.Evaluation.Iteration
import LambdaShell.Proofs.Reduction.Throughout
import Mathlib.Data.List.DropRight

/-!
# Evaluation — what is shown can be typed back

A term that was read has names of the language only. An evaluation renames
binders again and again, and no run is too long to be shown; so each of the
names that it makes up has to be a name of the language as well. It is,
because such a name begins as the old one does and goes on with digits: a
name that is cut off at its end is a name as long as there is something
left of it, and where nothing would be left nothing is cut off
(`Token.isName_fresh`). Whatever an evaluation goes through is then read as
it is written (`Strategy.trace_reads_back`).
-/

namespace LambdaShell

namespace Token

variable {cs : List Char} {s : String}

/-! ## Fresh names are names of the language -/

/-- A name can be cut off anywhere but before its first character. -/
theorem isName_of_prefix (h : isName s = true) (hcs : cs <+: s.toList) (hne : cs ≠ []) :
    isName (String.ofList cs) = true := by
  obtain ⟨c, rest, hs, hc, hrest⟩ := isName_iff.1 h
  rw [hs, List.prefix_cons_iff] at hcs
  obtain ⟨cs', rfl, hcs'⟩ := hcs.resolve_left hne
  refine isName_iff.2 ⟨c, cs', String.toList_ofList, hc, ?_⟩
  rw [List.all_eq_true] at hrest ⊢
  exact fun d hd => hrest d (hcs'.subset hd)

/-- And it goes on with any number. -/
theorem isName_numbered (h : isName s = true) (k : Nat) : isName (Fresh.numbered s k) = true := by
  obtain ⟨c, rest, hs, hc, hrest⟩ := isName_iff.1 h
  refine isName_iff.2 ⟨c, rest ++ (Nat.repr k).toList, ?_, hc, ?_⟩
  · rw [Fresh.numbered, String.toList_append, hs, List.cons_append]
  · rw [List.all_append, hrest, Bool.true_and, List.all_eq_true]
    intro d hd
    have hdigit : d.isDigit = true := Fresh.isDigit_of_mem_repr hd
    simp [isNameChar, Char.isAlphanum, hdigit]

/-- The number of a name is dropped from its end, and there is no line feed to keep. -/
theorem dropNumber_of_isName (h : isName s = true) :
    Fresh.dropNumber s.toList = s.toList.rdropWhile Text.isDecimalDigit := by
  have hlast : s.toList.getLast? ≠ some '\n' := by
    intro hlast
    obtain ⟨c, rest, hs, hc, hrest⟩ := isName_iff.1 h
    have hmem : '\n' ∈ c :: rest := hs ▸ List.mem_of_getLast? hlast
    rcases List.mem_cons.1 hmem with rfl | hmem
    · exact absurd hc (by decide)
    · exact absurd (List.all_eq_true.1 hrest _ hmem) (by decide)
  rw [Fresh.dropNumber, if_neg hlast]
  rfl

theorem isName_stem (h : isName s = true) : isName (Fresh.stem s) = true := by
  simp only [Fresh.stem, dropNumber_of_isName h]
  split
  · exact h
  · rename_i hne
    refine isName_of_prefix h (List.rdropWhile_prefix _ _) ?_
    simpa using hne

/-- **A fresh name is a name of the language** if it is made from one. -/
theorem isName_fresh : NameClosed isName := fun _ _ h => isName_numbered (isName_stem h) _

end Token

/-! ## Evaluations -/

namespace Strategy

variable {env : Environment} {depth : Option Nat} {t u : Term}

/-- **What an evaluation shows can be typed back.** Take an environment and a term in
which all names are names of the language and no annotation is a fault, as in
all that is read from a text. If the term has an expansion, then every term
that an evaluation of the expansion goes through, by any strategy, within any
limits and with any budget, has these properties again and is read as itself
from the text it is written as. -/
theorem trace_reads_back (henv : ∀ d ∈ env.definitions, d.wellNamed = true)
    (ht : t.wellNamed = true) (hexpand : env.expand depth t = .ok u) (s : Strategy)
    (limits : Limits) (budget : Option Int) :
    ∀ v ∈ (s.evaluate limits budget u).trace,
      v.wellNamed = true ∧ Term.parse v.text = .ok v := by
  have hdefinitions : ∀ d ∈ env.definitions,
      d.term.every Token.isName Ty.wellNamed = true := by
    intro d hd
    rw [← Term.wellNamed_eq_every]
    exact (Bool.and_eq_true_iff.1 (henv d hd)).2
  have hu : u.every Token.isName Ty.wellNamed = true := by
    rw [Term.wellNamed_eq_every] at ht
    exact Environment.every_expand Token.isName_fresh hdefinitions hexpand ht
  intro v hv
  have hv : v.every Token.isName Ty.wellNamed = true :=
    forall_mem_trace (P := fun v => v.every Token.isName Ty.wellNamed = true)
      (fun hstep => every_step Token.isName_fresh hstep) hu limits budget v hv
  rw [← Term.wellNamed_eq_every] at hv
  exact ⟨hv, Term.parse_text hv⟩

/-- `λ_7. K _7`, where `K` stands for `λx:A. λ_7. x`: the binder that is in the way is
named by an underscore and a number, and takes another number. -/
theorem trace_reads_back_renumbered :
    let k : Term := .lam "x" (some (.simple (.base "A"))) (.lam "_7" none (.var "x"))
    let env : Environment := .ofList [⟨"K", k⟩]
    let t : Term := .lam "_7" none (.app (.var "K") (.var "_7"))
    let u : Term := .lam "_7" none (.app k (.var "_7"))
    let v : Term := .lam "_7" none (.lam "_1" none (.var "_7"))
    env.expand none t = .ok u ∧ v ∈ (normalOrder.evaluate .standard (some 5) u).trace ∧
      v.wellNamed = true ∧ Term.parse v.text = .ok v := by
  intro k env t u v
  have hk : env.lookup "K" = some k := by decide
  have hnames : t.freeNames = ["K"] := by decide
  have hsubst : t.subst "K" k = u := by decide +kernel
  have hexpand : env.expand none t = .ok u := by
    rw [Environment.expand, if_pos (show t.fits none = true from rfl), hnames,
      Environment.expandEach_cons_of_closed hk List.not_mem_nil (by decide) rfl, hsubst,
      Environment.expandEach, if_pos (show u.fits none = true from rfl)]
  have hv : v ∈ (normalOrder.evaluate .standard (some 5) u).trace := by decide +kernel
  exact ⟨hexpand, hv,
    trace_reads_back (by decide) (by decide) hexpand .normalOrder .standard (some 5) v hv⟩

end Strategy

end LambdaShell
