import LambdaShell.Proofs.Concrete.Acceptance

/-!
# Concrete syntax — the names in what is read

A text has no other names than those that scanning finds in it, and these
are names of the language. Reading puts them into its value as they are, so
whatever is read from a text, all its names can be written again, and its
annotations are types (`Start.wellNamed_of_parse`).
-/

namespace LambdaShell

open Grammar (Derives Start Symbol)

/-- A token that is a name is a name of the language. -/
def Token.wellNamed : Token → Bool
  | ident x => isName x
  | _ => true

/-- **A definition that can be written.** -/
def Definition.wellNamed (d : Definition) : Bool := Token.isName d.name && d.term.wellNamed

/-- A statement that can be written. -/
def Statement.wellNamed : Statement → Bool
  | definition d => d.wellNamed
  | term t => t.wellNamed

/-- A binder that can be written. -/
def TermReader.Binder.wellNamed (b : TermReader.Binder) : Bool :=
  Token.isName b.name && b.declared.all SimpleType.wellNamed

/-- **A value that can be written**, for each symbol of the grammar. -/
def Grammar.Symbol.wellNamed : (symbol : Symbol) → symbol.Value → Bool
  | .library, ds => ds.all Definition.wellNamed
  | .definitions, ds => ds.all Definition.wellNamed
  | .definition, d => d.wellNamed
  | .statement, s => s.wellNamed
  | .ending, _ => true
  | .term, t => t.wellNamed
  | .lam, t => t.wellNamed
  | .app, t => t.wellNamed
  | .atom, t => t.wellNamed
  | .binders, bs => bs.all TermReader.Binder.wellNamed
  | .binder, b => b.wellNamed
  | .type, τ => τ.wellNamed
  | .operand, τ => τ.wellNamed

/-! ## Tokens -/

/-- **The names that scanning finds** are names of the language. -/
theorem Scan.Lexes.wellNamed {position : Nat} {cs : List Char} {scan : Scan}
    (h : Lexes position cs scan) : (scan.tokens.map Located.token).all Token.wellNamed = true := by
  induction h with
  | done position => rfl
  | blank _ _ ih => exact ih
  | comment _ _ _ ih => exact ih
  | illegal _ _ _ => rfl
  | token hspelling _ _ ih =>
    simp only [push, List.map_cons, List.all_cons, ih, Bool.and_true]
    cases hspelling with
    | name hname => exact hname
    | _ => rfl

/-! ## Values -/

theorem wellNamed_abstract {bs : List TermReader.Binder} {t : Term}
    (hbs : bs.all TermReader.Binder.wellNamed = true) (ht : t.wellNamed = true) :
    (Grammar.abstract bs t).wellNamed = true := by
  induction bs with
  | nil => exact ht
  | cons b bs ih =>
    simp only [List.all_cons, Bool.and_eq_true, TermReader.Binder.wellNamed] at hbs
    obtain ⟨⟨hname, hdeclared⟩, hbs⟩ := hbs
    have hty : (b.declared.map Ty.simple).all Ty.wellNamed = true := by
      cases hd : b.declared with
      | none => rfl
      | some τ => rw [hd] at hdeclared; exact hdeclared
    show (Term.lam b.name (b.declared.map .simple) (Grammar.abstract bs t)).wellNamed = true
    simp only [Term.wellNamed, hname, hty, ih hbs, Bool.and_self]

/-- **A value derived from well-named tokens is well named.** -/
theorem Grammar.Derives.wellNamed {symbol : Symbol} {ts : List Token} {v : symbol.Value}
    (h : Derives symbol ts v) (hts : ts.all Token.wellNamed = true) :
    symbol.wellNamed v = true := by
  -- every production puts the names of its parts together, and its own if it has one
  induction h with
  | library _ ih => exact ih hts
  | noDefinitions => rfl
  | definitions _ _ ihds ihd =>
    simp only [List.all_append, Bool.and_eq_true] at hts
    simp only [Symbol.wellNamed, List.all_append, List.all_cons, List.all_nil, Bool.and_true,
      Bool.and_eq_true]
    exact ⟨ihds hts.1, ihd hts.2⟩
  | definition x _ ih =>
    simp only [List.all_cons, List.all_append, Bool.and_eq_true] at hts
    exact Bool.and_eq_true_iff.2 ⟨hts.1, ih hts.2.2.1⟩
  | statementDefinition x _ _ iht _ =>
    simp only [List.all_cons, List.all_append, Bool.and_eq_true] at hts
    exact Bool.and_eq_true_iff.2 ⟨hts.1, iht hts.2.2.1⟩
  | statementTerm _ _ iht _ =>
    simp only [List.all_append, Bool.and_eq_true] at hts
    exact iht hts.1
  | semicolon => rfl
  | noSemicolon => rfl
  | termLam _ ih => exact ih hts
  | termAppLam _ _ ihf iha =>
    simp only [List.all_append, Bool.and_eq_true] at hts
    exact Bool.and_eq_true_iff.2 ⟨ihf hts.1, iha hts.2⟩
  | termApp _ ih => exact ih hts
  | lam _ _ ihbs iht =>
    simp only [List.all_cons, List.all_append, Bool.and_eq_true] at hts
    exact wellNamed_abstract (ihbs hts.2.1) (iht hts.2.2.2)
  | app _ _ ihf iha =>
    simp only [List.all_append, Bool.and_eq_true] at hts
    exact Bool.and_eq_true_iff.2 ⟨ihf hts.1, iha hts.2⟩
  | appAtom _ ih => exact ih hts
  | atomName x =>
    simp only [List.all_cons, List.all_nil, Bool.and_true] at hts
    exact hts
  | atomGroup _ ih =>
    simp only [List.all_cons, List.all_append, Bool.and_eq_true] at hts
    exact ih hts.2.1
  | binders _ _ ihbs ihb =>
    simp only [List.all_append, Bool.and_eq_true] at hts
    simp only [Symbol.wellNamed, List.all_append, List.all_cons, List.all_nil, Bool.and_true,
      Bool.and_eq_true]
    exact ⟨ihbs hts.1, ihb hts.2⟩
  | oneBinder _ ih =>
    simp only [Symbol.wellNamed, List.all_cons, List.all_nil, Bool.and_true]
    exact ih hts
  | binderName x =>
    simp only [List.all_cons, List.all_nil, Bool.and_true] at hts
    exact Bool.and_eq_true_iff.2 ⟨hts, rfl⟩
  | binderDeclared x _ ih =>
    simp only [List.all_cons, Bool.and_eq_true] at hts
    exact Bool.and_eq_true_iff.2 ⟨hts.1, ih hts.2.2⟩
  | binderGroup x _ ih =>
    simp only [List.all_cons, List.all_append, Bool.and_eq_true] at hts
    exact Bool.and_eq_true_iff.2 ⟨hts.2.1, ih hts.2.2.2.1⟩
  | typeArrow _ _ ihσ ihτ =>
    simp only [List.all_append, List.all_cons, Bool.and_eq_true] at hts
    exact Bool.and_eq_true_iff.2 ⟨ihσ hts.1, ihτ hts.2.2⟩
  | typeOperand _ ih => exact ih hts
  | operandName x =>
    simp only [List.all_cons, List.all_nil, Bool.and_true] at hts
    exact hts
  | operandGroup _ ih =>
    simp only [List.all_cons, List.all_append, Bool.and_eq_true] at hts
    exact ih hts.2.1

/-- **What is read from a text can be written**, whatever it is read as. -/
theorem Grammar.Start.wellNamed_of_parse (start : Start) {source : String}
    {value : start.symbol.Value} (h : start.parse source = .ok value) :
    start.symbol.wellNamed value = true := by
  by_cases hadmits : start.Admits source
  · obtain ⟨σ, r, hrecognizes, hread⟩ := start.exists_reader
    rw [hread source hadmits] at h
    obtain ⟨tokens, hlexes, hderives⟩ := hrecognizes.read_eq_ok_iff.1 h
    exact hderives.wellNamed hlexes.wellNamed
  · -- a library of blanks, which has no definitions
    simp only [Start.Admits, Classical.not_imp, Bool.not_eq_false] at hadmits
    obtain ⟨rfl, hblank⟩ := hadmits
    have hempty : Definition.parseAll source = .ok [] := if_pos hblank
    cases hempty.symm.trans h
    rfl

end LambdaShell
