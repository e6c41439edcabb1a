import LambdaShell.Proofs.Concrete.RoundTrip
import LambdaShell.Proofs.Nameless.FreeNames
import Mathlib.Data.Set.Function

/-!
# Concrete syntax — the text of a nameless form

A nameless form is written with as few parentheses as a term is, with
numbers for the bound variables and nothing for the binders. Nobody reads
such a text back, but two forms must not have the same one, or the text
would not tell whether two terms differ in their bound names only.

That a text with few parentheses has one reading is known already, of terms
with names. The text of a nameless form is therefore spelled anew, character
by character: each lambda gets a binder, and an underscore before each
character of a word makes a name of every word, of numbers too. What comes
out is the text of a term (`text_spelled`), which the reader takes back to
that term; and the term shows what the form was, as long as no free name
looks like a number (`spelled_injective`).
-/

namespace LambdaShell

namespace Nameless

variable {m n : Nameless}

/-! ## Spelling anew -/

/-- A character, spelled anew. -/
def respellChar (c : Char) : List Char :=
  if c = 'λ' then ['λ', 'x'] else if Token.isNameChar c then ['_', c] else [c]

/-- **A text, spelled anew** character by character. -/
def respell (s : String) : String := String.ofList (s.toList.flatMap respellChar)

/-- **The term with the names of the new spelling.** -/
def spelled : Nameless → Term
  | index i => .var (respell (Nat.repr i))
  | free x => .var (respell x)
  | lam body => .lam "x" none body.spelled
  | app fn arg => .app fn.spelled arg.spelled

theorem respell_append (s s' : String) : respell (s ++ s') = respell s ++ respell s' := by
  rw [respell, String.toList_append, List.flatMap_append, String.ofList_append]
  rfl

/-- A character can be told from what it is spelled as, whatever follows. -/
theorem eq_of_respellChar_append {c d : Char} {r s : List Char}
    (h : respellChar c ++ r = respellChar d ++ s) : c = d ∧ r = s := by
  -- an underscore is a character of names, so it stands before one in either case
  have hunderscore : Token.isNameChar '_' = true := rfl
  unfold respellChar at h
  split at h <;> split at h <;> grind

theorem flatMap_respellChar_injective : Function.Injective (List.flatMap respellChar) := by
  -- no character is spelled as nothing
  have hne : ∀ c r, respellChar c ++ r ≠ [] := by
    intro c r
    unfold respellChar
    split
    · simp
    · split <;> simp
  intro cs ds h
  induction cs generalizing ds with
  | nil =>
    cases ds with
    | nil => rfl
    | cons d ds => exact absurd h.symm (hne d _)
  | cons c cs ih =>
    cases ds with
    | nil => exact absurd h (hne c _)
    | cons d ds =>
      rw [List.flatMap_cons, List.flatMap_cons] at h
      obtain ⟨rfl, hrest⟩ := eq_of_respellChar_append h
      rw [ih hrest]

/-- **No two texts are spelled alike.** -/
theorem respell_injective : Function.Injective respell := by
  intro s s' h
  exact String.toList_injective (flatMap_respellChar_injective (String.ofList_injective h))

/-! ## The term of the new spelling -/

theorem respell_parenthesized (wanted : Bool) (s : String) :
    respell (parenthesized wanted s) = parenthesized wanted (respell s) := by
  cases wanted with
  | false => rfl
  | true =>
    have hopen : respell "(" = "(" := by decide
    have hclose : respell ")" = ")" := by decide
    simp only [parenthesized, if_true, respell_append, hopen, hclose]

/-- Forms and terms have their parentheses in the same places. -/
theorem asFunction_spelled (m : Nameless) (s : String) :
    Printer.asFunction (s, m.spelled.tightness) = parenthesized m.isLam s := by
  cases m <;> rfl

theorem asArgument_spelled (m : Nameless) (s : String) :
    Printer.asArgument (s, m.spelled.tightness) = parenthesized (m.isLam || m.isApp) s := by
  cases m <;> rfl

/-- **The text of the term is that of the form, spelled anew.** -/
theorem text_spelled (m : Nameless) : m.spelled.text = respell m.text := by
  induction m with
  | index i => exact Term.text_var _
  | free x => exact Term.text_var _
  | lam body ih =>
    have hlambda : respell "λ. " = "λ" ++ "x" ++ ". " := by decide
    rw [spelled, Term.text_lam, text, respell_append, hlambda, ih]
    rfl
  | app fn arg ihf iha =>
    have hblank : respell " " = " " := by decide
    rw [spelled, Term.text_app, asFunction_spelled, asArgument_spelled, ihf, iha, text,
      respell_append, respell_append, respell_parenthesized, respell_parenthesized, hblank]

/-! ## Words -/

/-- **A word**: characters of names, and at least one. -/
structure IsWord (s : String) : Prop where
  ne_nil : s.toList ≠ []
  isNameChar : ∀ c ∈ s.toList, Token.isNameChar c = true

theorem isWord_repr (i : Nat) : IsWord (Nat.repr i) where
  ne_nil := by
    rw [Nat.toList_repr]
    exact Nat.toDigits_ne_nil
  isNameChar := by
    intro c hc
    simp [Token.isNameChar, Char.isAlphanum, Fresh.isDigit_of_mem_repr hc]

theorem isWord_of_isName {x : String} (h : Token.isName x = true) : IsWord x where
  ne_nil := by
    obtain ⟨c, cs, hx, -⟩ := Token.isName_iff.1 h
    rw [hx]
    exact List.cons_ne_nil c cs
  isNameChar := fun _ => Token.isNameChar_of_isName h

theorem respellChar_of_isNameChar {c : Char} (h : Token.isNameChar c = true) :
    respellChar c = ['_', c] := by
  have hne : c ≠ 'λ' := by
    rintro rfl
    cases h
  rw [respellChar, if_neg hne, if_pos h]

/-- **A word, spelled anew, is a name.** -/
theorem isName_respell {s : String} (hs : IsWord s) : Token.isName (respell s) = true := by
  have hall : ∀ d ∈ s.toList.flatMap respellChar, Token.isNameChar d = true := by
    intro d hd
    obtain ⟨c, hc, hdc⟩ := List.mem_flatMap.1 hd
    have hname := hs.isNameChar c hc
    rw [respellChar_of_isNameChar hname, List.mem_cons, List.mem_singleton] at hdc
    rcases hdc with rfl | rfl
    · rfl
    · exact hname
  obtain ⟨c, cs, hcs⟩ := List.exists_cons_of_ne_nil hs.ne_nil
  have hstart : s.toList.flatMap respellChar = '_' :: c :: cs.flatMap respellChar := by
    have hc : Token.isNameChar c = true := hs.isNameChar c (by rw [hcs]; exact List.mem_cons_self)
    rw [hcs, List.flatMap_cons, respellChar_of_isNameChar hc]
    rfl
  refine Token.isName_iff.2 ⟨'_', c :: cs.flatMap respellChar, ?_, rfl, ?_⟩
  · rw [respell, String.toList_ofList, hstart]
  · rw [hstart] at hall
    exact List.all_eq_true.2 fun d hd => hall d (List.mem_cons_of_mem _ hd)

/-- No name starts with a digit. -/
theorem isNameStart_of_isDigit {c : Char} (h : c.isDigit = true) :
    Token.isNameStart c = false := by
  have hdigit : c.val ≤ '9'.val := of_decide_eq_true (Bool.and_eq_true_iff.1 h).2
  -- all letters come after the digits
  have hafter : ∀ letter : Char, '9'.val < letter.val → ¬ letter.val ≤ c.val := by
    intro letter hletter hle
    exact UInt32.not_le.2 hletter (UInt32.le_trans hle hdigit)
  have hupper : c.isUpper = false := by
    refine Bool.eq_false_iff.2 fun hu => ?_
    exact hafter 'A' (by decide) (of_decide_eq_true hu).1
  have hlower : c.isLower = false := by
    refine Bool.eq_false_iff.2 fun hl => ?_
    exact hafter 'a' (by decide) (of_decide_eq_true (Bool.and_eq_true_iff.1 hl).1)
  have hne : c ≠ '_' := by
    rintro rfl
    cases h
  exact Bool.or_eq_false_iff.2 ⟨Bool.or_eq_false_iff.2 ⟨hupper, hlower⟩, beq_false_of_ne hne⟩

/-- A number is no name. -/
theorem repr_ne_of_isName {x : String} (h : Token.isName x = true) (i : Nat) :
    Nat.repr i ≠ x := by
  rintro rfl
  obtain ⟨c, cs, hcs, hstart, -⟩ := Token.isName_iff.1 h
  have hdigit : c.isDigit = true := Fresh.isDigit_of_mem_repr (by rw [hcs]; exact List.mem_cons_self)
  rw [isNameStart_of_isDigit hdigit] at hstart
  cases hstart

theorem wellNamed_spelled (hm : ∀ x ∈ m.names, Token.isName x = true) :
    m.spelled.wellNamed = true := by
  induction m with
  | index i => exact isName_respell (isWord_repr i)
  | free x => exact isName_respell (isWord_of_isName (hm x List.mem_cons_self))
  | lam body ih =>
    have hx : Token.isName "x" = true := by decide
    rw [spelled, Term.wellNamed, hx, ih hm]
    rfl
  | app fn arg ihf iha =>
    rw [spelled, Term.wellNamed, ihf fun x hx => hm x (List.mem_append_left _ hx),
      iha fun x hx => hm x (List.mem_append_right _ hx)]
    rfl

/-- **The form can be told from the term**, if no free name looks like a number. -/
theorem spelled_injective (hm : ∀ x ∈ m.names, Token.isName x = true)
    (hn : ∀ x ∈ n.names, Token.isName x = true) (h : m.spelled = n.spelled) : m = n := by
  induction m generalizing n with
  | index i =>
    cases n with
    | index j =>
      have hrepr : Nat.repr i = Nat.repr j := respell_injective (Term.var.inj h)
      have hij : i = j := Fresh.numbered_injective "" (congrArg ("" ++ ·) hrepr)
      rw [hij]
    | free x =>
      have hrepr : Nat.repr i = x := respell_injective (Term.var.inj h)
      exact absurd hrepr (repr_ne_of_isName (hn x List.mem_cons_self) i)
    | lam body => cases h
    | app fn arg => cases h
  | free x =>
    cases n with
    | index j =>
      have hrepr : x = Nat.repr j := respell_injective (Term.var.inj h)
      exact absurd hrepr.symm (repr_ne_of_isName (hm x List.mem_cons_self) j)
    | free y => rw [respell_injective (Term.var.inj h)]
    | lam body => cases h
    | app fn arg => cases h
  | lam body ih =>
    cases n with
    | lam body' =>
      obtain ⟨-, -, hbody⟩ := Term.lam.inj h
      have heq : body = body' := ih hm hn hbody
      rw [heq]
    | index j => cases h
    | free y => cases h
    | app fn arg => cases h
  | app fn arg ihf iha =>
    cases n with
    | app fn' arg' =>
      obtain ⟨hfn, harg⟩ := Term.app.inj h
      have hf : fn = fn' := ihf (fun x hx => hm x (List.mem_append_left _ hx))
        (fun x hx => hn x (List.mem_append_left _ hx)) hfn
      have ha : arg = arg' := iha (fun x hx => hm x (List.mem_append_right _ hx))
        (fun x hx => hn x (List.mem_append_right _ hx)) harg
      rw [hf, ha]
    | index j => cases h
    | free y => cases h
    | lam body => cases h

/-- **A nameless form can be told from its text.** -/
theorem eq_of_text_eq (hm : ∀ x ∈ m.names, Token.isName x = true)
    (hn : ∀ x ∈ n.names, Token.isName x = true) (h : m.text = n.text) : m = n := by
  have hparse : Term.parse m.spelled.text = .ok m.spelled := Term.parse_text (wellNamed_spelled hm)
  rw [text_spelled, h, ← text_spelled, Term.parse_text (wellNamed_spelled hn)] at hparse
  exact spelled_injective hm hn (Except.ok.inj hparse).symm

end Nameless

/-- **The written nameless form is faithful.** Two terms whose free names are names of the
language have the same text of their nameless forms if and only if they are
equal up to bound names. It makes no difference whether a form comes from a
term: all forms whose free names are names of the language, those with loose
indices too, have different texts. -/
theorem nameless_text_faithful :
    (∀ t u : Term, (∀ x ∈ t.freeVars, Token.isName x = true) →
      (∀ x ∈ u.freeVars, Token.isName x = true) →
        ((t.nameless []).text = (u.nameless []).text ↔ t.AlphaEq u)) ∧
      Set.InjOn Nameless.text {m | ∀ x ∈ m.names, Token.isName x = true} := by
  refine ⟨?_, fun m hm n hn => Nameless.eq_of_text_eq hm hn⟩
  intro t u ht hu
  constructor
  · intro h
    refine Nameless.eq_of_text_eq ?_ ?_ h
    · exact fun x hx => ht x (Term.mem_names_nameless_nil.1 hx)
    · exact fun x hx => hu x (Term.mem_names_nameless_nil.1 hx)
  · intro h
    exact congrArg Nameless.text h

/-- `λx. (λy. x y) (x a1)` and `λu. (λv. u v) (u a1)` are both written `λ. (λ. 1 0) (0 a1)`,
and `λx. λy. x y (x a1)`, which ends alike, is not. An index of two digits is
not written as two indices are. -/
theorem nameless_text_faithful_grouped :
    let pair (x y : String) : Term := .app (.var x) (.var y)
    let t (x y : String) : Term := .lam x none (.app (.lam y none (pair x y)) (pair x "a1"))
    let u : Term := .lam "x" none (.lam "y" none (.app (pair "x" "y") (pair "x" "a1")))
    (((t "x" "y").nameless []).text = ((t "u" "v").nameless []).text ∧
        (t "x" "y").AlphaEq (t "u" "v")) ∧
      (¬ (t "x" "y").AlphaEq u ∧ ((t "x" "y").nameless []).text ≠ (u.nameless []).text) ∧
      (Nameless.index 12).text ≠ (Nameless.app (.index 1) (.index 2)).text := by
  intro pair t u
  have htext : ((t "x" "y").nameless []).text = ((t "u" "v").nameless []).text := by
    decide +kernel
  have hne : ¬ (t "x" "y").AlphaEq u := by decide
  have hxy : ∀ x ∈ (t "x" "y").freeVars, Token.isName x = true := by decide +kernel
  have huv : ∀ x ∈ (t "u" "v").freeVars, Token.isName x = true := by decide +kernel
  have hu : ∀ x ∈ u.freeVars, Token.isName x = true := by decide +kernel
  obtain ⟨hterms, hforms⟩ := nameless_text_faithful
  refine ⟨⟨htext, (hterms _ _ hxy huv).1 htext⟩, ⟨hne, fun h => hne ((hterms _ _ hxy hu).1 h)⟩, ?_⟩
  intro h
  have hsame : Nameless.index 12 = .app (.index 1) (.index 2) :=
    hforms (fun x hx => by cases hx) (fun x hx => by cases hx) h
  cases hsame

end LambdaShell
