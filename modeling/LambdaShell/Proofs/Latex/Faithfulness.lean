import LambdaShell.Proofs.Latex.Marks
import LambdaShell.Proofs.Latex.StackMachine
import LambdaShell.Proofs.Text.Lines
import Mathlib.Data.Set.Function

/-!
# LaTeX — nothing is lost

Two different types, terms or contexts have different texts, and so have the
derivations that are found for two terms, if the terms or the contexts
differ (`derivation_faithful`). All names have to be names of the language,
and where types can be written down there must be no faults.

A derivation ends with the line of its root, whose judgement begins with the
context and the term. A turnstile ends the context, commas divide it into its
entries, and the first colon after the turnstile that stands between blanks
ends the term. What comes after it, the type that was found, does not
matter, but that it stays on its line: a fault tells its reason there, with
the name of a variable in it.
-/

namespace LambdaShell

open Typing

/-- **All names in the context are names of the language**, and it holds no faults. -/
def Typing.wellNamed (ctx : Context) : Bool :=
  ctx.entries.all fun e => Token.isName e.1 && e.2.wellNamed

namespace Latex

theorem eq_of_type_eq {ty ty' : Ty} (hty : ty.wellNamed = true) (hty' : ty'.wellNamed = true)
    (h : type ty = type ty') : ty = ty' := by
  match ty, ty' with
  | .simple τ, .simple τ' =>
    have hmarked' := marked_simpleType hty'
    rw [← show simpleType τ = simpleType τ' from h] at hmarked'
    rw [eq_of_typeMarks_eq ((marked_simpleType hty).unique hmarked')]
  | .fault _, _ => cases hty
  | _, .fault _ => cases hty'

/-! ## Contexts -/

/-- The marks of an entry, which has to be a type. -/
def entryMarks : String × Ty → List Mark
  | (x, .simple τ) => .name x :: .typed :: typeMarks τ
  | (_, .fault _) => []

/-- What a comma divides the marks of a context into. -/
def contextParts (ctx : Context) : List (List Mark) :=
  if ctx.entries.isEmpty then [[.nothing]] else ctx.entries.map entryMarks

/-- The marks of a context. -/
def contextMarks (ctx : Context) : List Mark := [Mark.comma].intercalate (contextParts ctx)

section Context

variable {ctx ctx' : Context}

theorem wellNamed_entry (h : wellNamed ctx = true) {e : String × Ty} (he : e ∈ ctx.entries) :
    Token.isName e.1 = true ∧ e.2.wellNamed = true :=
  Bool.and_eq_true_iff.1 (List.all_eq_true.1 h e he)

theorem toList_entry {e : String × Ty} (he : Token.isName e.1 = true ∧ e.2.wellNamed = true) :
    (entry e).toList = (entryMarks e).flatMap Mark.spell := by
  obtain ⟨x, τ | reason⟩ := e
  · have hτ := (marked_simpleType he.2).toList_eq
    rw [entry, String.toList_append, String.toList_append]
    simp only [type, hτ, entryMarks, List.flatMap_cons, List.append_assoc]
    rfl
  · cases he.2

/-- Commas between texts are commas between their marks. -/
theorem toList_intercalate {α : Type} {text : α → String} {marks : α → List Mark} {as : List α}
    (h : ∀ a ∈ as, (text a).toList = (marks a).flatMap Mark.spell) :
    (", ".intercalate (as.map text)).toList =
      ([Mark.comma].intercalate (as.map marks)).flatMap Mark.spell := by
  induction as with
  | nil => rfl
  | cons a as ih =>
    have ha := h a List.mem_cons_self
    have hrest := ih fun b hb => h b (List.mem_cons_of_mem _ hb)
    cases as with
    | nil => simpa using ha
    | cons b as =>
      simp only [List.map_cons] at hrest ⊢
      rw [String.intercalate_cons_cons, List.intercalate_cons_cons, String.toList_append,
        String.toList_append, List.flatMap_append, List.flatMap_append, hrest, ha,
        List.flatMap_singleton]
      rfl

theorem toList_context (h : wellNamed ctx = true) :
    (context ctx).toList = (contextMarks ctx).flatMap Mark.spell := by
  unfold context contextMarks contextParts
  split
  · rfl
  · exact toList_intercalate fun e he => toList_entry (wellNamed_entry h he)

/-- What is in an entry of a context. -/
theorem forall_mem_entryMarks {e : String × Ty}
    (he : Token.isName e.1 = true ∧ e.2.wellNamed = true) :
    ∀ m ∈ entryMarks e, m.wellNamed = true ∧ m ≠ .comma ∧ m ≠ .turnstile := by
  obtain ⟨x, τ | reason⟩ := e
  · intro m hm
    rw [entryMarks, List.mem_cons, List.mem_cons] at hm
    rcases hm with rfl | rfl | hm
    · exact ⟨he.1, nofun, nofun⟩
    · exact ⟨rfl, nofun, nofun⟩
    · have hin := (marked_simpleType he.2).inTerm m hm
      refine ⟨Mark.wellNamed_of_inTerm hin, ?_, ?_⟩ <;> rintro rfl <;> cases hin
  · cases he.2

theorem forall_mem_contextParts (h : wellNamed ctx = true) :
    ∀ part ∈ contextParts ctx, ∀ m ∈ part, m.wellNamed = true ∧ m ≠ .comma ∧ m ≠ .turnstile := by
  unfold contextParts
  split
  · simp [Mark.wellNamed]
  · intro part hpart
    obtain ⟨e, he, rfl⟩ := List.mem_map.1 hpart
    exact forall_mem_entryMarks (wellNamed_entry h he)

theorem contextParts_ne_nil (ctx : Context) : contextParts ctx ≠ [] := by
  unfold contextParts
  split
  · simp
  · rename_i hne
    simpa using hne

theorem mem_intercalate_comma {m : Mark} {parts : List (List Mark)}
    (h : m ∈ [Mark.comma].intercalate parts) : m = .comma ∨ ∃ part ∈ parts, m ∈ part := by
  induction parts with
  | nil => cases h
  | cons part parts ih =>
    cases parts with
    | nil =>
      rw [List.intercalate_singleton] at h
      exact .inr ⟨part, List.mem_cons_self, h⟩
    | cons next parts =>
      rw [List.intercalate_cons_cons, List.mem_append, List.mem_append, List.mem_singleton] at h
      rcases h with (h | h) | h
      · exact .inr ⟨part, List.mem_cons_self, h⟩
      · exact .inl h
      · refine (ih h).imp_right ?_
        rintro ⟨other, hother, hm⟩
        exact ⟨other, List.mem_cons_of_mem _ hother, hm⟩

theorem forall_mem_contextMarks (h : wellNamed ctx = true) :
    ∀ m ∈ contextMarks ctx, m.wellNamed = true ∧ m ≠ .turnstile := by
  intro m hm
  rcases mem_intercalate_comma hm with rfl | ⟨part, hpart, hm⟩
  · exact ⟨rfl, nofun⟩
  · exact (forall_mem_contextParts h part hpart m hm).imp_right And.right

/-- The marks of an entry show the entry. -/
theorem eq_of_entryMarks_eq {e e' : String × Ty} (he : e.2.wellNamed = true)
    (he' : e'.2.wellNamed = true) (h : entryMarks e = entryMarks e') : e = e' := by
  obtain ⟨x, τ | reason⟩ := e
  · obtain ⟨x', τ' | reason'⟩ := e'
    · obtain ⟨hx, hrest⟩ := List.cons.inj h
      rw [Mark.name.inj hx, eq_of_typeMarks_eq (List.cons.inj hrest).2]
    · cases he'
  · cases he

theorem eq_of_map_entryMarks_eq {es es' : List (String × Ty)}
    (hes : ∀ e ∈ es, e.2.wellNamed = true) (hes' : ∀ e ∈ es', e.2.wellNamed = true)
    (h : es.map entryMarks = es'.map entryMarks) : es = es' := by
  induction es generalizing es' with
  | nil => exact (List.map_eq_nil_iff.1 h.symm).symm
  | cons e es ih =>
    cases es' with
    | nil => cases h
    | cons e' es' =>
      obtain ⟨hfirst, hrest⟩ := List.cons.inj h
      rw [eq_of_entryMarks_eq (hes e List.mem_cons_self) (hes' e' List.mem_cons_self) hfirst,
        ih (fun d hd => hes d (List.mem_cons_of_mem _ hd))
          (fun d hd => hes' d (List.mem_cons_of_mem _ hd)) hrest]

/-- An entry is not written as the empty context is. -/
theorem map_entryMarks_ne_nothing {es : List (String × Ty)} (hes : ∀ e ∈ es, e.2.wellNamed = true) :
    es.map entryMarks ≠ [[.nothing]] := by
  intro h
  obtain ⟨e, rfl, he⟩ := List.map_eq_singleton_iff.1 h
  obtain ⟨x, τ | reason⟩ := e
  · cases he
  · cases hes _ List.mem_cons_self

/-- **A context can be told from its marks.** -/
theorem eq_of_contextMarks_eq (hctx : wellNamed ctx = true) (hctx' : wellNamed ctx' = true)
    (h : contextMarks ctx = contextMarks ctx') : ctx = ctx' := by
  have hsplit : ∀ {c : Context}, wellNamed c = true →
      (contextMarks c).splitOn .comma = contextParts c := by
    intro c hc
    refine List.splitOn_intercalate _ (fun part hpart hcomma => ?_) (contextParts_ne_nil c)
    exact (forall_mem_contextParts hc part hpart .comma hcomma).2.1 rfl
  have hparts : contextParts ctx = contextParts ctx' := by
    rw [← hsplit hctx, h, hsplit hctx']
  have hes : ∀ e ∈ ctx.entries, e.2.wellNamed = true := fun e he => (wellNamed_entry hctx he).2
  have hes' : ∀ e ∈ ctx'.entries, e.2.wellNamed = true := fun e he => (wellNamed_entry hctx' he).2
  refine OrderedMap.ext ?_
  unfold contextParts at hparts
  split at hparts <;> split at hparts
  · rename_i hempty hempty'
    rw [List.isEmpty_iff.1 hempty, List.isEmpty_iff.1 hempty']
  · exact absurd hparts.symm (map_entryMarks_ne_nothing hes')
  · exact absurd hparts (map_entryMarks_ne_nothing hes)
  · exact eq_of_map_entryMarks_eq hes hes' hparts

end Context

/-! ## Judgements -/

theorem toList_judgement {ctx : Context} {t : Term} (hctx : wellNamed ctx = true)
    (ht : t.wellNamed = true) (ty : Ty) :
    (judgement ctx t ty).toList =
      '$' :: ((contextMarks ctx).flatMap Mark.spell ++ (Mark.turnstile.spell ++
        ((termMarks t).flatMap Mark.spell ++ (Mark.typed.spell ++
          ((type ty).toList ++ "$".toList))))) := by
  simp only [judgement, String.toList_append, toList_context hctx, (marked_term ht).toList_eq,
    List.append_assoc]
  rfl

/-- **A judgement shows its context and its term.** -/
theorem eq_of_judgement_eq {ctx ctx' : Context} {t t' : Term} {ty ty' : Ty}
    (hctx : wellNamed ctx = true) (hctx' : wellNamed ctx' = true) (ht : t.wellNamed = true)
    (ht' : t'.wellNamed = true) (h : judgement ctx t ty = judgement ctx' t' ty') :
    ctx = ctx' ∧ t = t' := by
  have hchars := congrArg String.toList h
  rw [toList_judgement hctx ht, toList_judgement hctx' ht'] at hchars
  obtain ⟨hmarks, hrest⟩ := Mark.eq_of_spell_until Mark.turnstile rfl
    (forall_mem_contextMarks hctx) (forall_mem_contextMarks hctx') (List.cons.inj hchars).2
  obtain ⟨hmarks', -⟩ := Mark.eq_of_spell_until Mark.typed rfl
    ((marked_term ht).forall_ne rfl) ((marked_term ht').forall_ne rfl) hrest
  exact ⟨eq_of_contextMarks_eq hctx hctx' hmarks, eq_of_termMarks_eq ht ht' hmarks'⟩

/-! ## Lines -/

theorem oneLine_escape (s : String) : Text.oneLine (escape s) = Text.oneLine s := by
  have hchar : ∀ c : Char, (escapeChar c).all (fun d => d != '\n' && d != '\r') =
      (c != '\n' && c != '\r') := by
    intro c
    unfold escapeChar
    split
    · simp
    · simp
  rw [Text.oneLine, Mark.toList_escape, List.all_flatMap, Text.oneLine]
  simp only [hchar]

theorem oneLine_name {x : String} (h : Token.isName x = true) : Text.oneLine (name x) = true := by
  have hx : Text.oneLine (escape x) = true := by
    rw [oneLine_escape]
    exact Token.oneLine_of_isName h
  unfold name
  split
  · simp +decide [braced, hx]
  · exact hx

theorem Mark.oneLine_text {m : Mark} (h : m.wellNamed = true) : Text.oneLine m.text = true := by
  cases m with
  | name x => exact oneLine_name h
  | _ => decide +kernel

/-- Marks are on one line. -/
theorem oneLine_of_marks {s : String} {marks : List Mark}
    (hs : s.toList = marks.flatMap Mark.spell) (h : ∀ m ∈ marks, m.wellNamed = true) :
    Text.oneLine s = true := by
  rw [Text.oneLine, hs, List.all_flatMap, List.all_eq_true]
  exact fun m hm => Mark.oneLine_text (h m hm)

/-- **The outcome of typing stays on one line**: a type has names of the language in it,
and a fault tells its reason on one line. -/
def tidy : Ty → Bool
  | .simple τ => τ.wellNamed
  | .fault reason => Text.oneLine reason.message

theorem tidy_of_wellNamed {ty : Ty} (h : ty.wellNamed = true) : tidy ty = true := by
  cases ty with
  | simple τ => exact h
  | fault reason => cases h

theorem oneLine_type {ty : Ty} (h : tidy ty = true) : Text.oneLine (type ty) = true := by
  cases ty with
  | simple τ =>
    have hmarked := marked_simpleType h
    exact oneLine_of_marks hmarked.toList_eq fun m hm =>
      Mark.wellNamed_of_inTerm (hmarked.inTerm m hm)
  | fault reason =>
    have hreason : Text.oneLine reason.message = true := h
    simp +decide [type, braced, oneLine_escape, hreason]

theorem oneLine_append_name {s x : String} (hs : Text.oneLine s = true)
    (hx : Token.isName x = true) : Text.oneLine (s ++ x) = true := by
  rw [Text.oneLine_append, hs, Token.oneLine_of_isName hx]
  rfl

theorem tidy_applyType {σ τ : SimpleType} {ty : Ty} (hτ : τ.wellNamed = true)
    (hty : tidy ty = true) : tidy (applyType σ τ ty) = true := by
  cases ty with
  | fault reason => exact hty
  | simple ρ =>
    by_cases hρ : ρ = σ
    · have htype : applyType σ τ (.simple ρ) = .simple τ := if_pos hρ
      rw [htype]
      exact hτ
    · have htype : applyType σ τ (.simple ρ) = .fault .argumentMismatch := if_neg hρ
      rw [htype]
      decide

/-- Under a binder all types in the context stay on one line, as its own does. -/
theorem tidy_get?_insert {ctx : Context} {x : String} {domain : Ty}
    (hctx : ∀ y ty, ctx.get? y = some ty → tidy ty = true) (hdomain : domain.wellNamed = true) :
    ∀ y ty, (ctx.insert x domain).get? y = some ty → tidy ty = true := by
  intro y ty hy
  rw [OrderedMap.get?_insert] at hy
  split at hy
  · cases hy
    exact tidy_of_wellNamed hdomain
  · exact hctx y ty hy

/-- **What is found for a term stays on one line**, in a context of which this is true. -/
theorem tidy_typeOf {ctx : Context} {t : Term} {ty : Ty}
    (hctx : ∀ x ty, ctx.get? x = some ty → tidy ty = true) (ht : t.wellNamed = true)
    (h : typeOf ctx t = .ok ty) : tidy ty = true := by
  revert h
  fun_induction typeOf ctx t generalizing ty with
  | case1 ctx x =>
    intro h
    cases h
    unfold typeOfVar
    split
    · rename_i ty hx
      exact hctx x ty hx
    · exact oneLine_append_name (s := "unbound variable ") (by decide) ht
  | case2 ctx x body =>
    intro h
    cases h
    simp only [Term.wellNamed, Bool.and_eq_true] at ht
    exact oneLine_append_name (s := "missing type annotation for ") (by decide) ht.1.1
  | case3 =>
    intro h
    cases h
  | case4 ctx x domain body reason hbody ih =>
    intro h
    cases h
    simp only [Term.wellNamed, Bool.and_eq_true] at ht
    exact ih (tidy_get?_insert hctx ht.1.2) ht.2 hbody
  | case5 ctx x domain body τ hbody ih =>
    intro h
    simp only [Term.wellNamed, Bool.and_eq_true] at ht
    have hτ : τ.wellNamed = true := ih (tidy_get?_insert hctx ht.1.2) ht.2 hbody
    cases domain with
    | fault reason => cases h
    | simple σ =>
      cases h
      exact Bool.and_eq_true_iff.2 ⟨ht.1.2, hτ⟩
  | case6 =>
    intro h
    cases h
  | case7 ctx fn arg reason hfn ih =>
    intro h
    cases h
    rw [Term.wellNamed, Bool.and_eq_true] at ht
    exact ih hctx ht.1 hfn
  | case8 ctx fn arg name hfn ih =>
    intro h
    cases h
    decide
  | case9 =>
    intro h
    cases h
  | case10 ctx fn arg σ τ hfn ty' harg ihf iha =>
    intro h
    cases h
    rw [Term.wellNamed, Bool.and_eq_true] at ht
    have harrow : (SimpleType.arrow σ τ).wellNamed = true := ihf hctx ht.1 hfn
    exact tidy_applyType (Bool.and_eq_true_iff.1 harrow).2 (iha hctx ht.2 harg)

theorem oneLine_judgement {ctx : Context} {t : Term} {ty : Ty} (hctx : wellNamed ctx = true)
    (ht : t.wellNamed = true) (hty : tidy ty = true) :
    Text.oneLine (judgement ctx t ty) = true := by
  have hcontext : Text.oneLine (context ctx) = true :=
    oneLine_of_marks (toList_context hctx) fun m hm => (forall_mem_contextMarks hctx m hm).1
  have hterm : Text.oneLine (term t) = true :=
    oneLine_of_marks (marked_term ht).toList_eq fun m hm =>
      Mark.wellNamed_of_inTerm ((marked_term ht).inTerm m hm)
  simp +decide [judgement, hcontext, hterm, oneLine_type hty]

/-! ## Derivations -/

/-- What a proof tree ends with, after its last line. -/
def closing : String := "\n\\end" ++ braced "prooftree"

/-- An inference with a conclusion. -/
inductive Infers (conclusion : String) : ProofLine → Prop where
  | unary : Infers conclusion (.unary conclusion)
  | binary : Infers conclusion (.binary conclusion)

theorem Infers.eq_of_text_eq {a b : String} {line line' : ProofLine} (h : Infers a line)
    (h' : Infers b line') (htext : line.text = line'.text) : a = b := by
  have hline : some line = some line' := by
    rw [← ProofLine.ofText?_text, htext, ProofLine.ofText?_text]
  cases h <;> cases h' <;> cases hline <;> rfl

theorem Infers.oneLine_text {a : String} {line : ProofLine} (h : Infers a line)
    (ha : Text.oneLine a = true) : Text.oneLine line.text = true := by
  cases h <;> simp +decide [ProofLine.text, braced, ha]

/-- **The last command of a derivation infers its judgement.** -/
theorem exists_last_proofLine {d : Derivation} {lines : List ProofLine}
    (h : proofLines d = .ok lines) :
    ∃ before last, lines = before ++ [last] ∧ Infers (judgement d.ctx d.term d.ty) last := by
  obtain ⟨ctx, t, ty, rule, premises⟩ := d
  rw [proofLines] at h
  split at h
  · cases h
  · rename_i above _
    split at h
    · cases h
    · rename_i own hown
      cases h
      unfold inference at hown
      split at hown
      · cases hown
        exact ⟨above ++ [.leaf, .label rule.label], .unary (judgement ctx t ty), by simp, .unary⟩
      · cases hown
        exact ⟨above ++ [.label rule.label], .unary (judgement ctx t ty), by simp, .unary⟩
      · cases hown
        exact ⟨above ++ [.label rule.label], .binary (judgement ctx t ty), by simp, .binary⟩
      · cases hown

/-- **The last line of a proof tree** is that of its root. -/
theorem exists_last_line {d : Derivation} {text : String} (h : derivation d = .ok text) :
    ∃ before line, text = before ++ "\n" ++ line.text ++ closing ∧
      Infers (judgement d.ctx d.term d.ty) line := by
  unfold derivation at h
  split at h
  · cases h
  · rename_i lines hlines
    cases h
    obtain ⟨before, last, rfl, hlast⟩ := exists_last_proofLine hlines
    obtain ⟨start, hstart⟩ := Text.exists_before_last ("\\begin" ++ braced "prooftree")
      (before.map ProofLine.text) last.text
    refine ⟨start, last, ?_, hlast⟩
    rw [List.map_append, List.map_singleton, hstart, closing]
    simp only [String.append_assoc]

/-- **The text that is shown for a term in a context**: that of the derivation that is found. -/
def Shown (ctx : Context) (t : Term) (text : String) : Prop :=
  ∃ d ty, derive ctx t = .ok (d, ty) ∧ derivation d = .ok text

theorem exists_shown {t : Term} (ht : t.wellNamed = true) (ctx : Context) :
    ∃ text, Shown ctx t text := by
  cases hderive : derive ctx t with
  | error e =>
    have htypes := Term.declaresTypes_of_wellNamed ht
    exact absurd (derive_eq_error_iff.1 hderive) (typeOf_ne_error htypes ctx e)
  | ok result =>
    obtain ⟨d, ty⟩ := result
    obtain ⟨text, htext⟩ := exists_latex_derivation hderive
    exact ⟨text, d, ty, hderive, htext⟩

/-- **What is shown ends with the judgement on the term**, on a line of its own. -/
theorem Shown.exists_judgement {ctx : Context} {t : Term} {text : String} (h : Shown ctx t text)
    (hctx : wellNamed ctx = true) (ht : t.wellNamed = true) :
    ∃ ty before line, text = before ++ "\n" ++ line.text ++ closing ∧
      Infers (judgement ctx t ty) line ∧ Text.oneLine line.text = true := by
  obtain ⟨d, ty, hderive, htext⟩ := h
  obtain ⟨before, line, hline, hinfers⟩ := exists_last_line htext
  obtain ⟨rfl, rfl, rfl⟩ := concludes_of_derive hderive
  have hassumed : ∀ x ty, d.ctx.get? x = some ty → tidy ty = true := by
    intro x ty hx
    rw [OrderedMap.get?, OrderedMap.findEntry_eq, Option.map_eq_some_iff] at hx
    obtain ⟨e, he, rfl⟩ := hx
    exact tidy_of_wellNamed (wellNamed_entry hctx (List.mem_of_find?_eq_some he)).2
  have hty := tidy_typeOf hassumed ht (typeOf_of_derive hderive)
  exact ⟨_, before, line, hline, hinfers, hinfers.oneLine_text (oneLine_judgement hctx ht hty)⟩

/-- **What is shown tells the context and the term.** -/
theorem Shown.eq_of_text {ctx ctx' : Context} {t t' : Term} {text : String}
    (h : Shown ctx t text) (h' : Shown ctx' t' text) (hctx : wellNamed ctx = true)
    (hctx' : wellNamed ctx' = true) (ht : t.wellNamed = true) (ht' : t'.wellNamed = true) :
    ctx = ctx' ∧ t = t' := by
  obtain ⟨ty, before, line, htext, hinfers, hline⟩ := h.exists_judgement hctx ht
  obtain ⟨ty', before', line', htext', hinfers', hline'⟩ := h'.exists_judgement hctx' ht'
  have hchars := congrArg String.toList (htext.symm.trans htext')
  simp only [String.toList_append, List.append_cancel_right_eq, List.append_assoc _ "\n".toList]
    at hchars
  have hsame : line.text = line'.text := Text.eq_of_last_line hline hline' hchars
  exact eq_of_judgement_eq hctx hctx' ht ht' (hinfers.eq_of_text_eq hinfers' hsame)

/-- **Nothing is lost in LaTeX.** Take contexts and terms in which all names are names of
the language and all types are types, not faults. Then a derivation is always
found and shown, also where it ends in a fault; and two that are shown alike
are for the same term, with the same annotations, in the same context, with
its entries in the same order. Types, terms and contexts on their own have
different texts if they are different. -/
theorem derivation_faithful :
    (∀ (ctx : Context) (t : Term), wellNamed ctx = true → t.wellNamed = true →
      ∃ text, Shown ctx t text) ∧
    (∀ (ctx ctx' : Context) (t t' : Term) (text : String), wellNamed ctx = true →
      wellNamed ctx' = true → t.wellNamed = true → t'.wellNamed = true →
        Shown ctx t text → Shown ctx' t' text → ctx = ctx' ∧ t = t') ∧
    Set.InjOn type {ty | ty.wellNamed = true} ∧ Set.InjOn term {t | t.wellNamed = true} ∧
    Set.InjOn context {ctx | wellNamed ctx = true} := by
  refine ⟨fun ctx t _ ht => exists_shown ht ctx, ?_, ?_, ?_, ?_⟩
  · intro ctx ctx' t t' text hctx hctx' ht ht' h h'
    exact h.eq_of_text h' hctx hctx' ht ht'
  · intro ty hty ty' hty' h
    exact eq_of_type_eq hty hty' h
  · intro t ht t' ht' h
    have hmarked' := marked_term ht'
    rw [← h] at hmarked'
    exact eq_of_termMarks_eq ht ht' ((marked_term ht).unique hmarked')
  · intro ctx hctx ctx' hctx' h
    refine eq_of_contextMarks_eq hctx hctx' (Mark.eq_of_flatMap_spell_eq
      (forall_mem_contextMarks hctx) (forall_mem_contextMarks hctx') ?_)
    rw [← toList_context hctx, ← toList_context hctx', h]

/-- Two contexts that differ in their order alone are shown differently, though `f x y` has
the same type in both; and parentheses are kept where they mean something. -/
theorem derivation_faithful_reordered :
    let a : SimpleType := .base "A"
    let x : String × Ty := ("x", .simple a)
    let right : Ty := .simple (.arrow a (.arrow a a))
    let left : Ty := .simple (.arrow (.arrow a a) a)
    let f : String × Ty := ("f_1", right)
    let t : Term := .app (.app (.var "f_1") (.var "x")) (.var "x")
    let nested : Term := .app (.var "f_1") (.app (.var "x") (.var "x"))
    wellNamed (.ofList [x, f]) = true ∧ wellNamed (.ofList [f, x]) = true ∧
      t.wellNamed = true ∧ nested.wellNamed = true ∧ right.wellNamed = true ∧
      left.wellNamed = true ∧
      typeOf (.ofList [x, f]) t = typeOf (.ofList [f, x]) t ∧
      (∃ text, Shown (.ofList [x, f]) t text ∧ ¬ Shown (.ofList [f, x]) t text) ∧
      context (.ofList [x, f]) ≠ context (.ofList [f, x]) ∧ term t ≠ term nested ∧
      type right ≠ type left := by
  intro a x right left f t nested
  obtain ⟨hshown, hfaithful, htypes, hterms, hcontexts⟩ := derivation_faithful
  have hxf : wellNamed (.ofList [x, f]) = true := by decide
  have hfx : wellNamed (.ofList [f, x]) = true := by decide
  have ht : t.wellNamed = true := by decide
  have hnested : nested.wellNamed = true := by decide
  have hright : right.wellNamed = true := by decide
  have hleft : left.wellNamed = true := by decide
  have horder : OrderedMap.ofList [x, f] ≠ .ofList [f, x] := by decide
  obtain ⟨text, htext⟩ := hshown (.ofList [x, f]) t hxf ht
  refine ⟨hxf, hfx, ht, hnested, hright, hleft, rfl, ⟨text, htext, fun htext' => ?_⟩, ?_, ?_, ?_⟩
  · exact horder (hfaithful _ _ t t text hxf hfx ht ht htext htext').1
  · exact fun h => horder (hcontexts hxf hfx h)
  · exact fun h => absurd (hterms ht hnested h) (by decide)
  · exact fun h => absurd (htypes hright hleft h) (by decide)

end Latex

end LambdaShell
