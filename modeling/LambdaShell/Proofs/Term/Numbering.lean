import LambdaShell.Proofs.Term.Fresh
import LambdaShell.Proofs.Text.Lines
import Mathlib.Data.List.DropRight

/-!
# Terms — the number a fresh name takes

A fresh name is a stem and a number. The number is the least that gives a
name not to be avoided, and it is at most one more than there are different
names to avoid. The stem is the old name without the decimal digits at its
end, or all of it where nothing else would be left, with one exception: a
line feed at the very end is passed over, and the digits before it are
dropped although they do not end the name. What comes out then is never what
was meant, whatever number is taken (`Fresh.name_meant_iff`).

When a binder gives way to a replacement, the names to avoid are those of
the replacement and of the body. The name that is replaced and the binder
itself are not listed; they are avoided because the binder gives way only
where the first is free in the body and the second in the replacement
(`Term.newBinder_freshBinder`).
-/

namespace LambdaShell

namespace Fresh

variable {cs cut line : List Char} {base s : String}

/-! ## Stems -/

/-- **Characters without their number**: what stands before the decimal digits at
the end, of which none is left. -/
structure Unnumbered (cs cut : List Char) : Prop where
  digits : ∃ number, cs = cut ++ number ∧ ∀ c ∈ number, Text.isDecimalDigit c = true
  last : ∀ c ∈ cut.getLast?, Text.isDecimalDigit c = false

/-- **What the stem of a name is meant to be**: the name without its number, or the
whole name if nothing is left without it. -/
inductive IsStem (base : String) : String → Prop
  | cut {s : String} : s ≠ "" → Unnumbered base.toList s.toList → IsStem base s
  | whole : Unnumbered base.toList [] → IsStem base base

/-- A name whose number stands before a line feed, and the line feed at its end. -/
def NumberedLine (base : String) : Prop :=
  ∃ line digit, Text.isDecimalDigit digit = true ∧ base.toList = line ++ [digit, '\n']

theorem unnumbered_dropDigits (cs : List Char) : Unnumbered cs (dropDigits cs) where
  digits := ⟨cs.rtakeWhile Text.isDecimalDigit, List.rdropWhile_append_rtakeWhile.symm,
    fun _ hc => List.mem_rtakeWhile_imp hc⟩
  last c hc := by
    obtain ⟨hne, rfl⟩ := List.mem_getLast?_eq_getLast hc
    exact Bool.eq_false_of_not_eq_true (List.rdropWhile_last_not Text.isDecimalDigit cs hne)

/-- Characters that do not end in a digit have no number to lose. -/
theorem Unnumbered.eq_self (h : Unnumbered cs cut)
    (hlast : ∀ c ∈ cs.getLast?, Text.isDecimalDigit c = false) : cut = cs := by
  obtain ⟨number, rfl, hdigits⟩ := h.digits
  rcases List.eq_nil_or_concat number with rfl | ⟨ds, d, rfl⟩
  · rw [List.append_nil]
  · have hdigit : Text.isDecimalDigit d = true := hdigits d (by simp)
    have hother : Text.isDecimalDigit d = false := hlast d (by simp)
    exact absurd (hdigit.symm.trans hother) (by decide)

theorem unnumbered_self (hlast : ∀ c ∈ cs.getLast?, Text.isDecimalDigit c = false) :
    Unnumbered cs cs :=
  ⟨⟨[], by simp⟩, hlast⟩

theorem IsStem.eq_self (h : IsStem base s)
    (hlast : ∀ c ∈ base.toList.getLast?, Text.isDecimalDigit c = false) : s = base := by
  cases h with
  | cut _ hs => exact String.toList_injective (hs.eq_self hlast)
  | whole => rfl

/-- The line feed at the end of a line is no digit. -/
theorem isDecimalDigit_last_of_line (hbase : cs = line ++ ['\n']) :
    ∀ c ∈ cs.getLast?, Text.isDecimalDigit c = false := by
  intro c hc
  rw [hbase, List.getLast?_concat, Option.mem_some_iff] at hc
  rw [← hc]
  decide

/-- **A line feed at the end stays**, and the number goes that stands before it. -/
theorem toList_stem_of_line (hbase : base.toList = line ++ ['\n']) :
    (stem base).toList = dropDigits line ++ ['\n'] := by
  have hdrop : dropNumber base.toList = dropDigits line ++ ['\n'] := by
    rw [dropNumber, hbase, if_pos (by simp), List.dropLast_concat]
  simp [stem, hdrop]

theorem isStem_stem_of_no_line (hlast : base.toList.getLast? ≠ some '\n') :
    IsStem base (stem base) := by
  have hdrop : dropNumber base.toList = dropDigits base.toList := if_neg hlast
  have hcut := unnumbered_dropDigits base.toList
  simp only [stem, hdrop]
  split
  · rename_i hempty
    rw [List.isEmpty_iff.1 hempty] at hcut
    exact .whole hcut
  · rename_i hleft
    refine .cut ?_ (by rwa [String.toList_ofList])
    intro hnil
    exact hleft (by simpa using congrArg String.toList hnil)

/-- **The stem is what it is meant to be**, unless the name is a numbered line. -/
theorem isStem_stem (h : ¬ NumberedLine base) : IsStem base (stem base) := by
  by_cases hfeed : base.toList.getLast? = some '\n'
  · obtain ⟨line, hbase⟩ := List.getLast?_eq_some_iff.1 hfeed
    have hdrop : dropDigits line = line := by
      refine (unnumbered_dropDigits line).eq_self fun c hc => ?_
      obtain ⟨before, rfl⟩ := List.getLast?_eq_some_iff.1 hc
      by_contra hdigit
      exact h ⟨before, c, Bool.eq_true_of_not_eq_false hdigit, by simp [hbase]⟩
    have hself : stem base = base := by
      apply String.toList_injective
      rw [toList_stem_of_line hbase, hdrop, hbase]
    rw [hself]
    refine .cut ?_ (unnumbered_self (isDecimalDigit_last_of_line hbase))
    rintro rfl
    simp at hbase
  · exact isStem_stem_of_no_line hfeed

/-- The stem of a numbered line is shorter than the line. -/
theorem stem_ne_of_digit {digit : Char} (hdigit : Text.isDecimalDigit digit = true)
    (hbase : base.toList = (line ++ [digit]) ++ ['\n']) : stem base ≠ base := by
  intro hself
  have hdrop : dropDigits (line ++ [digit]) = dropDigits line :=
    List.rdropWhile_concat_pos Text.isDecimalDigit line digit hdigit
  have hle : (dropDigits line).length ≤ line.length := (List.rdropWhile_prefix _ _).length_le
  have hlength := congrArg List.length (toList_stem_of_line hbase)
  rw [hself, hbase, hdrop] at hlength
  simp only [List.length_append, List.length_cons, List.length_nil] at hlength
  omega

/-! ## Numbers -/

/-- **The number that goes with a stem**: the search from 1 on ends, at the least
number that gives a name not to be avoided, and it does not go far. -/
structure LeastNumber (stem : String) (avoid : List String) (k : Nat) : Prop where
  ends : Search stem avoid 1 k
  least : IsLeast {j | 1 ≤ j ∧ numbered stem j ∉ avoid} k
  le_card : k ≤ avoid.toFinset.card + 1

/-- **A fresh name takes the number that goes with its stem.** -/
theorem exists_leastNumber (base : String) (avoid : List String) :
    ∃ k, LeastNumber (stem base) avoid k ∧ name base avoid = numbered (stem base) k := by
  have hsearch := search_name base avoid
  have hleast := hsearch.isLeast
  obtain ⟨k, hk, hle, hfree⟩ := exists_free (stem base) avoid 1
  have hbound := hleast.2 ⟨hk, hfree⟩
  exact ⟨_, ⟨hsearch, hleast, by omega⟩, rfl⟩

theorem oneLine_repr (k : Nat) : Text.oneLine (Nat.repr k) = true := by
  refine List.all_eq_true.2 fun c hc => ?_
  have hdigit : c.isDigit = true := isDigit_of_mem_repr hc
  rw [Bool.and_eq_true, bne_iff_ne, bne_iff_ne]
  exact ⟨Token.ne_of_class hdigit _ (by decide), Token.ne_of_class hdigit _ (by decide)⟩

/-- **A stem that is a line can be told from the numbered name**: the number is what
follows the last line feed. -/
theorem eq_of_numbered_eq {s' : String} {line' : List Char} {j k : Nat}
    (hs : s.toList = line ++ ['\n']) (hs' : s'.toList = line' ++ ['\n'])
    (h : numbered s j = numbered s' k) : s = s' := by
  have hchars : s.toList ++ (Nat.repr j).toList = s'.toList ++ (Nat.repr k).toList := by
    simpa only [numbered, String.toList_append] using congrArg String.toList h
  have hnumber : Nat.repr j = Nat.repr k := by
    rw [hs, hs', List.append_assoc, List.append_assoc] at hchars
    exact Text.eq_of_last_line (oneLine_repr j) (oneLine_repr k) hchars
  rw [hnumber] at hchars
  exact String.toList_injective (List.append_cancel_right hchars)

/-- **A fresh name is what it is meant to be**, its stem with the number that goes with
it, exactly if it is not made from a numbered line. -/
theorem name_meant_iff (avoid : List String) :
    (∃ s k, IsStem base s ∧ LeastNumber s avoid k ∧ name base avoid = numbered s k) ↔
      ¬ NumberedLine base := by
  constructor
  · rintro ⟨s, k, hs, -, hname⟩ ⟨line, digit, hdigit, hbase⟩
    have hline : base.toList = (line ++ [digit]) ++ ['\n'] := by simp [hbase]
    obtain rfl : s = base := hs.eq_self (isDecimalDigit_last_of_line hline)
    -- both stems end in the line feed, so the names differ where the stems do
    exact stem_ne_of_digit hdigit hline (eq_of_numbered_eq (toList_stem_of_line hline) hline hname)
  · intro hplain
    obtain ⟨k, hk, hname⟩ := exists_leastNumber base avoid
    exact ⟨stem base, k, isStem_stem hplain, hk, hname⟩

end Fresh

namespace Term

variable {t body replacement : Term} {x y name : String}

/-! ## Binders that give way -/

theorem replaceName_of_not_mem (h : x ∉ t.freeVars) : t.replaceName x y = t := by
  induction t with
  | var z =>
    rw [mem_freeVars_var] at h
    exact if_neg fun hz => h hz.symm
  | lam z a body ih =>
    rw [replaceName]
    split
    · rfl
    · rename_i hz
      rw [mem_freeVars_lam] at h
      rw [ih fun hx => h ⟨hx, fun hxz => hz hxz.symm⟩]
  | app fn arg ihf iha =>
    rw [mem_freeVars_app, not_or] at h
    rw [replaceName, ihf h.1, iha h.2]

/-- **Renaming to a name that is not bound is plain replacement**: no binder is in
its way. -/
theorem subst_var_eq_replaceName (h : y ∉ t.boundVars) :
    t.subst x (var y) = t.replaceName x y := by
  induction t with
  | var z => rw [subst, replaceName]
  | lam z a body ih =>
    simp only [boundVars, List.mem_cons, not_or] at h
    rw [subst]
    split
    · rename_i hstop
      rcases hstop with hz | hx
      · rw [replaceName, if_pos hz]
      · exact (replaceName_of_not_mem fun hx' => hx (mem_freeVars_lam.1 hx').1).symm
    · rename_i hgo
      have hz : z ∉ (var y).freeVars := fun hz => h.1 (mem_freeVars_var.1 hz).symm
      rw [if_neg hz, replaceName, if_neg fun hzx => hgo (.inl hzx), ih h.2]
  | app fn arg ihf iha =>
    simp only [boundVars, List.mem_append, not_or] at h
    rw [subst, replaceName, ihf h.1, iha h.2]

/-- **What the new name of a binder must not be**, where `x` gives way in an
abstraction over `body` and `replacement` is put in for `name`. -/
structure NewBinder (x name : String) (body replacement : Term) (y : String) : Prop where
  ne_name : y ≠ name
  ne_binder : y ≠ x
  not_free : y ∉ body.freeVars
  not_bound : y ∉ body.boundVars
  not_free_replacement : y ∉ replacement.freeVars

/-- **The new name is none of these** whenever the binder has to give way. -/
theorem newBinder_freshBinder (hname : name ∈ body.freeVars) (hx : x ∈ replacement.freeVars) :
    NewBinder x name body replacement (freshBinder x body replacement) where
  ne_name h := freshBinder_not_mem_freeVars (h ▸ hname)
  ne_binder h := freshBinder_not_mem_replacement (h.symm ▸ hx)
  not_free := freshBinder_not_mem_freeVars
  not_bound := freshBinder_not_mem_boundVars
  not_free_replacement := freshBinder_not_mem_replacement

/-- Where a binder gives way, the abstraction is renamed and then substituted in. -/
theorem subst_lam_of_capture (hne : x ≠ name) (hname : name ∈ body.freeVars)
    (hx : x ∈ replacement.freeVars) (a : Option Ty) :
    (lam x a body).subst name replacement =
      lam (freshBinder x body replacement) a
        ((body.subst x (var (freshBinder x body replacement))).subst name replacement) := by
  rw [subst_var_eq_replaceName freshBinder_not_mem_boundVars, subst,
    if_neg (not_or.2 ⟨hne, not_not.2 hname⟩), if_pos hx]

/-- **A fresh name takes the least number**, and it is fresh for what it is made for.

The search from 1 on ends, at the least number that makes of the stem a name not
to be avoided, which is at most one more than there are different names to avoid.
With the stem that is meant, the name without the digits at its end or all of a
name that is digits only, this holds exactly if the name is no numbered line; of
a name with a line feed at its end, the stem is the line without its number and
then the line feed.

Where a binder gives way to a replacement, it takes the fresh name made from it
and the names of the replacement and the body, and this name is neither the
replaced name nor the old binder, nor free or bound in the body, nor free in the
replacement. -/
theorem fresh_name_takes_least (base : String) (avoid : List String) :
    ((∃ s k, Fresh.IsStem base s ∧ Fresh.LeastNumber s avoid k ∧
        Fresh.name base avoid = Fresh.numbered s k) ↔ ¬ Fresh.NumberedLine base) ∧
    (∃ k, Fresh.LeastNumber (Fresh.stem base) avoid k ∧
      Fresh.name base avoid = Fresh.numbered (Fresh.stem base) k) ∧
    (∀ line, base.toList = line ++ ['\n'] →
      ∃ cut, Fresh.Unnumbered line cut ∧ (Fresh.stem base).toList = cut ++ ['\n']) ∧
    ∀ (x name : String) (a : Option Ty) (body replacement : Term),
      x ≠ name → name ∈ body.freeVars → x ∈ replacement.freeVars →
      ∃ y, y = Fresh.name x (replacement.freeVars ++ body.freeVars ++ body.boundVars) ∧
        (lam x a body).subst name replacement =
          lam y a ((body.subst x (var y)).subst name replacement) ∧
        NewBinder x name body replacement y := by
  refine ⟨Fresh.name_meant_iff avoid, Fresh.exists_leastNumber base avoid, ?_, ?_⟩
  · intro line hline
    exact ⟨_, Fresh.unnumbered_dropDigits line, Fresh.toList_stem_of_line hline⟩
  · intro x name a body replacement hne hname hx
    exact ⟨_, rfl, subst_lam_of_capture hne hname hx a, newBinder_freshBinder hname hx⟩

/-- A number in another script is dropped, and the two different names to avoid take
the first two numbers; a line of digits leaves its line feed; the binder `y`, in
the way of a replacement with `y` and `y1`, passes these and the bound `y2`. -/
theorem fresh_name_takes_least_third :
    let avoid := ["y1", "y2", "y1"]
    let body : Term := lam "y2" none (app (var "x") (var "y"))
    let replacement : Term := app (var "y") (var "y1")
    (∃ s k, Fresh.IsStem "y٣" s ∧ Fresh.LeastNumber s avoid k ∧ Fresh.numbered s k = "y3") ∧
    (∃ cut, Fresh.Unnumbered ['1', '2'] cut ∧ (Fresh.stem "12\n").toList = cut ++ ['\n']) ∧
    "y" ≠ "x" ∧ "x" ∈ body.freeVars ∧ "y" ∈ replacement.freeVars ∧
      NewBinder "y" "x" body replacement "y3" := by
  intro avoid body replacement
  obtain ⟨hmeant, -, -, hbinder⟩ := fresh_name_takes_least "y٣" avoid
  obtain ⟨-, -, hline, -⟩ := fresh_name_takes_least "12\n" avoid
  have hname : Fresh.name "y٣" avoid = "y3" := by decide +kernel
  have hplain : ¬ Fresh.NumberedLine "y٣" := by
    rintro ⟨line, digit, -, h⟩
    have hlast := congrArg List.getLast? h
    simp at hlast
  obtain ⟨s, k, hs, hk, hsk⟩ := hmeant.2 hplain
  have hx : "x" ∈ body.freeVars := by decide
  have hy : "y" ∈ replacement.freeVars := by decide
  obtain ⟨y, hfresh, -, hnew⟩ := hbinder "y" "x" none body replacement (by decide) hx hy
  have hthree : y = "y3" := hfresh.trans (by decide +kernel)
  exact ⟨⟨s, k, hs, hk, hsk.symm.trans hname⟩, hline _ (by decide), by decide, hx, hy,
    hthree ▸ hnew⟩

/-- **A number before a line feed is dropped although it does not end the name**: with
no stem that `x1` and a line feed may have is the fresh name what it is meant to
be. -/
theorem fresh_name_of_numbered_line :
    Fresh.name "x1\n" [] = "x\n1" ∧
      ∀ s k, Fresh.IsStem "x1\n" s → Fresh.name "x1\n" [] ≠ Fresh.numbered s k := by
  have hname : Fresh.name "x1\n" [] = "x\n1" := by decide +kernel
  refine ⟨hname, fun s k hs h => ?_⟩
  have hline : "x1\n".toList = ['x', '1'] ++ ['\n'] := by decide
  obtain rfl : s = "x1\n" := hs.eq_self (Fresh.isDecimalDigit_last_of_line hline)
  -- the second character is the digit on one side and the line feed on the other
  have hsecond := congrArg (fun name => name.toList[1]?) (hname.symm.trans h)
  simp [Fresh.numbered] at hsecond

end Term

end LambdaShell
