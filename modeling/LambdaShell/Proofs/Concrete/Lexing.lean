import LambdaShell.Proofs.Concrete.Scanning

/-!
# Concrete syntax — the lexical rules

How a text divides into tokens, said without a scanner. `Token.Spelling`
lists the spellings of each token, and `Scan.Lexes` goes through a text from
its beginning: blanks and comments are passed over, a token is taken with
its place, a name only where it cannot go on, and a character with which
none of these begins is illegal and ends the text.

The rules leave no choice, and the scan of a text is what they say of it
(`lexes_iff`).
-/

namespace LambdaShell

/-- **The spellings of a token.** -/
inductive Token.Spelling : List Char → Token → Prop where
  | name {x : String} (h : Token.isName x = true) : Spelling x.toList (.ident x)
  | lambda : Spelling ['λ'] .lambda
  | backslash : Spelling ['\\'] .lambda
  | dot : Spelling ['.'] .dot
  | colon : Spelling [':'] .colon
  | arrow : Spelling ['-', '>'] .arrow
  | arrowSign : Spelling ['→'] .arrow
  | equals : Spelling ['='] .equals
  | semicolon : Spelling [';'] .semicolon
  | lparen : Spelling ['('] .lparen
  | rparen : Spelling [')'] .rparen

/-- A mark is no name. -/
theorem Token.ofChar?_ne_ident (c : Char) (x : String) : ofChar? c ≠ some (.ident x) := by
  unfold ofChar?
  repeat' (split; · simp)
  simp

namespace Scan

open Token (Spelling)

/-- **The lexical rules**: what the characters, of which the first has the given
position, divide into. -/
inductive Lexes : Nat → List Char → Scan → Prop where
  /-- The text is at its end. -/
  | done (position : Nat) : Lexes position [] ⟨[], none⟩
  /-- A blank is passed over. -/
  | blank {position : Nat} {c : Char} {rest : List Char} {scan : Scan} :
      Token.isLayout c = true → Lexes (position + 1) rest scan → Lexes position (c :: rest) scan
  /-- A comment is passed over, up to the end of its line. -/
  | comment {position : Nat} {text rest : List Char} {scan : Scan} :
      '\n' ∉ text → (∀ c ∈ rest.head?, c = '\n') → Lexes (position + 1 + text.length) rest scan →
        Lexes position ('#' :: (text ++ rest)) scan
  /-- A token is taken, and a name is not followed by what could continue it. -/
  | token {position : Nat} {word rest : List Char} {token : Token} {scan : Scan} :
      Spelling word token → (∀ x, token = .ident x → Boundary rest) →
        Lexes (position + word.length) rest scan →
          Lexes position (word ++ rest) (push token position word.length scan)
  /-- Nothing begins with this character. -/
  | illegal {position : Nat} {c : Char} {rest : List Char} :
      Token.isLayout c = false → c ≠ '#' →
        (∀ word token after, Spelling word token → c :: rest ≠ word ++ after) →
          Lexes position (c :: rest) ⟨[], some (position, c)⟩

/-! ## The scan follows the rules -/

section Equations

variable {position : Nat} {rest : List Char}

theorem ofChars_comment {text : List Char} (htext : '\n' ∉ text)
    (hrest : ∀ c ∈ rest.head?, c = '\n') :
    ofChars position ('#' :: (text ++ rest)) = ofChars (position + 1 + text.length) rest := by
  have hline : ∀ c ∈ text, decide (c ≠ '\n') = true := by
    intro c hc
    have hne : c ≠ '\n' := by
      rintro rfl
      exact htext hc
    simpa using hne
  have htake : rest.takeWhile (· ≠ '\n') = [] := by
    cases rest with
    | nil => rfl
    | cons c cs => simp [hrest c rfl]
  have hdrop : rest.dropWhile (· ≠ '\n') = rest := by
    cases rest with
    | nil => rfl
    | cons c cs => simp [hrest c rfl]
  rw [ofChars.eq_3 _ _ _ fun _ e _ => absurd e (by decide), if_neg (by decide), if_pos rfl,
    List.takeWhile_append_of_pos hline, List.dropWhile_append_of_pos hline, htake, hdrop,
    List.append_nil]

/-- A token is spelled by a name, by one character, or by the two of an arrow. -/
theorem spelling_cases {word : List Char} {token : Token} (h : Spelling word token) :
    (∃ x, Token.isName x = true ∧ word = x.toList ∧ token = .ident x) ∨
      (∃ c, word = [c] ∧ Token.ofChar? c = some token) ∨
      word = ['-', '>'] ∧ token = .arrow := by
  cases h with
  | name hname => exact .inl ⟨_, hname, rfl, rfl⟩
  | arrow => exact .inr (.inr ⟨rfl, rfl⟩)
  | _ => exact .inr (.inl ⟨_, rfl, rfl⟩)

theorem ofChars_token {word : List Char} {token : Token} (h : Spelling word token)
    (hb : ∀ x, token = .ident x → Boundary rest) :
    ofChars position (word ++ rest) =
      push token position word.length (ofChars (position + word.length) rest) := by
  rcases spelling_cases h with ⟨x, hx, rfl, rfl⟩ | ⟨c, rfl, hc⟩ | ⟨rfl, rfl⟩
  · exact ofChars_name hx (hb x rfl)
  · exact ofChars_mark hc
  · exact ofChars.eq_2 position rest

end Equations

/-- The marks of one character are spelled by it. -/
theorem spelling_of_ofChar? {c : Char} {token : Token} (h : Token.ofChar? c = some token) :
    Spelling [c] token := by
  simp only [Token.ofChar?] at h
  split at h
  · rename_i hc
    cases h
    rcases hc with rfl | rfl
    · exact .lambda
    · exact .backslash
  repeat' (split at h; · rename_i hc; cases h; subst hc; constructor)
  cases h

/-- A character that can start a name spells one. -/
theorem spelling_of_isNameStart {c : Char} {cs : List Char} (hc : Token.isNameStart c = true)
    (hcs : ∀ d ∈ cs, Token.isNameChar d = true) :
    Spelling (c :: cs) (.ident (String.ofList (c :: cs))) := by
  have hname : Token.isName (String.ofList (c :: cs)) = true := by
    simpa [Token.isName, hc] using hcs
  simpa using Spelling.name hname

/-- **No token is spelled at the beginning** of characters that begin with no name,
mark or arrow. -/
theorem not_spelled {c : Char} {rest : List Char} (hname : Token.isNameStart c = false)
    (hmark : Token.ofChar? c = none) (harrow : ∀ after, c :: rest ≠ '-' :: '>' :: after)
    {word after : List Char} {token : Token} (h : Spelling word token) :
    c :: rest ≠ word ++ after := by
  intro heq
  rcases spelling_cases h with ⟨x, hx, rfl, rfl⟩ | ⟨d, rfl, hd⟩ | ⟨rfl, rfl⟩
  · -- the name begins with a character that can start one, and that is `c`
    unfold Token.isName at hx
    cases hcs : x.toList with
    | nil => rw [hcs] at hx; cases hx
    | cons d ds =>
      rw [hcs] at hx heq
      simp only [Bool.and_eq_true] at hx
      obtain ⟨rfl, -⟩ := List.cons.inj heq
      rw [hname] at hx
      cases hx.1
  · obtain ⟨rfl, -⟩ := List.cons.inj heq
    rw [hmark] at hd
    cases hd
  · exact harrow after heq

/-- What is left after the longest part of a kind does not begin with that kind. -/
theorem head_dropWhile {p : Char → Bool} {cs : List Char} :
    ∀ c ∈ (cs.dropWhile p).head?, p c = false := by
  intro c hc
  have hhead := List.head?_dropWhile_not p cs
  rw [Option.mem_def.1 hc] at hhead
  exact hhead

/-- **The scan obeys the rules.** -/
theorem lexes_ofChars (position : Nat) (cs : List Char) :
    Lexes position cs (ofChars position cs) := by
  fun_induction ofChars position cs with
  | case1 position => exact .done position
  | case2 position rest ih => exact .token .arrow (fun x e => by cases e) ih
  | case3 position c rest _ hlayout ih => exact .blank hlayout ih
  | case4 position rest _ _ ih =>
    have hline : '\n' ∉ rest.takeWhile (· ≠ '\n') := by
      intro hmem
      simpa using List.all_eq_true.1 List.all_takeWhile _ hmem
    have hend : ∀ c ∈ (rest.dropWhile (· ≠ '\n')).head?, c = '\n' := by
      intro c hc
      simpa using head_dropWhile c hc
    have hlexes := Lexes.comment hline hend ih
    rwa [List.takeWhile_append_dropWhile] at hlexes
  | case5 position c rest _ _ _ hname word ih =>
    have hword : Spelling word (.ident (String.ofList word)) :=
      spelling_of_isNameStart hname (List.all_eq_true.1 List.all_takeWhile)
    have hlexes := Lexes.token hword (fun _ _ => head_dropWhile) ih
    rwa [List.cons_append, List.takeWhile_append_dropWhile] at hlexes
  | case6 position c rest _ _ _ hname token hmark ih =>
    have hident : ∀ x, token = .ident x → Boundary rest := by
      rintro x rfl
      exact absurd hmark (Token.ofChar?_ne_ident c x)
    exact .token (spelling_of_ofChar? hmark) hident ih
  | case7 position c rest hne hlayout hcomment hname hmark =>
    refine .illegal (by simpa using hlayout) hcomment fun word token after hspelling => ?_
    refine not_spelled (by simpa using hname) hmark ?_ hspelling
    intro after' heq
    obtain ⟨rfl, hrest⟩ := List.cons.inj heq
    exact hne after' rfl hrest

theorem Lexes.ofChars_eq {position : Nat} {cs : List Char} {scan : Scan}
    (h : Lexes position cs scan) : ofChars position cs = scan := by
  induction h with
  | done position => exact ofChars.eq_1 position
  | blank hlayout _ ih => rw [ofChars_layout hlayout, ih]
  | comment htext hrest _ ih => rw [ofChars_comment htext hrest, ih]
  | token hspelling hb _ ih => rw [ofChars_token hspelling hb, ih]
  | @illegal position c rest hlayout hcomment hnone =>
    have hdash : ∀ after, c = '-' → rest = '>' :: after → False := by
      rintro after rfl rfl
      exact hnone _ _ after .arrow rfl
    have hname : ¬ Token.isNameStart c = true := fun hc =>
      hnone [c] _ rest (spelling_of_isNameStart hc (by simp)) rfl
    have hmark : Token.ofChar? c = none := by
      cases hc : Token.ofChar? c with
      | none => rfl
      | some token => exact absurd rfl (hnone [c] token rest (spelling_of_ofChar? hc))
    rw [ofChars.eq_3 _ _ _ hdash, if_neg (by simp [hlayout]), if_neg hcomment, if_neg hname, hmark]

/-- **The scan of characters is what the rules say of them**, and they say one
thing only. -/
theorem lexes_iff {position : Nat} {cs : List Char} {scan : Scan} :
    Lexes position cs scan ↔ ofChars position cs = scan := by
  constructor
  · exact Lexes.ofChars_eq
  · rintro rfl
    exact lexes_ofChars position cs

/-! ## Places -/

/-- **The span of a token is the place of its spelling.** -/
theorem Lexes.span_eq {position : Nat} {cs : List Char} {scan : Scan}
    (h : Lexes position cs scan) : ∀ t ∈ scan.tokens, ∃ before word after,
      cs = before ++ (word ++ after) ∧ Spelling word t.token ∧
        t.span = ⟨position + before.length, position + before.length + word.length⟩ := by
  induction h with
  | done position => simp
  | @blank position c rest scan _ _ ih =>
    intro t ht
    obtain ⟨before, word, after, rfl, hword, hspan⟩ := ih t ht
    refine ⟨c :: before, word, after, rfl, hword, ?_⟩
    rw [hspan, List.length_cons]
    congr 1 <;> omega
  | @comment position text rest scan _ _ _ ih =>
    intro t ht
    obtain ⟨before, word, after, rfl, hword, hspan⟩ := ih t ht
    refine ⟨'#' :: (text ++ before), word, after, by simp, hword, ?_⟩
    rw [hspan, List.length_cons, List.length_append]
    congr 1 <;> omega
  | @token position word rest token scan hspelling _ _ ih =>
    intro t ht
    rcases List.mem_cons.1 ht with rfl | ht
    · exact ⟨[], word, rest, rfl, hspelling, rfl⟩
    · obtain ⟨before, word', after, rfl, hword, hspan⟩ := ih t ht
      refine ⟨word ++ before, word', after, by simp, hword, ?_⟩
      rw [hspan, List.length_append]
      congr 1 <;> omega
  | illegal => simp

/-- The place of the illegal character. -/
theorem Lexes.illegal_eq {position : Nat} {cs : List Char} {scan : Scan}
    (h : Lexes position cs scan) {place : Nat} {c : Char} (hc : scan.illegal = some (place, c)) :
    ∃ before after, cs = before ++ c :: after ∧ place = position + before.length := by
  induction h with
  | done position => cases hc
  | @blank position d rest scan _ _ ih =>
    obtain ⟨before, after, rfl, rfl⟩ := ih hc
    exact ⟨d :: before, after, rfl, by rw [List.length_cons]; omega⟩
  | @comment position text rest scan _ _ _ ih =>
    obtain ⟨before, after, rfl, rfl⟩ := ih hc
    refine ⟨'#' :: (text ++ before), after, by simp, ?_⟩
    rw [List.length_cons, List.length_append]
    omega
  | @token position word rest token scan _ _ _ ih =>
    obtain ⟨before, after, rfl, rfl⟩ := ih hc
    refine ⟨word ++ before, after, by simp, ?_⟩
    rw [List.length_append]
    omega
  | illegal => cases hc; exact ⟨[], _, rfl, rfl⟩

end Scan

end LambdaShell
