import LambdaShell.Concrete.Reader

/-!
# Concrete syntax — what a scan sees

A scan is given by what it does with the beginning of a text: it skips a
blank, takes a mark, an arrow or a whole name, and goes on with the rest.
One equation for each of these is proved here, and everything else about
scanning is read off them. A name is the delicate one: it is taken whole
only where the rest does not continue it, which is what `Boundary` says.

`Scans` forgets the places of the tokens. A reader does not look at them
unless it fails, so a text is read exactly when its tokens are taken one
after another and leave a complete state (`read_eq_ok_iff`).
-/

namespace LambdaShell

namespace Token

/-! ## Characters -/

/-- A mark is neither a blank, nor the beginning of a comment, nor of a name. -/
theorem classes_of_ofChar? {c : Char} {token : Token} (h : ofChar? c = some token) :
    isLayout c = false ∧ c ≠ '#' ∧ c ≠ '-' ∧ isNameStart c = false := by
  simp only [ofChar?] at h
  split at h
  · rename_i hc
    rcases hc with rfl | rfl <;> decide
  · repeat' (split at h; · rename_i hc; subst hc; decide)
    cases h

/-- A character of a class is none of the characters that are not in it. -/
theorem ne_of_class {p : Char → Bool} {c : Char} (hc : p c = true) (d : Char) (hd : p d = false) :
    c ≠ d := by
  rintro rfl
  rw [hc] at hd
  cases hd

/-- A name starts neither a comment nor an arrow and is no blank. -/
theorem classes_of_isNameStart {c : Char} (h : isNameStart c = true) :
    isLayout c = false ∧ c ≠ '#' ∧ c ≠ '-' := by
  have hne := ne_of_class h
  refine ⟨?_, hne '#' (by decide), hne '-' (by decide)⟩
  simp only [isLayout, Bool.or_eq_false_iff, beq_eq_false_iff_ne]
  exact ⟨⟨⟨hne ' ' (by decide), hne '\t' (by decide)⟩, hne '\r' (by decide)⟩,
    hne '\n' (by decide)⟩

/-- The characters of a name of the language. -/
theorem isName_iff {s : String} :
    isName s = true ↔
      ∃ c cs, s.toList = c :: cs ∧ isNameStart c = true ∧ cs.all isNameChar = true := by
  unfold isName
  cases hs : s.toList with
  | nil => simp
  | cons c cs =>
    simp only [Bool.and_eq_true]
    constructor
    · intro h
      exact ⟨c, cs, rfl, h⟩
    · rintro ⟨c', cs', heq, h⟩
      cases heq
      exact h

theorem isNameChar_of_isNameStart {c : Char} (h : isNameStart c = true) : isNameChar c = true := by
  simp only [isNameStart, Bool.or_eq_true] at h
  simp only [isNameChar, Char.isAlphanum, Bool.or_eq_true]
  exact .inl (h.imp .inl id)

theorem isNameChar_of_isName {x : String} (h : isName x = true) {c : Char}
    (hc : c ∈ x.toList) : isNameChar c = true := by
  obtain ⟨first, rest, hx, hfirst, hrest⟩ := isName_iff.1 h
  rw [hx] at hc
  rcases List.mem_cons.1 hc with rfl | hc
  · exact isNameChar_of_isNameStart hfirst
  · exact List.all_eq_true.1 hrest c hc

end Token

namespace Scan

/-- **The end of a name**: the characters do not begin with one that could
continue it. -/
def Boundary (cs : List Char) : Prop := ∀ c ∈ cs.head?, Token.isNameChar c = false

@[simp] theorem boundary_nil : Boundary [] := by simp [Boundary]

@[simp] theorem boundary_cons {c : Char} {cs : List Char} :
    Boundary (c :: cs) ↔ Token.isNameChar c = false := by simp [Boundary]

theorem takeWhile_of_boundary {cs : List Char} (h : Boundary cs) :
    cs.takeWhile Token.isNameChar = [] := by
  cases cs with
  | nil => rfl
  | cons c cs => exact List.takeWhile_cons_of_neg (by simpa using h)

theorem dropWhile_of_boundary {cs : List Char} (h : Boundary cs) :
    cs.dropWhile Token.isNameChar = cs := by
  cases cs with
  | nil => rfl
  | cons c cs => exact List.dropWhile_cons_of_neg (by simpa using h)

/-! ## The scan, by the beginning of the text -/

section Equations

variable {position : Nat} {rest : List Char}

theorem ofChars_layout {c : Char} (h : Token.isLayout c = true) :
    ofChars position (c :: rest) = ofChars (position + 1) rest := by
  have hc : c ≠ '-' := by rintro rfl; cases h
  rw [ofChars.eq_3 _ _ _ fun _ e _ => hc e, if_pos h]

theorem ofChars_mark {c : Char} {token : Token} (h : Token.ofChar? c = some token) :
    ofChars position (c :: rest) = push token position 1 (ofChars (position + 1) rest) := by
  obtain ⟨hl, hcomment, hdash, hn⟩ := Token.classes_of_ofChar? h
  rw [ofChars.eq_3 _ _ _ fun _ e _ => hdash e, if_neg (by simp [hl]), if_neg hcomment,
    if_neg (by simp [hn]), h]

/-- A name is scanned whole where it ends. -/
theorem ofChars_name {name : String} (hname : Token.isName name = true) (hb : Boundary rest) :
    ofChars position (name.toList ++ rest) =
      push (.ident name) position name.toList.length
        (ofChars (position + name.toList.length) rest) := by
  unfold Token.isName at hname
  cases hcs : name.toList with
  | nil => rw [hcs] at hname; cases hname
  | cons c cs =>
    rw [hcs] at hname
    simp only [Bool.and_eq_true, List.all_eq_true] at hname
    obtain ⟨hstart, hrest⟩ := hname
    obtain ⟨hl, hcomment, hdash⟩ := Token.classes_of_isNameStart hstart
    -- the word is cut where the name ends, as the rest does not continue it
    have htake : (cs ++ rest).takeWhile Token.isNameChar = cs := by
      rw [List.takeWhile_append_of_pos hrest, takeWhile_of_boundary hb, List.append_nil]
    have hdrop : (cs ++ rest).dropWhile Token.isNameChar = rest := by
      rw [List.dropWhile_append_of_pos hrest, dropWhile_of_boundary hb]
    have hword : String.ofList (c :: cs) = name := by rw [← hcs, String.ofList_toList]
    rw [List.cons_append, ofChars.eq_3 _ _ _ fun _ e _ => hdash e, if_neg (by simp [hl]),
      if_neg hcomment, if_pos hstart]
    simp only [htake, hdrop, hword]

end Equations

/-! ## The tokens of a text -/

/-- **The characters scan as the given tokens**, and nothing in them is illegal. -/
def Scans (cs : List Char) (tokens : List Token) : Prop :=
  ∀ position, (ofChars position cs).tokens.map Located.token = tokens ∧
    (ofChars position cs).illegal = none

section Scans

variable {cs : List Char} {tokens : List Token}

theorem scans_nil : Scans [] [] := by
  intro position
  simp [ofChars.eq_1]

/-- A token in front of a scan is one in front of its tokens. -/
theorem scans_of_push {cs' : List Char} {token : Token} (length : Nat) (h : Scans cs tokens)
    (heq : ∀ position, ofChars position cs' =
      push token position length (ofChars (position + length) cs)) :
    Scans cs' (token :: tokens) := by
  intro position
  obtain ⟨htokens, hillegal⟩ := h (position + length)
  rw [heq position]
  simp only [push, List.map_cons, htokens, hillegal, and_self]

theorem scans_layout {c : Char} (hc : Token.isLayout c = true) (h : Scans cs tokens) :
    Scans (c :: cs) tokens := by
  intro position
  rw [ofChars_layout hc]
  exact h (position + 1)

theorem scans_mark {c : Char} {token : Token} (hc : Token.ofChar? c = some token)
    (h : Scans cs tokens) : Scans (c :: cs) (token :: tokens) :=
  scans_of_push 1 h fun _ => ofChars_mark hc

theorem scans_arrow (h : Scans cs tokens) : Scans ('-' :: '>' :: cs) (.arrow :: tokens) :=
  scans_of_push 2 h fun position => ofChars.eq_2 position cs

theorem scans_name {name : String} (hname : Token.isName name = true) (hb : Boundary cs)
    (h : Scans cs tokens) : Scans (name.toList ++ cs) (.ident name :: tokens) :=
  scans_of_push name.toList.length h fun _ => ofChars_name hname hb

end Scans

/-! ## Texts that spell tokens

A text is put together from names and from separators, which are the marks
and blanks between them. A name has to be followed by a separator, and
nothing is asked of what follows a separator. -/

/-- **The text spells the tokens**, before anything that does not continue its
last name. -/
def Spells (text : String) (tokens : List Token) : Prop :=
  ∀ cs rest, Boundary cs → Scans cs rest → Scans (text.toList ++ cs) (tokens ++ rest)

/-- **The text separates names, and has the given tokens itself.** -/
structure Separates (text : String) (tokens : List Token) : Prop where
  boundary : ∀ cs, Boundary (text.toList ++ cs)
  scans : ∀ cs rest, Scans cs rest → Scans (text.toList ++ cs) (tokens ++ rest)

section Spelling

variable {text text' separator : String} {tokens tokens' marks : List Token}

theorem Spells.scans_toList (h : Spells text tokens) : Scans text.toList tokens := by
  simpa using h [] [] boundary_nil scans_nil

theorem spells_name {name : String} (h : Token.isName name = true) :
    Spells name [.ident name] := fun _ _ hb hs => scans_name h hb hs

/-- A separator may stand in front. -/
theorem Separates.spells_append (hm : Separates separator marks) (h : Spells text tokens) :
    Spells (separator ++ text) (marks ++ tokens) := by
  intro cs rest hb hs
  simpa using hm.scans _ _ (h cs rest hb hs)

/-- **Two texts with a separator between them** spell their tokens and its own. -/
theorem Spells.join (h : Spells text tokens) (hm : Separates separator marks)
    (h' : Spells text' tokens') :
    Spells (text ++ separator ++ text') (tokens ++ (marks ++ tokens')) := by
  intro cs rest hb hs
  have hrest := hm.scans _ _ (h' cs rest hb hs)
  simpa using h _ _ (hm.boundary _) hrest

theorem separates_blank : Separates " " [] :=
  ⟨fun _ => boundary_cons.2 rfl, fun _ _ h => scans_layout rfl h⟩

theorem separates_colon : Separates ":" [.colon] :=
  ⟨fun _ => boundary_cons.2 rfl, fun _ _ h => scans_mark rfl h⟩

theorem separates_dot : Separates ". " [.dot] :=
  ⟨fun _ => boundary_cons.2 rfl, fun _ _ h => scans_mark rfl (scans_layout rfl h)⟩

theorem separates_arrow : Separates " -> " [.arrow] :=
  ⟨fun _ => boundary_cons.2 rfl,
    fun _ _ h => scans_layout rfl (scans_arrow (scans_layout rfl h))⟩

theorem separates_lambda : Separates "λ" [.lambda] :=
  ⟨fun _ => boundary_cons.2 rfl, fun _ _ h => scans_mark rfl h⟩

/-- **A text in parentheses** spells its tokens in parentheses. -/
theorem Spells.grouped (h : Spells text tokens) :
    Spells ("(" ++ text ++ ")") (.lparen :: (tokens ++ [.rparen])) := by
  intro cs rest _ hs
  have hclose : Scans (')' :: cs) (.rparen :: rest) := scans_mark rfl hs
  have hinside := h _ _ (boundary_cons.2 rfl) hclose
  simpa using scans_mark (c := '(') rfl hinside

end Spelling

end Scan

namespace Reader

open Scan (Scans)

variable {σ α : Type} (r : Reader σ α)

/-- **The state after the given tokens**, wherever they stood. -/
def run (state : σ) (tokens : List Token) : Option σ := tokens.foldlM r.step state

@[simp] theorem run_nil (state : σ) : r.run state [] = some state := rfl

@[simp] theorem run_cons (state : σ) (token : Token) (tokens : List Token) :
    r.run state (token :: tokens) = (r.step state token).bind (r.run · tokens) := rfl

theorem run_append (state : σ) (tokens tokens' : List Token) :
    r.run state (tokens ++ tokens') = (r.run state tokens).bind (r.run · tokens') :=
  List.foldlM_append

/-- Tokens with their places are taken exactly when they are taken without. -/
theorem feed_eq_ok_iff {state state' : σ} {located : List Located} :
    r.feed state located = .ok state' ↔ r.run state (located.map Located.token) = some state' := by
  induction located generalizing state with
  | nil => simp [feed]
  | cons t ts ih =>
    rw [feed, List.map_cons, run_cons]
    cases r.step state t.token with
    | none => simp
    | some next => exact ih

/-- **A text is read as a value exactly when it scans, its tokens are taken,
and they leave a state with that value.** -/
theorem read_eq_ok_iff {source : String} {value : α} :
    r.read source = .ok value ↔
      (Scan.ofText source).illegal = none ∧
        ∃ state, r.run r.start ((Scan.ofText source).tokens.map Located.token) = some state ∧
          r.result state = some value := by
  simp only [← feed_eq_ok_iff, read]
  -- the three ways to fail, in the order in which they are noticed
  cases r.feed r.start (Scan.ofText source).tokens with
  | error span => simp
  | ok state =>
    cases hillegal : (Scan.ofText source).illegal with
    | some place => simp
    | none => cases hresult : r.result state <;> simp [hresult]

/-- Reading, once the tokens are known. -/
theorem read_of_scans {source : String} {tokens : List Token} {state : σ} {value : α}
    (hscan : Scans source.toList tokens) (hrun : r.run r.start tokens = some state)
    (hresult : r.result state = some value) : r.read source = .ok value := by
  obtain ⟨htokens, hillegal⟩ := hscan 0
  exact r.read_eq_ok_iff.2 ⟨hillegal, state, by rw [Scan.ofText, htokens]; exact hrun, hresult⟩

end Reader

end LambdaShell
