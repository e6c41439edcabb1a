import LambdaShell.Proofs.Concrete.Lexing

/-!
# Concrete syntax — what it takes to recognize a language

A reader is compared with a language, a relation between lists of tokens and
values, in three respects: the values it gives are those of the language, it
gives all of them, and no state it can get into is a dead end
(`Reader.Recognizes`). The first is shown by an invariant that ties a state
to the tokens read so far (`value_sound`), and a run of one reader inside
another by a relation between their states (`run_simulates`).

From these three facts alone it follows what a reader answers to a text. In
particular it goes on as long as some sentence does (`viable_iff`), since a
state that is no dead end is one from which a sentence can be completed.
-/

namespace LambdaShell

namespace Reader

variable {σ σ' α β : Type} {r : Reader σ α} {r' : Reader σ' β}

/-- **The value of tokens**, read from a state on. -/
def valueFrom (r : Reader σ α) (state : σ) (tokens : List Token) : Option α :=
  (r.run state tokens).bind r.result

theorem valueFrom_eq_some_iff {state : σ} {tokens : List Token} {value : α} :
    r.valueFrom state tokens = some value ↔
      ∃ state', r.run state tokens = some state' ∧ r.result state' = some value :=
  Option.bind_eq_some_iff

theorem valueFrom_append (state : σ) (tokens more : List Token) :
    r.valueFrom state (tokens ++ more) =
      (r.run state tokens).bind (r.valueFrom · more) := by
  unfold valueFrom
  rw [run_append, Option.bind_assoc]

/-! ## Runs -/

theorem run_of_step {state state' : σ} {token : Token} (h : r.step state token = some state') :
    r.run state [token] = some state' := by
  rw [run_cons, h, Option.bind_some, run_nil]

/-- **An invariant of a run** ties the state to the tokens read so far. -/
theorem run_invariant {Read : List Token → σ → Prop}
    (hstep : ∀ {tokens state token state'}, Read tokens state →
      r.step state token = some state' → Read (tokens ++ [token]) state')
    {before tokens : List Token} {state state' : σ} (hread : Read before state)
    (hrun : r.run state tokens = some state') : Read (before ++ tokens) state' := by
  induction tokens generalizing before state with
  | nil =>
    cases hrun
    rwa [List.append_nil]
  | cons token tokens ih =>
    rw [run_cons] at hrun
    obtain ⟨next, hnext, hrest⟩ := Option.bind_eq_some_iff.1 hrun
    have hread' := ih (hstep hread hnext) hrest
    rwa [List.append_assoc] at hread'

/-- **One reader inside another.** If each step of the one is matched by a step of
the other, so is a run. -/
theorem run_simulates {Rel : σ → σ' → Prop}
    (hstep : ∀ {state state₁ token next}, Rel state state₁ → r.step state token = some next →
      ∃ next₁, r'.step state₁ token = some next₁ ∧ Rel next next₁)
    {tokens : List Token} {state next : σ} {state₁ : σ'} (hrel : Rel state state₁)
    (hrun : r.run state tokens = some next) :
    ∃ next₁, r'.run state₁ tokens = some next₁ ∧ Rel next next₁ := by
  induction tokens generalizing state state₁ with
  | nil =>
    cases hrun
    exact ⟨state₁, rfl, hrel⟩
  | cons token tokens ih =>
    rw [run_cons] at hrun
    obtain ⟨mid, hmid, hrest⟩ := Option.bind_eq_some_iff.1 hrun
    obtain ⟨mid₁, hmid₁, hrel'⟩ := hstep hrel hmid
    obtain ⟨next₁, hnext₁, hrel''⟩ := ih hrel' hrest
    exact ⟨next₁, by rw [run_cons, hmid₁, Option.bind_some, hnext₁], hrel''⟩

/-- Values that an invariant accounts for. -/
theorem value_sound {Read : List Token → σ → Prop} {Sentence : List Token → α → Prop}
    (hstart : Read [] r.start)
    (hstep : ∀ {tokens state token state'}, Read tokens state →
      r.step state token = some state' → Read (tokens ++ [token]) state')
    (hresult : ∀ {tokens state value}, Read tokens state → r.result state = some value →
      Sentence tokens value)
    {tokens : List Token} {value : α} (h : r.valueFrom r.start tokens = some value) :
    Sentence tokens value := by
  obtain ⟨state, hrun, hvalue⟩ := valueFrom_eq_some_iff.1 h
  exact hresult (run_invariant hstep hstart hrun) hvalue

/-! ## States that are no dead ends -/

/-- **Some tokens lead from the state to a value.** -/
def Live (r : Reader σ α) (state : σ) : Prop :=
  ∃ tokens value, r.valueFrom state tokens = some value

theorem live_of_result {state : σ} {value : α} (h : r.result state = some value) : r.Live state :=
  ⟨[], value, by rw [valueFrom, run_nil, Option.bind_some, h]⟩

theorem live_of_run {state state' : σ} {tokens : List Token}
    (hrun : r.run state tokens = some state') (h : r.Live state') : r.Live state := by
  obtain ⟨more, value, hvalue⟩ := h
  exact ⟨tokens ++ more, value, by rw [valueFrom_append, hrun, Option.bind_some, hvalue]⟩

theorem live_of_step {state state' : σ} {token : Token} (hstep : r.step state token = some state')
    (h : r.Live state') : r.Live state :=
  live_of_run (run_of_step hstep) h

/-! ## Languages -/

/-- **The reader recognizes the language.** -/
structure Recognizes (r : Reader σ α) (Sentence : List Token → α → Prop) : Prop where
  /-- The values read are values of the language. -/
  sound {tokens : List Token} {value : α} :
    r.valueFrom r.start tokens = some value → Sentence tokens value
  /-- All values of the language are read. -/
  complete {tokens : List Token} {value : α} :
    Sentence tokens value → r.valueFrom r.start tokens = some value
  /-- No state is a dead end. -/
  live (state : σ) : r.Live state

variable {Sentence : List Token → α → Prop}

/-- Tokens have one value at most in a language that a reader recognizes. -/
theorem Recognizes.value_unique (h : r.Recognizes Sentence) {tokens : List Token} {value value' : α}
    (hvalue : Sentence tokens value) (hvalue' : Sentence tokens value') : value = value' := by
  have heq := (h.complete hvalue).symm.trans (h.complete hvalue')
  exact Option.some.inj heq

/-- **The tokens are taken exactly as long as a sentence goes on with them.** -/
theorem Recognizes.viable_iff (h : r.Recognizes Sentence) {tokens : List Token} :
    (∃ more value, Sentence (tokens ++ more) value) ↔
      ∃ state, r.run r.start tokens = some state := by
  constructor
  · rintro ⟨more, value, hvalue⟩
    have hread := h.complete hvalue
    rw [valueFrom_append] at hread
    obtain ⟨state, hrun, -⟩ := Option.bind_eq_some_iff.1 hread
    exact ⟨state, hrun⟩
  · rintro ⟨state, hrun⟩
    obtain ⟨more, value, hvalue⟩ := h.live state
    exact ⟨more, value, h.sound (by rw [valueFrom_append, hrun, Option.bind_some, hvalue])⟩

/-- **A text is read as a value exactly when it lexes whole and its tokens have
that value in the language.** -/
theorem Recognizes.read_eq_ok_iff (h : r.Recognizes Sentence) {source : String} {value : α} :
    r.read source = .ok value ↔
      ∃ tokens : List Located, Scan.Lexes 0 source.toList ⟨tokens, none⟩ ∧
        Sentence (tokens.map Located.token) value := by
  rw [Reader.read_eq_ok_iff, ← valueFrom_eq_some_iff]
  constructor
  · rintro ⟨hillegal, hvalue⟩
    refine ⟨(Scan.ofText source).tokens, ?_, h.sound hvalue⟩
    rw [Scan.lexes_iff, ← hillegal]
    rfl
  · rintro ⟨tokens, hlexes, hvalue⟩
    have hscan : Scan.ofText source = ⟨tokens, none⟩ := hlexes.ofChars_eq
    rw [hscan]
    exact ⟨rfl, h.complete hvalue⟩

end Reader

end LambdaShell
