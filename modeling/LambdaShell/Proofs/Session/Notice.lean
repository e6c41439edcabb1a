import LambdaShell.Proofs.Typing.Normalization
import LambdaShell.Session.Basic

/-!
# Sessions — the notice of divergence

A session that checks types evaluates typed terms only, and these come to
an end; so it never tells its user that a term diverges. The lines that the
answer to a term can have are gone through function by function. Each of
them is told from the notice by its first two characters, which no name or
term that is shown has a part in.
-/

namespace LambdaShell

namespace Session

/-- **The notice** that a term diverges. -/
def divergenceNotice (s : Strategy) (t : Term) : String :=
  "The term '" ++ t.text ++ "' diverges using the " ++ s.name ++ " strategy."

/-- The first two characters of a line. -/
def opening (line : String) : List Char := line.toList.take 2

theorem opening_append {a : String} (h : 2 ≤ a.toList.length) (b : String) :
    opening (a ++ b) = opening a := by
  unfold opening
  rw [String.toList_append, List.take_append_of_le_length h]

/-- **A line that is no notice**: it has an opening, and another one. -/
structure Calm (line : String) : Prop where
  length : 2 ≤ line.toList.length
  opening : opening line ≠ ['T', 'h']

instance (line : String) : Decidable (Calm line) :=
  decidable_of_iff (2 ≤ line.toList.length ∧ opening line ≠ ['T', 'h'])
    ⟨fun h => ⟨h.1, h.2⟩, fun h => ⟨h.1, h.2⟩⟩

/-- What follows the opening does not matter. -/
theorem Calm.append {a : String} (h : Calm a) (b : String) : Calm (a ++ b) where
  length := by
    have := h.length
    rw [String.toList_append, List.length_append]
    omega
  opening := by
    rw [opening_append h.length]
    exact h.opening

theorem opening_divergenceNotice (s : Strategy) (t : Term) :
    opening (divergenceNotice s t) = ['T', 'h'] := by
  unfold divergenceNotice
  rw [String.append_assoc, String.append_assoc, String.append_assoc,
    opening_append (by decide +kernel)]
  decide +kernel

theorem Calm.ne_divergenceNotice {line : String} (h : Calm line) (s : Strategy) (t : Term) :
    line ≠ divergenceNotice s t := by
  rintro rfl
  exact h.opening (opening_divergenceNotice s t)

/-! ## The lines of an answer -/

theorem calm_syntaxFault (e : SyntaxFault) : Calm e.message := by
  cases e with
  | unexpectedToken => decide +kernel
  | unexpectedEnd => decide +kernel
  | unexpectedCharacter c => exact Calm.append (by decide +kernel) _

theorem calm_syntaxError (e : SyntaxError) : Calm e.message :=
  ((((((calm_syntaxFault e.fault).append _).append _).append _).append _).append _).append _

theorem calm_libraryError (e : LibraryError) : Calm e.message := by
  cases e with
  | unreadable name path e => exact ((Calm.append (by decide +kernel) _).append _).append _
  | corrupted path e => exact ((Calm.append (by decide +kernel) _).append _).append _
  | alreadyExists name => exact (Calm.append (by decide +kernel) _).append _
  | unwritable name path e => exact ((Calm.append (by decide +kernel) _).append _).append _

/-- What a failure reports is no notice. -/
theorem calm_message (f : Failure) : Calm f.message := by
  cases f with
  | unparsable e => exact calm_syntaxError e
  | library e => exact calm_libraryError e
  | expansion e =>
    cases e with
    | cyclic chain => exact Calm.append (by decide +kernel) _
    | tooDeep => decide +kernel
  | tooDeep => decide +kernel

/-- An outcome is shown without notice unless it is divergence. -/
theorem calm_outcomeLines (s : Session) {o : Evaluation.Outcome} (h : o.kind ≠ .diverges) :
    ∀ line ∈ s.outcomeLines o, Calm line := by
  -- the last term is shown unless every step was
  have hstep : ∀ line ∈ if s.settings.showSteps then [] else [s.stepLine o.term], Calm line := by
    intro line hline
    split at hline
    · cases hline
    · rw [List.mem_singleton.1 hline]
      exact Calm.append (by decide +kernel) _
  intro line hline
  unfold outcomeLines at hline
  cases hk : o.kind with
  | diverges => exact absurd hk h
  | unfinished => rw [hk] at hline; cases hline
  | normalForm =>
    rw [hk] at hline
    rcases List.mem_append.1 hline with hline | hline
    · exact hstep line hline
    · rw [List.mem_singleton.1 hline]
      decide +kernel
  | stepLimit =>
    rw [hk] at hline
    rcases List.mem_append.1 hline with hline | hline
    · exact hstep line hline
    · rw [List.mem_singleton.1 hline]
      exact (((Calm.append (by decide +kernel) _).append _).append _).append _
  | tooDeep =>
    rw [hk] at hline
    rw [List.mem_singleton.1 hline]
    exact (((Calm.append (by decide +kernel) _).append _).append _).append _

/-- **An evaluation that does not diverge** is shown without notice. -/
theorem calm_runTerm (host : Host) (s : Session) {t : Term}
    (h : (s.settings.strategy.evaluate host.limits s.settings.budget t).kind ≠ .diverges) :
    ∀ line ∈ (s.runTerm host t).lines, Calm line := by
  intro line hline
  rcases List.mem_append.1 hline with hline | hline
  · split at hline
    · obtain ⟨u, -, rfl⟩ := List.mem_map.1 hline
      exact Calm.append (by decide +kernel) _
    · cases hline
  · exact s.calm_outcomeLines h line hline

/-- With types checked, a term that is evaluated does not diverge. -/
theorem calm_checkAndRun (host : Host) (s : Session) (hs : s.settings.checkTypes = true)
    (t : Term) : ∀ line ∈ (s.checkAndRun host t).lines, Calm line := by
  intro line hline
  unfold checkAndRun at hline
  rw [hs, if_pos rfl] at hline
  -- what is reported of free names, of a fault and of a typed term, in this order
  by_cases hclosed : t.isClosed = true
  case neg =>
    rw [if_neg hclosed] at hline
    obtain ⟨i, -, rfl⟩ := List.mem_map.1 hline
    exact (Calm.append (by decide +kernel) _).append _
  rw [if_pos hclosed] at hline
  rcases hty : Typing.typeOf .empty t with e | ty <;> rw [hty] at hline
  · cases hline
  rcases ty with τ | reason
  · -- a typed term comes to an end, whatever the strategy
    obtain ⟨n, hn⟩ := s.settings.strategy.exists_iterate_eq_none (Typing.terminating_of_typeOf hty)
    have hkind := Strategy.kind_ne_diverges hn host.limits s.settings.budget
    exact s.calm_runTerm host hkind line hline
  · rw [List.mem_singleton.1 hline]
    exact Calm.append (by decide +kernel) _

theorem calm_enterTerm (host : Host) (s : Session) (hs : s.settings.checkTypes = true)
    (t : Term) : ∀ line ∈ (s.enterTerm host t).lines, Calm line := by
  intro line hline
  unfold enterTerm at hline
  split at hline
  · rcases List.mem_append.1 hline with hline | hline
    · rw [List.mem_singleton.1 hline]
      exact Calm.append (by decide +kernel) _
    · split at hline
      · cases hline
      · exact s.calm_checkAndRun host hs _ line hline
  · cases hline

/-- Reporting a failure adds no notice. -/
theorem calm_report {r : Reply} (h : ∀ line ∈ r.lines, Calm line) :
    ∀ line ∈ (report r).lines, Calm line := by
  intro line hline
  unfold report at hline
  split at hline
  · rcases List.mem_append.1 hline with hline | hline
    · exact h line hline
    · rw [List.mem_singleton.1 hline]
      exact calm_message _
  · exact h line hline

/-- **No line that enters a term is answered by a notice** when types are checked. -/
theorem calm_line (host : Host) {s : Session} (hs : s.settings.checkTypes = true)
    {text source : String} {t : Term} (htext : Input.parse text = .statement source)
    (hsource : Statement.parse source = .ok (.term t)) :
    ∀ line ∈ (s.line host text).lines, Calm line := by
  refine calm_report ?_
  rw [htext, perform, enter, hsource]
  exact s.calm_enterTerm host hs t

end Session

/-- **Well-typed terms always finish.** If the checker gives a term a simple type,
in whatever context, then every strategy can make a finite number of steps
from it only. So no evaluation of it diverges, and there is a number of
steps from which on every budget leads to a normal form, as does an
evaluation without a budget, unless a limit of nesting stops it. And a
session that checks types answers no term with the notice that it
diverges. -/
theorem typed_terms_finish :
    (∀ (ctx : Context) (t : Term) (τ : SimpleType), Typing.typeOf ctx t = .ok (.simple τ) →
      ∀ s : Strategy,
        (∃ n, s.iterate n t = none) ∧
        (∀ (limits : Limits) (budget : Option Int),
          (s.evaluate limits budget t).kind ≠ .diverges) ∧
        ∃ enough : Nat, ∀ (limits : Limits) (budget : Option Int),
          (budget = none ∧ enough ≤ limits.fuel ∨ ∃ b : Int, budget = some b ∧ enough ≤ b) →
            (s.evaluate limits budget t).kind = .normalForm ∨
              limits.depth ≠ none ∧ (s.evaluate limits budget t).kind = .tooDeep) ∧
    ∀ (host : Session.Host) (session : Session), session.settings.checkTypes = true →
      ∀ (text source : String) (t : Term), Session.Input.parse text = .statement source →
        Statement.parse source = .ok (.term t) →
          ∀ line ∈ (session.line host text).lines, ∀ (s : Strategy) (u : Term),
            line ≠ "The term '" ++ u.text ++ "' diverges using the " ++ s.name ++ " strategy." := by
  refine ⟨?_, ?_⟩
  · intro ctx t τ h s
    obtain ⟨n, hn⟩ := s.exists_iterate_eq_none (Typing.terminating_of_typeOf h)
    refine ⟨⟨n, hn⟩, Strategy.kind_ne_diverges hn, n, ?_⟩
    rintro limits budget (⟨rfl, hfuel⟩ | ⟨b, rfl, hb⟩)
    · exact Strategy.kind_of_le_allowance hn hfuel
    · have hallowed : n ≤ b.toNat := by omega
      exact Strategy.kind_of_le_allowance hn hallowed
  · intro host session hs text source t htext hsource line hline s u
    exact (Session.calm_line host hs htext hsource line hline).ne_divergenceNotice s u

/-- `λx:A. f (f x)` applied to a name, in a context with `f` and the name, and the
name of a term without type in a session that checks types. -/
theorem typed_terms_finish_twice :
    let a : SimpleType := .base "A"
    let ctx : Context := .ofList [("f", .simple (.arrow a a)), ("y", .simple a)]
    let body : Term := .app (.var "f") (.app (.var "f") (.var "x"))
    let t : Term := .app (.lam "x" (some (.simple a)) body) (.var "y")
    let self : Term := .lam "x" none (.app (.var "x") (.var "x"))
    let session : Session := ⟨{ Settings.default with checkTypes := true },
      Environment.empty.bind "omega" (.app self self), .empty []⟩
    (Typing.typeOf ctx t = .ok (.simple a) ∧ ∃ n, Strategy.callByValue.iterate n t = none) ∧
      Session.Input.parse " omega" = .statement "omega" ∧
      ∀ line ∈ (session.line ⟨.standard, ""⟩ " omega").lines, ∀ (s : Strategy) (u : Term),
        line ≠ "The term '" ++ u.text ++ "' diverges using the " ++ s.name ++ " strategy." := by
  intro a ctx body t self session
  have hty : Typing.typeOf ctx t = .ok (.simple a) := by decide +kernel
  have htext : Session.Input.parse " omega" = .statement "omega" := by decide +kernel
  have hsource : Statement.parse "omega" = .ok (.term (.var "omega")) := by decide +kernel
  obtain ⟨hfinish, -⟩ := typed_terms_finish.1 ctx t a hty .callByValue
  exact ⟨⟨hty, hfinish⟩, htext,
    typed_terms_finish.2 ⟨.standard, ""⟩ session rfl " omega" "omega" _ htext hsource⟩

end LambdaShell
