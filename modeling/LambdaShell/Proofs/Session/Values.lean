import LambdaShell.Proofs.Evaluation.Ending
import LambdaShell.Proofs.Environment.Unfolding
import LambdaShell.Proofs.Reduction.ValueRedexes
import LambdaShell.Session.Basic

/-!
# Sessions — what a weak strategy comes to

The two weak strategies answer in one way to two different things: to a
value, and to a term that is stuck at a free name. A session evaluates
closed terms only, and a step brings no free name in, so every term on the
way is closed and none of them is stuck. Where such an evaluation ends with
a normal form, the last term that the session shows is therefore an
abstraction (`closed_terms_stop_at_values`).
-/

namespace LambdaShell

open Reduction (callByName callByValue ContractedAt)

namespace Strategy

variable {s : Strategy} {t u : Term}

/-- **A closed term stays closed** all along its evaluation. -/
theorem isClosed_of_mem_trace (s : Strategy) (ht : t.isClosed = true) (limits : Limits)
    (budget : Option Int) : ∀ u ∈ (s.evaluate limits budget t).trace, u.isClosed = true :=
  forall_mem_trace (P := fun u => u.isClosed = true)
    (fun hstep hclosed => (contracts_of_step hstep).isClosed hclosed) ht limits budget

theorem start_evaluate (s : Strategy) (limits : Limits) (budget : Option Int) (t : Term) :
    (s.evaluate limits budget t).start = t := by
  rw [evaluate_eq]

/-- **A normal form of a weak strategy is an abstraction**, if the term was closed. -/
theorem exists_lam_of_kind (hs : s ≠ .normalOrder) (ht : t.isClosed = true) {limits : Limits}
    {budget : Option Int} (h : (s.evaluate limits budget t).kind = .normalForm) :
    ∃ x a body, (s.evaluate limits budget t).term = .lam x a body := by
  have hclosed := s.isClosed_of_mem_trace ht limits budget _ (Evaluation.Outcome.term_mem_trace _)
  exact exists_lam_of_stuck hs hclosed (ends_of_kind h).stuck

end Strategy

/-- Only a term within the limit is expanded. -/
theorem Environment.fits_of_expand {env : Environment} {depth : Option Nat} {t u : Term}
    (h : env.expand depth t = .ok u) : t.fits depth = true := by
  unfold expand at h
  split at h
  · assumption
  · cases h

namespace Session

variable {host : Host} {s : Session} {text : String} {t u : Term}

/-- **A line is accepted for evaluation**: it enters the term `t`, which expands to `u`;
no name is free in `u`, and `u` has a type if types are checked. -/
structure Accepts (host : Host) (s : Session) (text : String) (t u : Term) : Prop where
  entered : ∃ source, Input.parse text = .statement source ∧
    Statement.parse source = .ok (.term t)
  expanded : s.env.expand host.limits.depth t = .ok u
  closed : u.isClosed = true
  typed : s.settings.checkTypes = true → ∃ τ, Typing.typeOf .empty u = .ok (.simple τ)

/-- The terms of an outcome that the session shows: the reducts if steps are shown, else
the last term. -/
def shownTerms (s : Session) (o : Evaluation.Outcome) : List Term :=
  if s.settings.showSteps then o.reducts else [o.term]

/-- The last term shown is the last of the evaluation. If none is shown there was no
step, and it is the first. -/
theorem getLastD_shownTerms (s : Session) (o : Evaluation.Outcome) :
    (s.shownTerms o).getLastD o.start = o.term := by
  unfold shownTerms
  split <;> rfl

/-- A term that has an expansion is repeated, and the expansion is checked and evaluated. -/
theorem enterTerm_of_expand (h : s.env.expand host.limits.depth t = .ok u) :
    s.enterTerm host t = .after [s.echoLine t] [] (s.checkAndRun host u) := by
  rw [enterTerm, if_pos (Environment.fits_of_expand h), h]

/-- A line enters one term, and that has one expansion. -/
theorem Accepts.unique (h : Accepts host s text t u) {t' u' : Term}
    (h' : Accepts host s text t' u') : t = t' ∧ u = u' := by
  obtain ⟨source, htext, hsource⟩ := h.entered
  obtain ⟨source', htext', hsource'⟩ := h'.entered
  cases htext.symm.trans htext'
  cases hsource.symm.trans hsource'
  cases h.expanded.symm.trans h'.expanded
  exact ⟨rfl, rfl⟩

/-- **The answer to an accepted line**: the term is repeated, and its evaluation shown. -/
theorem Accepts.line_eq (h : Accepts host s text t u) :
    s.line host text = .after [s.echoLine t] [] (s.runTerm host u) := by
  obtain ⟨source, htext, hsource⟩ := h.entered
  have hrun : s.checkAndRun host u = s.runTerm host u := by
    unfold checkAndRun
    rw [if_pos h.closed]
    split
    · rename_i hcheck
      obtain ⟨τ, hτ⟩ := h.typed hcheck
      rw [hτ]
    · rfl
  rw [line, htext, perform, enter, hsource]
  dsimp only
  rw [enterTerm_of_expand h.expanded, hrun]
  refine report_eq_self fun f => ?_
  show (s.runTerm host u).result ≠ .failed f
  rcases s.result_runTerm_cases host u with h | h <;> rw [h] <;> exact nofun

theorem Accepts.lines_eq (h : Accepts host s text t u) :
    (s.line host text).lines = s.echoLine t :: (s.runTerm host u).lines := by
  rw [h.line_eq]
  rfl

/-- A normal form is shown by the terms that led to it, and a mark. -/
theorem lines_runTerm
    (h : (s.settings.strategy.evaluate host.limits s.settings.budget u).kind = .normalForm) :
    (s.runTerm host u).lines =
      (s.shownTerms (s.settings.strategy.evaluate host.limits s.settings.budget u)).map
        s.stepLine ++ [" ⇸"] := by
  simp only [runTerm, outcomeLines, h, shownTerms]
  split <;> rfl

end Session

/-- **Free names never appear, and closed terms stop at values only.** A step of any
strategy leaves no name free that was not free before. So all the terms that
a closed term is evaluated through are closed. A closed term is one that call
by value, or call by name, does not move exactly if it is an abstraction. If
call by value moves it, then by contracting the leftmost redex outside of all
binders of which the argument is an abstraction. And if a session that uses
one of these strategies accepts a line, and the evaluation ends with a normal
form, then this is an abstraction: it is the last term the session shows, or
the one that was entered if no step was made. -/
theorem closed_terms_stop_at_values :
    (∀ (s : Strategy) (t u : Term), s.step t = some u → u.freeVars ⊆ t.freeVars) ∧
    (∀ (s : Strategy) (t : Term), t.isClosed = true →
      ∀ (limits : Limits) (budget : Option Int),
        ∀ u ∈ (s.evaluate limits budget t).trace, u.isClosed = true) ∧
    (∀ t : Term, t.isClosed = true →
      (callByValue t = none ↔ ∃ x a body, t = .lam x a body) ∧
      (callByName t = none ↔ ∃ x a body, t = .lam x a body) ∧
      ∀ u, callByValue t = some u ↔ ∃ p, IsLeast t.valueRedexes p ∧ ContractedAt t p u) ∧
    ∀ (host : Session.Host) (s : Session) (text : String) (t u : Term),
      Session.Accepts host s text t u → s.settings.strategy ≠ .normalOrder →
        let o := s.settings.strategy.evaluate host.limits s.settings.budget u
        o.kind = .normalForm →
          ∃ x a body, o.term = .lam x a body ∧
            (s.shownTerms o).getLastD u = .lam x a body ∧
            (s.line host text).lines =
              s.echoLine t :: ((s.shownTerms o).map s.stepLine ++ [" ⇸"]) := by
  refine ⟨?_, fun s t => s.isClosed_of_mem_trace, ?_, ?_⟩
  · intro s t u hstep x hx
    exact (Strategy.contracts_of_step hstep).mem_freeVars hx
  · intro t ht
    exact ⟨Reduction.callByValue_eq_none_iff ht, Reduction.callByName_eq_none_iff ht,
      fun u => Reduction.callByValue_eq_some_iff ht⟩
  · intro host s text t u haccepts hweak o hkind
    obtain ⟨x, a, body, hlam⟩ := Strategy.exists_lam_of_kind hweak haccepts.closed hkind
    have hlast := s.getLastD_shownTerms o
    rw [show o.start = u from Strategy.start_evaluate _ _ _ u] at hlast
    refine ⟨x, a, body, hlam, hlast.trans hlam, ?_⟩
    rw [haccepts.lines_eq, Session.lines_runTerm hkind]

/-- In `(λx. λy. x) ((λz. z) (λw. w))` the redex in the argument is contracted first,
since the argument of the whole term is no abstraction yet. A session shows
both steps, the second of which leads to one. -/
theorem closed_terms_stop_at_values_shown :
    let id (x : String) : Term := .lam x none (.var x)
    let const : Term := .lam "x" none (.lam "y" none (.var "x"))
    let t : Term := .app const (.app (id "z") (id "w"))
    let s : Session := ⟨.default, .empty, .empty []⟩
    let host : Session.Host := ⟨.standard, ""⟩
    let o := Strategy.callByValue.evaluate .standard s.settings.budget t
    t.isClosed = true ∧
      (callByValue t = some (.app const (id "w")) ∧
        ∃ p, IsLeast t.valueRedexes p ∧ ContractedAt t p (.app const (id "w"))) ∧
      Session.Accepts host s "(λx y. x) ((λz. z) (λw. w))" t t ∧ o.kind = .normalForm ∧
      ∃ x a body, o.term = .lam x a body ∧
        (s.line host "(λx y. x) ((λz. z) (λw. w))").lines =
          s.echoLine t :: ((s.shownTerms o).map s.stepLine ++ [" ⇸"]) := by
  intro id const t s host o
  have ht : t.isClosed = true := by decide +kernel
  have hstep : callByValue t = some (.app const (id "w")) := by decide +kernel
  have hkind : o.kind = .normalForm := by decide +kernel
  have haccepts : Session.Accepts host s "(λx y. x) ((λz. z) (λw. w))" t t := by
    refine ⟨⟨"(λx y. x) ((λz. z) (λw. w))", by decide +kernel, by decide +kernel⟩, ?_, ht, ?_⟩
    · exact Environment.expand_of_closed .empty (by decide +kernel) (by decide)
    · intro hcheck
      cases hcheck
  obtain ⟨-, -, hclosed, hshown⟩ := closed_terms_stop_at_values
  obtain ⟨x, a, body, hterm, -, hlines⟩ := hshown host s _ t t haccepts (by decide) hkind
  exact ⟨ht, ⟨hstep, ((hclosed t ht).2.2 _).1 hstep⟩, haccepts, hkind, x, a, body, hterm, hlines⟩

end LambdaShell
