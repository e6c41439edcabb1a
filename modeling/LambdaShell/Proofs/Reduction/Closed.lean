import LambdaShell.Proofs.Reduction.Contraction

/-!
# Reduction — closed terms

A contraction brings no free name into a term: what substitution puts in
has the names it had outside, and the binder that is gone with the redex
held the only name that could come free. Closed terms therefore stay closed
on every run.

The two weak strategies do not say why they stop. On a closed term there is
one reason only: without free names nothing but an abstraction can stand
where a redex is looked for, so a closed term that a weak strategy does not
move is an abstraction (`exists_lam_of_callByName`, `exists_lam_of_callByValue`).
-/

namespace LambdaShell

namespace Term

variable {t u : Term} {z : String}

/-! ## Free names -/

/-- **The free names of a substitution** are those of the term, without the one
that is replaced, and those of the replacement. -/
theorem mem_freeVars_subst {x : String} {r : Term} (h : z ∈ (t.subst x r).freeVars) :
    z ∈ t.freeVars ∧ z ≠ x ∨ z ∈ r.freeVars := by
  fun_induction Term.subst t x r with
  | case1 => exact .inr h
  | case2 y hy =>
    have hz : z = y := mem_freeVars_var.1 h
    exact .inl ⟨h, by rw [hz]; exact hy⟩
  | case3 fn arg ihf iha =>
    rcases mem_freeVars_app.1 h with h | h
    · exact (ihf h).imp_left fun hz => ⟨mem_freeVars_app.2 (.inl hz.1), hz.2⟩
    · exact (iha h).imp_left fun hz => ⟨mem_freeVars_app.2 (.inr hz.1), hz.2⟩
  | case4 y a body hy =>
    -- nothing is replaced, since the name is not free in the abstraction
    refine .inl ⟨h, ?_⟩
    rintro rfl
    rw [mem_freeVars_lam] at h
    exact hy.elim (fun e => h.2 e.symm) fun hn => hn h.1
  | case5 y a body _ _ y' =>
    rename_i ih
    obtain ⟨hbody, hzy'⟩ := mem_freeVars_lam.1 h
    refine (ih hbody).imp_left fun hz => ?_
    have hold := (mem_freeVars_replaceName hz.1).resolve_left hzy'
    exact ⟨mem_freeVars_lam.2 hold, hz.2⟩
  | case6 y a body _ _ ih =>
    obtain ⟨hbody, hzy⟩ := mem_freeVars_lam.1 h
    exact (ih hbody).imp_left fun hz => ⟨mem_freeVars_lam.2 ⟨hz.1, hzy⟩, hz.2⟩

/-- **A contraction brings no free name in.** -/
theorem Contracts.mem_freeVars (h : Contracts t u) (hz : z ∈ u.freeVars) : z ∈ t.freeVars := by
  induction h with
  | contract x a body arg =>
    rw [mem_freeVars_app, mem_freeVars_lam]
    exact mem_freeVars_subst hz
  | function arg _ ih => exact mem_freeVars_app.2 ((mem_freeVars_app.1 hz).imp_left ih)
  | argument fn _ ih => exact mem_freeVars_app.2 ((mem_freeVars_app.1 hz).imp_right ih)
  | body x a _ ih =>
    obtain ⟨hbody, hzx⟩ := mem_freeVars_lam.1 hz
    exact mem_freeVars_lam.2 ⟨ih hbody, hzx⟩

/-! ## Closed terms -/

/-- A term is closed when no name is free in it. -/
theorem isClosed_iff : t.isClosed = true ↔ ∀ x, x ∉ t.freeVars := by
  rw [isClosed, issues, List.isEmpty_iff, List.map_eq_nil_iff, List.eq_nil_iff_forall_not_mem]
  simp only [mem_freeNames]

@[simp] theorem isClosed_app {fn arg : Term} :
    (app fn arg).isClosed = true ↔ fn.isClosed = true ∧ arg.isClosed = true := by
  simp only [isClosed_iff, mem_freeVars_app, not_or, forall_and]

theorem not_isClosed_var (x : String) : ¬ (var x).isClosed = true := fun h =>
  isClosed_iff.1 h x (mem_freeVars_var.2 rfl)

theorem Contracts.isClosed (h : Contracts t u) (ht : t.isClosed = true) : u.isClosed = true :=
  isClosed_iff.2 fun x hx => isClosed_iff.1 ht x (h.mem_freeVars hx)

end Term

/-! ## Where the weak strategies stop -/

namespace Reduction

variable {t : Term}

theorem exists_lam_of_callByName (ht : t.isClosed = true) (h : callByName t = none) :
    ∃ x a body, t = .lam x a body := by
  fun_induction callByName t with
  | case1 x a body arg => cases h
  | case2 fn arg hfn ih =>
    -- the function does not move either, so it would have to be an abstraction
    obtain ⟨x, a, body, rfl⟩ := ih (Term.isClosed_app.1 ht).1 (Option.map_eq_none_iff.1 h)
    exact (hfn x a body rfl).elim
  | case3 x a body => exact ⟨x, a, body, rfl⟩
  | case4 x => exact absurd ht (Term.not_isClosed_var x)

theorem exists_lam_of_callByValue (ht : t.isClosed = true) (h : callByValue t = none) :
    ∃ x a body, t = .lam x a body := by
  fun_induction callByValue t with
  | case1 x a body arg arg' _ _ => cases h
  | case2 x a body arg _ _ => cases h
  | case3 fn arg hfn ih =>
    obtain ⟨x, a, body, rfl⟩ := ih (Term.isClosed_app.1 ht).1 (Option.map_eq_none_iff.1 h)
    exact (hfn x a body rfl).elim
  | case4 x a body => exact ⟨x, a, body, rfl⟩
  | case5 x => exact absurd ht (Term.not_isClosed_var x)

end Reduction

/-- **A closed term that a weak strategy does not move is an abstraction.** -/
theorem Strategy.exists_lam_of_stuck {s : Strategy} {t : Term} (hs : s ≠ .normalOrder)
    (ht : t.isClosed = true) (h : s.step t = none) : ∃ x a body, t = .lam x a body := by
  cases s with
  | normalOrder => exact absurd rfl hs
  | callByName => exact Reduction.exists_lam_of_callByName ht h
  | callByValue => exact Reduction.exists_lam_of_callByValue ht h

end LambdaShell
