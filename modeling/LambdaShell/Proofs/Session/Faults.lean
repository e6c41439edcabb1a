import LambdaShell.Proofs.Session.Unfinished
import LambdaShell.Proofs.Typing.Derivations
import LambdaShell.Session.Loop

/-!
# Sessions — which lines are not answered

A session is meant to answer every line: what goes wrong is reported, and
the session goes on. Some things that can go wrong have no report, and a
line that meets with one of them breaks off. This file says which they are
(`Breaks`): a library whose file is no text, a library whose path holds the
character zero, and an annotation that is a fault, where a type is looked
for. Each of them does break the line off. Beside them there is one other
way not to answer, an evaluation without budget that has no end
(`Endless`); what is neither broken off nor without an end is answered
(`line_answered`).

The last of the three does not come about in a session that has its
definitions from texts, since annotations are read as types; a dialogue
with such a session goes on until it is asked to end, a file breaks it off,
or an evaluation without budget is not finished (`converse_ends`).
Derivations never break a line off, since they all have proof trees.
-/

namespace LambdaShell

open Typing (typeOf derive)

namespace Library

variable {store : Storage.Store} {directory : Storage.Path} {name stamp : String}
  {overwrite : Bool} {env : Environment} {f : FileFault}

/-- **Why a library is not loaded and nothing is reported**: its path holds the
character zero, or its file is there and no text. -/
inductive Unusable (store : Storage.Store) (path : Storage.Path) : FileFault → Prop where
  | zeroInPath : acceptable path = false → Unusable store path .zeroInPath
  | undecodable {content : ByteArray} :
      acceptable path = true → store.read path = .ok content → ¬ content.IsValidUTF8 →
        Unusable store path .undecodable

theorem load_eq_fault_iff :
    load store directory name = .error (.fault f) ↔ Unusable store (file directory name) f := by
  unfold load
  constructor
  · intro h
    dsimp only at h
    split at h
    · rename_i hpath
      split at h
      · cases h
      · rename_i content hread
        split at h
        · rename_i hdecode
          cases h
          refine .undecodable hpath hread fun hvalid => ?_
          rw [String.fromUTF8?, dif_pos hvalid] at hdecode
          cases hdecode
        · split at h <;> cases h
    · rename_i hpath
      cases h
      exact .zeroInPath (Bool.eq_false_iff.2 hpath)
  · rintro (hpath | ⟨hpath, hread, hinvalid⟩)
    · dsimp only
      rw [if_neg (Bool.eq_false_iff.1 hpath)]
    · have hdecode : String.fromUTF8? _ = none := dif_neg hinvalid
      dsimp only
      rw [if_pos hpath, hread]
      dsimp only
      rw [hdecode]

theorem save_eq_fault_iff :
    save store directory name overwrite stamp env = .error (.fault f) ↔
      acceptable (file directory name) = false ∧ f = .zeroInPath := by
  unfold save
  dsimp only
  split
  · rename_i hpath
    refine ⟨fun h => ?_, fun h => by rw [hpath] at h; cases h.1⟩
    split at h
    · cases h
    · split at h <;> cases h
  · rename_i hpath
    refine ⟨fun h => ?_, fun h => by rw [h.2]⟩
    cases h
    exact ⟨Bool.eq_false_iff.2 hpath, rfl⟩

end Library

namespace Session

variable {host : Host} {s : Session} {f : Fault} {t : Term}

/-- **The terms whose type a line looks for**, expanded. -/
inductive Checks (host : Host) (s : Session) : Input → Term → Prop where
  /-- A term is entered while types are checked. -/
  | entered {source : String} {t u : Term} :
      s.settings.checkTypes = true → Statement.parse source = .ok (.term t) →
        t.fits host.limits.depth = true → s.env.expand host.limits.depth t = .ok u →
        u.isClosed = true → Checks host s (.statement source) u
  /-- The type is asked for. -/
  | typeOf {source : String} {t u : Term} :
      Term.parse source = .ok t → s.env.expand host.limits.depth t = .ok u →
        Checks host s (.command (.typeOf source)) u
  /-- The derivation of the type is asked for. -/
  | derivation {source : String} {t u : Term} :
      Term.parse source = .ok t → s.env.expand host.limits.depth t = .ok u →
        Checks host s (.command (.derivation source)) u

/-- **What breaks a line off.** -/
inductive Breaks (host : Host) (s : Session) : Input → Fault → Prop where
  /-- The first library that is not loaded is one that cannot be used. -/
  | load {before after : List String} {name : String} {f : Library.FileFault} :
      (s.load host before).result = .proceed →
        Library.Unusable s.store (Library.file s.settings.libraryPath name) f →
        Breaks host s (.command (.load (before ++ name :: after))) (.file f)
  /-- The path to save under holds the character zero. -/
  | save {name : String} {overwrite : Bool} :
      name ≠ "" → (∀ d ∈ s.env.definitions, d.term.fits host.limits.depth = true) →
        Library.acceptable (Library.file s.settings.libraryPath name) = false →
        Breaks host s (.command (.save name overwrite)) (.file .zeroInPath)
  /-- An annotation that is a fault would become the domain of an arrow. -/
  | declared {input : Input} {t : Term} {e : ArrowError} :
      Checks host s input t → Typing.typeOf .empty t = .error e → Breaks host s input (.arrow e)

/-! ## Terms -/

/-- No evaluation breaks a line off. -/
theorem result_runTerm_ne_faulted (host : Host) (s : Session) (t : Term) (f : Fault) :
    (s.runTerm host t).result ≠ .faulted f := by
  rcases s.result_runTerm_cases host t with h | h <;> rw [h] <;> exact nofun

theorem checkAndRun_faulted_iff :
    (s.checkAndRun host t).result = .faulted f ↔
      s.settings.checkTypes = true ∧ t.isClosed = true ∧
        ∃ e, typeOf .empty t = .error e ∧ f = .arrow e := by
  unfold checkAndRun
  by_cases hclosed : t.isClosed = true
  · by_cases hcheck : s.settings.checkTypes = true
    · rw [if_pos hclosed, if_pos hcheck]
      cases typeOf .empty t with
      | error e => simp [Reply.fault, hclosed, hcheck, eq_comm]
      | ok ty => cases ty <;> simp [Reply.say, result_runTerm_ne_faulted]
    · simp [hclosed, hcheck, result_runTerm_ne_faulted]
  · simp [hclosed, Reply.say]

theorem enterTerm_faulted_iff :
    (s.enterTerm host t).result = .faulted f ↔
      t.fits host.limits.depth = true ∧ ∃ u, s.env.expand host.limits.depth t = .ok u ∧
        (s.checkAndRun host u).result = .faulted f := by
  unfold enterTerm
  by_cases hfits : t.fits host.limits.depth = true
  · rw [if_pos hfits]
    cases s.env.expand host.limits.depth t with
    | error e => simp [Reply.after, Reply.fail]
    | ok u => simp [Reply.after, hfits]
  · simp [hfits, Reply.fail]

theorem withTerm_faulted_iff {source : String} {answer : Term → Reply} :
    (s.withTerm host source answer).result = .faulted f ↔
      ∃ t u, Term.parse source = .ok t ∧ s.env.expand host.limits.depth t = .ok u ∧
        (answer u).result = .faulted f := by
  unfold withTerm
  cases Term.parse source with
  | error e => simp [Reply.fail]
  | ok t =>
    dsimp only
    cases hexpand : s.env.expand host.limits.depth t with
    | error e => simp [Reply.fail, hexpand]
    | ok u => simp [hexpand]

theorem showType_faulted_iff :
    (s.showType t).result = .faulted f ↔ ∃ e, typeOf .empty t = .error e ∧ f = .arrow e := by
  unfold showType
  cases typeOf .empty t with
  | error e => simp [Reply.fault, eq_comm]
  | ok ty => simp [Reply.say]

/-- A derivation breaks a line off where the type does, and for no other reason. -/
theorem showDerivation_faulted_iff :
    (s.showDerivation t).result = .faulted f ↔ ∃ e, typeOf .empty t = .error e ∧ f = .arrow e := by
  simp only [← Typing.derive_eq_error_iff]
  unfold showDerivation
  cases hderive : derive .empty t with
  | error e => simp [Reply.fault, eq_comm]
  | ok result =>
    obtain ⟨d, ty⟩ := result
    obtain ⟨text, htext⟩ := Typing.exists_latex_derivation hderive
    simp [htext, Reply.say]

/-! ## Libraries -/

theorem libraryReply_faulted_iff {failure : Library.Failure} :
    (s.libraryReply failure).result = .faulted f ↔
      ∃ fault, failure = .fault fault ∧ f = .file fault := by
  cases failure with
  | reported e => simp [libraryReply, Reply.fail]
  | fault fault => simp [libraryReply, Reply.fault, eq_comm]

/-- **What becomes of the first of several libraries**: it is not loaded, it holds a
term nested too deeply, or it is loaded into a session with the same files and
settings, and the others after it. -/
theorem load_cons_cases (host : Host) (s : Session) (name : String) :
    (∃ failure, Library.load s.store s.settings.libraryPath name = .error failure ∧
        ∀ names, s.load host (name :: names) = s.libraryReply failure) ∨
      (∀ names, (s.load host (name :: names)).result = .failed .tooDeep) ∨
      ∃ env, ∀ names,
        (s.load host (name :: names)).session =
            (load host { s with env := env } names).session ∧
          (s.load host (name :: names)).result =
            (load host { s with env := env } names).result := by
  cases hload : Library.load s.store s.settings.libraryPath name with
  | error failure => exact .inl ⟨failure, rfl, fun names => by rw [load_cons, hload]⟩
  | ok definitions =>
    by_cases hfits : (s.env.defineAll host.limits.depth definitions).2 = true
    · exact .inr (.inr ⟨_, fun names => load_cons_of_ok hload hfits names⟩)
    · refine .inr (.inl fun names => ?_)
      rw [load_cons, hload]
      dsimp only
      rw [if_neg hfits]

/-- After libraries that were loaded, the others are loaded. -/
theorem result_load_append {before : List String} (h : (s.load host before).result = .proceed)
    (names : List String) :
    (s.load host (before ++ names)).result =
      ((s.load host before).session.load host names).result := by
  induction before generalizing s with
  | nil => rfl
  | cons name before ih =>
    rcases load_cons_cases host s name with ⟨failure, -, hreply⟩ | hdeep | ⟨env, hrest⟩
    · rw [hreply] at h
      cases failure <;> cases h
    · rw [hdeep] at h
      cases h
    · rw [(hrest before).2] at h
      rw [List.cons_append, (hrest (before ++ names)).2, ih h, (hrest before).1]

/-- **Loading breaks off at the first library that is not loaded**, if that one cannot
be used. -/
theorem load_faulted_iff {names : List String} :
    (s.load host names).result = .faulted f ↔
      ∃ before name after fault, names = before ++ name :: after ∧
        (s.load host before).result = .proceed ∧
        Library.Unusable s.store (Library.file s.settings.libraryPath name) fault ∧
        f = .file fault := by
  constructor
  · intro h
    induction names generalizing s with
    | nil => cases h
    | cons name names ih =>
      rcases load_cons_cases host s name with ⟨failure, hload, hreply⟩ | hdeep | ⟨env, hrest⟩
      · rw [hreply, libraryReply_faulted_iff] at h
        obtain ⟨fault, rfl, rfl⟩ := h
        exact ⟨[], name, names, fault, rfl, rfl, Library.load_eq_fault_iff.1 hload, rfl⟩
      · rw [hdeep] at h
        cases h
      · rw [(hrest names).2] at h
        obtain ⟨before, other, after, fault, rfl, hbefore, hunusable, rfl⟩ := ih h
        refine ⟨name :: before, other, after, fault, rfl, ?_, hunusable, rfl⟩
        rw [(hrest before).2, hbefore]
  · rintro ⟨before, name, after, fault, rfl, hbefore, hunusable, rfl⟩
    -- the libraries before it have changed neither the files nor the settings
    obtain ⟨hsettings, hstore, -⟩ := load_frame host s before
    rw [← hsettings, ← hstore] at hunusable
    rw [result_load_append hbefore, load_cons, Library.load_eq_fault_iff.2 hunusable]
    rfl

theorem save_faulted_iff {name : String} {overwrite : Bool} :
    (s.save host name overwrite).result = .faulted f ↔
      name ≠ "" ∧ (∀ d ∈ s.env.definitions, d.term.fits host.limits.depth = true) ∧
        Library.acceptable (Library.file s.settings.libraryPath name) = false ∧
        f = .file .zeroInPath := by
  simp only [save]
  by_cases hname : name = ""
  · simp [hname, Reply.say]
  by_cases hfits : s.env.definitions.all (·.term.fits host.limits.depth) = true
  · rw [if_neg hname, if_pos hfits]
    have hall := List.all_eq_true.1 hfits
    cases hsave : Library.save s.store s.settings.libraryPath name overwrite host.stamp s.env with
    | error failure =>
      dsimp only
      rw [libraryReply_faulted_iff]
      constructor
      · rintro ⟨fault, rfl, rfl⟩
        obtain ⟨hpath, rfl⟩ := Library.save_eq_fault_iff.1 hsave
        exact ⟨hname, hall, hpath, rfl⟩
      · rintro ⟨-, -, hpath, rfl⟩
        rw [Library.save_eq_fault_iff.2 ⟨hpath, rfl⟩] at hsave
        cases hsave
        exact ⟨_, rfl, rfl⟩
    | ok store =>
      constructor
      · intro h
        cases h
      · rintro ⟨-, -, hpath, -⟩
        rw [Library.save_eq_fault_iff.2 ⟨hpath, rfl⟩] at hsave
        cases hsave
  · rw [if_neg hname, if_neg hfits]
    refine ⟨fun h => ?_, fun h => absurd (List.all_eq_true.2 h.2.1) hfits⟩
    split at h <;> cases h

/-! ## Lines -/

/-- Every line that is broken off has its reason. -/
theorem breaks_of_faulted {input : Input} (h : (s.perform host input).result = .faulted f) :
    Breaks host s input f := by
  cases input with
  | blank => cases h
  | ending => cases h
  | statement source =>
    rw [perform, enter] at h
    split at h
    · cases h
    · rename_i d _
      unfold enterDefinition at h
      dsimp only at h
      split at h <;> cases h
    · rename_i t hparse
      obtain ⟨hfits, u, hexpand, hrun⟩ := enterTerm_faulted_iff.1 h
      obtain ⟨hcheck, hclosed, e, htype, rfl⟩ := checkAndRun_faulted_iff.1 hrun
      exact .declared (.entered hcheck hparse hfits hexpand hclosed) htype
  | command c =>
    rw [perform] at h
    cases c with
    | listDefinitions =>
      simp only [command, listDefinitions] at h
      split at h <;> cases h
    | load names =>
      rw [command] at h
      obtain ⟨before, name, after, fault, rfl, hbefore, hunusable, rfl⟩ := load_faulted_iff.1 h
      exact .load hbefore hunusable
    | save name overwrite =>
      rw [command] at h
      obtain ⟨hname, hfits, hpath, rfl⟩ := save_faulted_iff.1 h
      exact .save hname hfits hpath
    | nameless source =>
      obtain ⟨t, u, -, -, hanswer⟩ := withTerm_faulted_iff.1 h
      cases hanswer
    | typeOf source =>
      obtain ⟨t, u, hparse, hexpand, hanswer⟩ := withTerm_faulted_iff.1 h
      obtain ⟨e, htype, rfl⟩ := showType_faulted_iff.1 hanswer
      exact .declared (.typeOf hparse hexpand) htype
    | derivation source =>
      obtain ⟨t, u, hparse, hexpand, hanswer⟩ := withTerm_faulted_iff.1 h
      obtain ⟨e, htype, rfl⟩ := showDerivation_faulted_iff.1 hanswer
      exact .declared (.derivation hparse hexpand) htype
    | _ => cases h

/-- And each of the reasons breaks the line off. -/
theorem faulted_of_breaks {input : Input} (h : Breaks host s input f) :
    (s.perform host input).result = .faulted f := by
  cases h with
  | load hbefore hunusable =>
    rw [perform, command]
    exact load_faulted_iff.2 ⟨_, _, _, _, rfl, hbefore, hunusable, rfl⟩
  | save hname hfits hpath =>
    rw [perform, command]
    exact save_faulted_iff.2 ⟨hname, hfits, hpath, rfl⟩
  | declared hchecks htype =>
    cases hchecks with
    | entered hcheck hparse hfits hexpand hclosed =>
      rw [perform, enter, hparse]
      exact enterTerm_faulted_iff.2
        ⟨hfits, _, hexpand, checkAndRun_faulted_iff.2 ⟨hcheck, hclosed, _, htype, rfl⟩⟩
    | typeOf hparse hexpand =>
      exact withTerm_faulted_iff.2
        ⟨_, _, hparse, hexpand, showType_faulted_iff.2 ⟨_, htype, rfl⟩⟩
    | derivation hparse hexpand =>
      exact withTerm_faulted_iff.2
        ⟨_, _, hparse, hexpand, showDerivation_faulted_iff.2 ⟨_, htype, rfl⟩⟩

/-- **Types are looked for in terms without faults**, if the definitions have none. -/
theorem Checks.declaresTypes {input : Input} (h : Checks host s input t)
    (henv : ∀ d ∈ s.env.definitions, d.term.declaresTypes = true) : t.declaresTypes = true := by
  have hexpanded : ∀ {t u : Term}, t.wellNamed = true →
      s.env.expand host.limits.depth t = .ok u → u.declaresTypes = true := fun ht hexpand =>
    Environment.every_expand nameClosed_true henv hexpand (Term.declaresTypes_of_wellNamed ht)
  cases h with
  | entered _ hparse _ hexpand _ =>
    exact hexpanded (Grammar.Start.statement.wellNamed_of_parse hparse) hexpand
  | typeOf hparse hexpand => exact hexpanded (Grammar.Start.term.wellNamed_of_parse hparse) hexpand
  | derivation hparse hexpand =>
    exact hexpanded (Grammar.Start.term.wellNamed_of_parse hparse) hexpand

/-- Without faults in the definitions, only a file can break a line off. -/
theorem Breaks.exists_file {input : Input} (h : Breaks host s input f)
    (henv : ∀ d ∈ s.env.definitions, d.term.declaresTypes = true) :
    ∃ fault, f = .file fault := by
  cases h with
  | load _ _ => exact ⟨_, rfl⟩
  | save _ _ _ => exact ⟨_, rfl⟩
  | declared hchecks htype =>
    exact absurd htype (Typing.typeOf_ne_error (hchecks.declaresTypes henv) _ _)

/-- **A line is answered**: the session goes on or is over, and if the line has failed
the last thing shown is what went wrong. -/
inductive Reply.Answers (r : Reply) : Prop where
  | proceed : r.result = .proceed → Answers r
  | quit : r.result = .quit → Answers r
  | failed {f : Failure} : r.result = .failed f → r.lines.getLast? = some f.message → Answers r

theorem line_faulted_iff (host : Host) (s : Session) (text : String) (f : Fault) :
    (s.line host text).result = .faulted f ↔ Breaks host s (.parse text) f := by
  rw [line, (report_frame _).2]
  exact ⟨breaks_of_faulted, faulted_of_breaks⟩

/-- **A line brings no fault into the definitions**: what it defines was read. -/
theorem declaresTypes_line (host : Host) (text : String)
    (henv : ∀ d ∈ s.env.definitions, d.term.declaresTypes = true) :
    ∀ d ∈ (s.line host text).session.env.definitions, d.term.declaresTypes = true := by
  refine (edited_line host s text).forall_mem (fun d hd => ?_) henv
  exact Term.declaresTypes_of_wellNamed (Bool.and_eq_true_iff.1 hd).2

/-- **A line leaves the budget as it is.** -/
theorem budget_line (host : Host) (s : Session) (text : String) :
    (s.line host text).session.settings.budget = s.settings.budget := by
  rw [line, (report_frame _).1]
  exact (effect_perform host s (.parse text)).budget_eq

theorem result_line_ending (host : Host) (s : Session) : (s.line host "EOF").result = .quit := rfl

section Conversation

-- what a line does is known from the lemmas and is not to be computed
attribute [local irreducible] line

/-- **A dialogue goes on until it is asked to end**, until a file breaks it off, or, if
there is no budget, until an evaluation is not finished. The session has to
start without faults in its definitions. -/
theorem converse_ends (host : Host) (s : Session) (cs : List Char)
    (henv : ∀ d ∈ s.env.definitions, d.term.declaresTypes = true) :
    (s.converse host cs).result = .quit ∨
      (∃ fault, (s.converse host cs).result = .faulted (.file fault)) ∨
        s.settings.budget = none ∧ (s.converse host cs).result = .unfinished := by
  fun_induction converse host s cs with
  | case1 s r => exact .inl (result_line_ending host s)
  | case2 s cs hne r rest hgoesOn ih =>
    rw [← budget_line host s (String.ofList (cs.takeWhile (· ≠ '\n')))]
    exact ih (declaresTypes_line host _ henv)
  | case3 s cs hne r rest hstops =>
    cases hresult : r.result with
    | quit => exact .inl rfl
    | faulted f =>
      obtain ⟨fault, rfl⟩ := ((line_faulted_iff host s _ f).1 hresult).exists_file henv
      exact .inr (.inl ⟨fault, rfl⟩)
    | unfinished => exact .inr (.inr ⟨((line_unfinished_iff host s _).1 hresult).1, rfl⟩)
    | proceed => exact absurd (by rw [hresult]; rfl) hstops
    | failed f => exact absurd (by rw [hresult]; rfl) hstops

end Conversation

end Session

end LambdaShell
