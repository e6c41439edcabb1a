import LambdaShell.Proofs.Library.Files
import LambdaShell.Proofs.Session.Edits

/-!
# Sessions — what a line may change

A session has settings, an environment and a store, and every line has its
part: some lines define or remove names, some change settings, some write a
file, and most change nothing. `Effect` says once for all inputs what each
can do to the session and how it can end; `effect_perform` goes through the
functions of the session one by one. What a line may change, and what is
left unchanged when a failure is reported, is read off it (`line_framed`).

The one line that can fail in the middle of its work is that which loads
several libraries. Each of them is loaded as a whole or not at all, and
those before the one that fails stay loaded (`load_stops`).
-/

namespace LambdaShell

open Storage (Location)

namespace Session

variable {host : Host} {s : Session} {names : List String}

/-- The commands that select a strategy and that switch the steps, the names shown
or the checking of types on and off. -/
def Command.configures : Command → Bool
  | .select _ => true
  | .showSteps _ => true
  | .showAliases _ => true
  | .checkTypes _ => true
  | _ => false

/-- The inputs that ask something of the session: its definitions, or the type, the
derivation or the nameless form of a term, or what a term comes to. -/
inductive Input.Asks : Input → Prop where
  | expression {source : String} {t : Term} :
      Statement.parse source = .ok (.term t) → Asks (.statement source)
  | listDefinitions : Asks (.command .listDefinitions)
  | nameless (source : String) : Asks (.command (.nameless source))
  | typeOf (source : String) : Asks (.command (.typeOf source))
  | derivation (source : String) : Asks (.command (.derivation source))

/-- The inputs that neither end the session nor load libraries. -/
def Input.plain : Input → Bool
  | .ending => false
  | .command .quit => false
  | .command (.load _) => false
  | _ => true

/-- The results with which a line has ended, well or badly, and the session has not. -/
def Result.endsLineOnly : Result → Bool
  | .proceed => true
  | .failed _ => true
  | .faulted _ => true
  | .quit => false
  | .unfinished => false

theorem Result.ne_quit {result : Result} (h : result.endsLineOnly = true) : result ≠ .quit := by
  rintro rfl
  cases h

theorem Result.ne_unfinished {result : Result} (h : result.endsLineOnly = true) :
    result ≠ .unfinished := by
  rintro rfl
  cases h

/-- **All that an input can do to a session**, and how it can end. -/
inductive Effect (host : Host) (s : Session) : Input → Reply → Prop where
  /-- Nothing is changed, and the line ends. -/
  | keep {input : Input} {r : Reply} :
      input.plain = true → r.session = s → r.result.endsLineOnly = true → Effect host s input r
  /-- A term is entered. Nothing is changed, and the session is not over. -/
  | enterTerm {source : String} {t : Term} {r : Reply} :
      Statement.parse source = .ok (.term t) → r.session = s → r.result ≠ .quit →
        Effect host s (.statement source) r
  /-- Nothing is changed, and the session is over. -/
  | stop {input : Input} {r : Reply} :
      input = .ending ∨ input = .command .quit → r.session = s → r.result = .quit →
        Effect host s input r
  /-- The settings are changed, but for the budget. -/
  | configure {c : Command} {r : Reply} (f : Settings → Settings) :
      c.configures = true → (∀ settings, (f settings).budget = settings.budget) →
        r.session = s.configure f → r.result = .proceed → Effect host s (.command c) r
  /-- A name is defined; this fails only if the term is nested too deeply. -/
  | define {source : String} {d : Definition} {r : Reply} :
      Statement.parse source = .ok (.definition d) →
        r.session = { s with env := s.env.define host.limits.depth d.name d.term } →
        r.result = .proceed ∨ r.result = .failed .tooDeep → Effect host s (.statement source) r
  /-- Names are removed. -/
  | remove {names : List String} {r : Reply} (env : Environment) :
      r.session = { s with env := env } → r.result = .proceed →
        Effect host s (.command (.remove names)) r
  /-- Libraries are loaded. -/
  | load (names : List String) : Effect host s (.command (.load names)) (s.load host names)
  /-- One file is written. -/
  | save {name : String} {overwrite : Bool} {r : Reply} {store : Storage.Store}
      {location : Location} :
      s.store.Written (Library.file s.settings.libraryPath name)
        (Library.dump host.stamp s.env).toUTF8 location store →
        r.session = { s with store := store } → r.result = .proceed →
        Effect host s (.command (.save name overwrite)) r

/-! ## Answers that change nothing -/

theorem effect_say {input : Input} (h : input.plain = true) (lines : List String) :
    Effect host s input (.say s lines) := .keep h rfl rfl

theorem effect_fail {input : Input} (h : input.plain = true) (f : Failure) :
    Effect host s input (.fail s f) := .keep h rfl rfl

/-! ## Terms and definitions -/

theorem result_runTerm_ne_quit (host : Host) (s : Session) (t : Term) :
    (s.runTerm host t).result ≠ .quit := by
  rcases s.result_runTerm_cases host t with h | h <;> rw [h] <;> exact nofun

theorem result_checkAndRun_ne_quit (host : Host) (s : Session) (t : Term) :
    (s.checkAndRun host t).result ≠ .quit := by
  unfold checkAndRun
  split
  · split
    · split
      · exact nofun
      · exact nofun
      · exact s.result_runTerm_ne_quit host t
    · exact s.result_runTerm_ne_quit host t
  · exact nofun

theorem result_enterTerm_ne_quit (host : Host) (s : Session) (t : Term) :
    (s.enterTerm host t).result ≠ .quit := by
  unfold enterTerm
  split
  · cases s.env.expand host.limits.depth t with
    | error e => exact nofun
    | ok expanded => exact s.result_checkAndRun_ne_quit host expanded
  · exact nofun

theorem endsLineOnly_withTerm {source : String} {answer : Term → Reply}
    (h : ∀ t, (answer t).result.endsLineOnly = true) :
    (s.withTerm host source answer).result.endsLineOnly = true := by
  unfold withTerm
  split
  · rfl
  · split
    · rfl
    · exact h _

theorem endsLineOnly_showType (s : Session) (t : Term) :
    (s.showType t).result.endsLineOnly = true := by
  unfold showType
  split <;> rfl

theorem endsLineOnly_showDerivation (s : Session) (t : Term) :
    (s.showDerivation t).result.endsLineOnly = true := by
  unfold showDerivation
  split
  · rfl
  · split <;> rfl

theorem endsLineOnly_listDefinitions (host : Host) (s : Session) :
    (s.listDefinitions host).result.endsLineOnly = true := by
  unfold listDefinitions
  dsimp only
  split <;> rfl

theorem effect_enter (host : Host) (s : Session) (source : String) :
    Effect host s (.statement source) (s.enter host source) := by
  unfold enter
  cases h : Statement.parse source with
  | error e => exact effect_fail rfl (.unparsable e)
  | ok statement =>
    cases statement with
    | term t =>
      exact .enterTerm h (s.session_enterTerm host t) (s.result_enterTerm_ne_quit host t)
    | definition d =>
      refine .define h ?_ ?_
      · show (s.enterDefinition host d).session = _
        unfold enterDefinition
        split <;> rfl
      · show (s.enterDefinition host d).result = _ ∨ (s.enterDefinition host d).result = _
        unfold enterDefinition
        split
        · exact .inl rfl
        · exact .inr rfl

/-! ## Libraries -/

theorem endsLineOnly_libraryReply (s : Session) (f : Library.Failure) :
    (s.libraryReply f).result.endsLineOnly = true := by
  cases f <;> rfl

/-- **Loading libraries** changes the environment only. -/
theorem load_frame (host : Host) (s : Session) (names : List String) :
    (s.load host names).session.settings = s.settings ∧
      (s.load host names).session.store = s.store ∧
      (s.load host names).result.endsLineOnly = true := by
  induction names generalizing s with
  | nil => exact ⟨rfl, rfl, rfl⟩
  | cons name names ih =>
    rw [load_cons]
    cases Library.load s.store s.settings.libraryPath name with
    | error f =>
      dsimp only
      rw [session_libraryReply]
      exact ⟨rfl, rfl, s.endsLineOnly_libraryReply f⟩
    | ok definitions =>
      dsimp only
      split
      · exact ih { s with env := (s.env.defineAll host.limits.depth definitions).1 }
      · exact ⟨rfl, rfl, rfl⟩

/-- The first library is loaded; then the others. -/
theorem load_cons_of_ok {name : String} {definitions : List Definition}
    (hload : Library.load s.store s.settings.libraryPath name = .ok definitions)
    (hfits : (s.env.defineAll host.limits.depth definitions).2 = true) (names : List String) :
    let s' := { s with env := (s.env.defineAll host.limits.depth definitions).1 }
    (s.load host (name :: names)).session = (s'.load host names).session ∧
      (s.load host (name :: names)).result = (s'.load host names).result := by
  intro s'
  rw [load_cons, hload]
  dsimp only
  rw [if_pos hfits]
  exact ⟨rfl, rfl⟩

/-- **Loading stops at the first library that fails**, and those before it stay
loaded: the session is the one that results from loading them alone. -/
theorem load_stops {f : Failure} (h : (s.load host names).result = .failed f)
    (hf : f ≠ .tooDeep) :
    ∃ before name after e, names = before ++ name :: after ∧
      (s.load host before).result = .proceed ∧
      Library.load s.store s.settings.libraryPath name = .error (.reported e) ∧
      f = .library e ∧ (s.load host names).session = (s.load host before).session := by
  induction names generalizing s with
  | nil => cases h
  | cons name names ih =>
    cases hload : Library.load s.store s.settings.libraryPath name with
    | error failure =>
      have hreply : s.load host (name :: names) = s.libraryReply failure := by
        rw [load_cons, hload]
      rw [hreply] at h
      cases failure with
      | fault fault => cases h
      | reported e =>
        cases h
        refine ⟨[], name, names, e, rfl, rfl, hload, rfl, ?_⟩
        rw [hreply]
        rfl
    | ok definitions =>
      by_cases hfits : (s.env.defineAll host.limits.depth definitions).2 = true
      · obtain ⟨hsession, hresult⟩ := load_cons_of_ok hload hfits names
        rw [hresult] at h
        obtain ⟨before, failing, after, e, rfl, hbefore, hfailing, rfl, hrest⟩ := ih h
        obtain ⟨hsession', hresult'⟩ := load_cons_of_ok hload hfits before
        refine ⟨name :: before, failing, after, e, rfl, ?_, hfailing, rfl, ?_⟩
        · rw [hresult', hbefore]
        · rw [hsession, hsession', hrest]
      · -- a definition nested too deeply is the other way to fail
        rw [load_cons, hload] at h
        dsimp only at h
        rw [if_neg hfits] at h
        cases h
        exact absurd rfl hf

theorem effect_save (host : Host) (s : Session) (name : String) (overwrite : Bool) :
    Effect host s (.command (.save name overwrite)) (s.save host name overwrite) := by
  simp only [save]
  split
  · exact effect_say rfl _
  split
  · cases hsave : Library.save s.store s.settings.libraryPath name overwrite host.stamp s.env with
    | error f => exact .keep rfl (s.session_libraryReply f) (s.endsLineOnly_libraryReply f)
    | ok store =>
      obtain ⟨-, location, hwritten⟩ := Library.exists_written_of_save hsave
      exact .save hwritten rfl rfl
  · split
    · exact effect_fail rfl _
    · exact effect_fail rfl _

/-! ## Lines -/

theorem removeEach_eq (s : Session) (names : List String) :
    (s.removeEach names).1 = { s with env := (s.removeEach names).1.env } := by
  induction names generalizing s with
  | nil => rfl
  | cons name names ih => exact ih { s with env := s.env.unbind name }

theorem effect_command (host : Host) (s : Session) (c : Command) :
    Effect host s (.command c) (s.command host c) := by
  cases c with
  | help => exact effect_say rfl _
  | quit => exact .stop (.inr rfl) rfl rfl
  | select strategy => exact .configure ({ · with strategy }) rfl (fun _ => rfl) rfl rfl
  | showStrategy => exact effect_say rfl _
  | showSteps on => exact .configure ({ · with showSteps := on }) rfl (fun _ => rfl) rfl rfl
  | showAliases on => exact .configure ({ · with showAliases := on }) rfl (fun _ => rfl) rfl rfl
  | checkTypes on => exact .configure ({ · with checkTypes := on }) rfl (fun _ => rfl) rfl rfl
  | listDefinitions => exact .keep rfl rfl (s.endsLineOnly_listDefinitions host)
  | remove names => exact .remove _ (s.removeEach_eq names) rfl
  | load names =>
    rw [command]
    exact .load names
  | save name overwrite =>
    rw [command]
    exact effect_save host s name overwrite
  | nameless source =>
    exact .keep rfl (session_withTerm fun _ => rfl)
      (endsLineOnly_withTerm fun _ => rfl)
  | typeOf source =>
    exact .keep rfl (session_withTerm s.session_showType)
      (endsLineOnly_withTerm s.endsLineOnly_showType)
  | derivation source =>
    exact .keep rfl (session_withTerm s.session_showDerivation)
      (endsLineOnly_withTerm s.endsLineOnly_showDerivation)
  | unknown name => exact effect_say rfl _

/-- **Every input has its effect.** -/
theorem effect_perform (host : Host) (s : Session) (input : Input) :
    Effect host s input (s.perform host input) := by
  cases input with
  | blank => exact effect_say rfl _
  | ending => exact .stop (.inl rfl) rfl rfl
  | command c => exact effect_command host s c
  | statement source => exact effect_enter host s source

/-- A report is shown and logged, and no more. -/
theorem report_frame (r : Reply) : (report r).session = r.session ∧ (report r).result = r.result := by
  unfold report
  split <;> exact ⟨rfl, rfl⟩

/-- **What an input may change**, given the session and the result it leads to. -/
structure Framed (host : Host) (s : Session) (input : Input) (s' : Session) (result : Result) :
    Prop where
  /-- The environment is changed only by definitions, by removals and by libraries. -/
  env : s'.env ≠ s.env →
    (∃ source d, input = .statement source ∧ Statement.parse source = .ok (.definition d)) ∨
      (∃ names, input = .command (.remove names)) ∨ ∃ names, input = .command (.load names)
  /-- The settings are changed only by their commands. -/
  settings : s'.settings ≠ s.settings → ∃ c : Command, input = .command c ∧ c.configures = true
  /-- The files are changed only by saving, and then by one write. -/
  store : s'.store ≠ s.store →
    ∃ name overwrite location, input = .command (.save name overwrite) ∧
      s.store.Written (Library.file s.settings.libraryPath name)
        (Library.dump host.stamp s.env).toUTF8 location s'.store
  /-- Questions change nothing. -/
  asked : input.Asks → s' = s
  /-- A failure that is reported has changed nothing, if no library was to be loaded. -/
  failed : ∀ f, result = .failed f → f ≠ .tooDeep → (∀ names, input ≠ .command (.load names)) →
    s' = s
  /-- Of the libraries to be loaded, those before the one that fails are loaded, and
  nothing else is changed. -/
  loaded : ∀ f names, result = .failed f → f ≠ .tooDeep → input = .command (.load names) →
    ∃ before name after e, names = before ++ name :: after ∧
      (s.load host before).result = .proceed ∧
      Library.load s.store s.settings.libraryPath name = .error (.reported e) ∧
      f = .library e ∧ s' = { s with env := (s.load host before).session.env }
  /-- The session is over only if that is what was asked for. -/
  stop : result = .quit ↔ input = .ending ∨ input = .command .quit

/-- **No input changes the budget.** -/
theorem Effect.budget_eq {input : Input} {r : Reply} (h : Effect host s input r) :
    r.session.settings.budget = s.settings.budget := by
  cases h with
  | keep _ hsession _ => rw [hsession]
  | enterTerm _ hsession _ => rw [hsession]
  | stop _ hsession _ => rw [hsession]
  | configure f _ hbudget hsession _ =>
    rw [hsession]
    exact hbudget s.settings
  | define _ hsession _ => rw [hsession]
  | remove env hsession _ => rw [hsession]
  | load names => rw [(load_frame host s names).1]
  | save _ hsession _ => rw [hsession]

/-- **Only a term that is entered leaves a line unfinished.** -/
theorem Effect.exists_term_of_unfinished {input : Input} {r : Reply} (h : Effect host s input r)
    (hr : r.result = .unfinished) :
    ∃ source t, input = .statement source ∧ Statement.parse source = .ok (.term t) := by
  cases h with
  | keep _ _ hends => exact absurd hr (Result.ne_unfinished hends)
  | enterTerm hparse _ _ => exact ⟨_, _, rfl, hparse⟩
  | stop _ _ hresult => rw [hresult] at hr; cases hr
  | configure _ _ _ _ hresult => rw [hresult] at hr; cases hr
  | define _ _ hresult => rcases hresult with h | h <;> rw [h] at hr <;> cases hr
  | remove _ _ hresult => rw [hresult] at hr; cases hr
  | load names => exact absurd hr (Result.ne_unfinished (load_frame host s names).2.2)
  | save _ _ hresult => rw [hresult] at hr; cases hr

/-- **Effects keep to the frame.** -/
theorem Effect.framed {input : Input} {r : Reply} (h : Effect host s input r) :
    Framed host s input r.session r.result := by
  cases h with
  | keep hplain hsession hresult =>
    have hload : ∀ names, input ≠ .command (.load names) := by
      rintro names rfl
      cases hplain
    have hstop : ¬ (input = .ending ∨ input = .command .quit) := by
      rintro (rfl | rfl) <;> cases hplain
    rw [hsession]
    exact {
      env := absurd rfl
      settings := absurd rfl
      store := absurd rfl
      asked := fun _ => rfl
      failed := fun _ _ _ _ => rfl
      loaded := fun _ names _ _ hinput => absurd hinput (hload names)
      stop := ⟨fun hquit => absurd hquit (Result.ne_quit hresult), fun hinput => absurd hinput hstop⟩ }
  | enterTerm _ hsession hresult =>
    rw [hsession]
    exact {
      env := absurd rfl
      settings := absurd rfl
      store := absurd rfl
      asked := fun _ => rfl
      failed := fun _ _ _ _ => rfl
      loaded := nofun
      stop := ⟨fun hquit => absurd hquit hresult, nofun⟩ }
  | stop hinput hsession hresult =>
    rw [hsession, hresult]
    exact {
      env := absurd rfl
      settings := absurd rfl
      store := absurd rfl
      asked := fun _ => rfl
      failed := nofun
      loaded := nofun
      stop := ⟨fun _ => hinput, fun _ => rfl⟩ }
  | @configure c _ f hc _ hsession hresult =>
    -- no question and no end of the session is a command for the settings
    have hasks : ¬ (Input.command c).Asks := by
      rintro (_ | _) <;> cases hc
    have hstop : ¬ (Input.command c = .ending ∨ Input.command c = .command .quit) := by
      rintro (hinput | hinput) <;> cases hinput
      cases hc
    rw [hsession, hresult]
    exact {
      env := absurd rfl
      settings := fun _ => ⟨c, rfl, hc⟩
      store := absurd rfl
      asked := fun h => absurd h hasks
      failed := nofun
      loaded := nofun
      stop := ⟨nofun, fun hinput => absurd hinput hstop⟩ }
  | @define source d _ hparse hsession hresult =>
    have hasks : ¬ (Input.statement source).Asks := by
      rintro ⟨hterm⟩
      rw [hparse] at hterm
      cases hterm
    have hquit : r.result ≠ .quit := by
      rcases hresult with hresult | hresult <;> rw [hresult] <;> exact nofun
    have hdeep : ∀ f, r.result = .failed f → f = .tooDeep := by
      intro f hf
      rcases hresult with hresult | hresult <;> rw [hresult] at hf <;> cases hf
      rfl
    rw [hsession]
    exact {
      env := fun _ => .inl ⟨source, d, rfl, hparse⟩
      settings := absurd rfl
      store := absurd rfl
      asked := fun h => absurd h hasks
      failed := fun f hf hne _ => absurd (hdeep f hf) hne
      loaded := nofun
      stop := ⟨fun h => absurd h hquit, nofun⟩ }
  | @remove names _ env hsession hresult =>
    rw [hsession, hresult]
    exact {
      env := fun _ => .inr (.inl ⟨names, rfl⟩)
      settings := absurd rfl
      store := absurd rfl
      asked := nofun
      failed := nofun
      loaded := nofun
      stop := ⟨nofun, nofun⟩ }
  | load names =>
    obtain ⟨hsettings, hstore, hends⟩ := load_frame host s names
    exact {
      env := fun _ => .inr (.inr ⟨names, rfl⟩)
      settings := absurd hsettings
      store := absurd hstore
      asked := nofun
      failed := fun _ _ _ hinput => absurd rfl (hinput names)
      loaded := by
        rintro f _ hfailed hf ⟨⟩
        obtain ⟨before, name, after, e, hnames, hproceed, hload, he, hsession⟩ :=
          load_stops hfailed hf
        obtain ⟨hsettings', hstore', -⟩ := load_frame host s before
        refine ⟨before, name, after, e, hnames, hproceed, hload, he, ?_⟩
        rw [hsession, ← hsettings', ← hstore']
      stop := ⟨fun h => absurd h (Result.ne_quit hends), nofun⟩ }
  | @save name overwrite _ store location hwritten hsession hresult =>
    rw [hsession, hresult]
    exact {
      env := absurd rfl
      settings := absurd rfl
      store := fun _ => ⟨name, overwrite, location, rfl, hwritten⟩
      asked := nofun
      failed := nofun
      loaded := nofun
      stop := ⟨nofun, nofun⟩ }

/-- **A line changes only what it may.** Whatever the session and whatever the line,
each of the three parts of a session is changed only by the inputs that are
there for it, and what is reported as a failure, unless a term was nested too
deeply, has changed nothing but for the libraries that a line had loaded
before one of them failed. -/
theorem line_framed (host : Host) (s : Session) (text : String) :
    Framed host s (.parse text) (s.line host text).session (s.line host text).result := by
  obtain ⟨hsession, hresult⟩ := report_frame (s.perform host (.parse text))
  rw [line, hsession, hresult]
  exact (effect_perform host s (.parse text)).framed

end Session

end LambdaShell
