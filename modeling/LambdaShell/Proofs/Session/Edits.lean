import LambdaShell.Proofs.Concrete.Naming
import LambdaShell.Proofs.Environment.Forms
import LambdaShell.Session.Basic

/-!
# Sessions — what a line does to the environment

Many things can be entered, and all they can do to the environment is to
define names and to remove names. `Edited` says so once for every line
(`edited_line`): the definitions come from a text, so that they can be
written, and each is reported in the log before it is made, whether it
succeeds or not. What holds of all environments that sessions come to is
read off this relation by induction, without looking at commands again.
-/

namespace LambdaShell

open Log (Message)

namespace Environment

variable {depth : Option Nat} {log log' : List Message} {env env' env'' : Environment}

/-- **The second environment comes from the first** by definitions of what can be
written, each of them reported in the log, and by removals. -/
inductive Edited (depth : Option Nat) (log : List Message) (env : Environment) :
    Environment → Prop where
  | refl : Edited depth log env env
  | define {env' : Environment} (d : Definition) :
      Edited depth log env env' → d.wellNamed = true → .defined d.name d.term ∈ log →
        Edited depth log env (env'.define depth d.name d.term)
  | unbind {env' : Environment} (x : String) :
      Edited depth log env env' → Edited depth log env (env'.unbind x)

namespace Edited

theorem trans (h : Edited depth log env env') (h' : Edited depth log env' env'') :
    Edited depth log env env'' := by
  induction h' with
  | refl => exact h
  | define d _ hd hlog ih => exact .define d ih hd hlog
  | unbind x _ ih => exact .unbind x ih

/-- A longer log reports the same definitions. -/
theorem mono (h : Edited depth log env env') (hlog : log ⊆ log') :
    Edited depth log' env env' := by
  induction h with
  | refl => exact .refl
  | define d _ hd hmem ih => exact .define d ih hd (hlog hmem)
  | unbind x _ ih => exact .unbind x ih

/-- **What holds of all definitions that can be written**, and of those there were,
holds of those there are. -/
theorem forall_mem {P : Definition → Prop} (hP : ∀ d, d.wellNamed = true → P d)
    (h : Edited depth log env env') (henv : ∀ d ∈ env.definitions, P d) :
    ∀ d ∈ env'.definitions, P d := by
  induction h with
  | refl => exact henv
  | define d _ hd _ ih =>
    intro d' hd'
    rcases mem_definitions_define hd' with rfl | hd'
    · exact hP _ hd
    · exact ih d' hd'
  | unbind x _ ih => exact fun d hd => ih d (mem_definitions_unbind hd)

/-- **Definitions that can be written** stay the only ones. -/
theorem wellNamed (h : Edited depth log env env')
    (henv : ∀ d ∈ env.definitions, d.wellNamed = true) :
    ∀ d ∈ env'.definitions, d.wellNamed = true :=
  h.forall_mem (fun _ hd => hd) henv

/-- **The forms stay in step** if no definition is nested too deeply. -/
theorem inStep (h : Edited depth log env env')
    (hlog : ∀ x t, Message.defined x t ∈ log → t.fits depth = true) (henv : env.InStep) :
    env'.InStep := by
  induction h with
  | refl => exact henv
  | define d _ _ hmem ih =>
    rw [Environment.define, if_pos (hlog d.name d.term hmem)]
    exact ih.bind d.name d.term
  | unbind x _ ih => exact ih.unbind x

end Edited

/-- The definitions of a library are edits, up to the first that is nested too
deeply. -/
theorem edited_defineAll {ds : List Definition} (hds : ∀ d ∈ ds, d.wellNamed = true) :
    Edited depth (defineAllMessages depth ds) env (env.defineAll depth ds).1 := by
  induction ds generalizing env with
  | nil => exact .refl
  | cons d ds ih =>
    have hfirst : Edited depth (defineAllMessages depth (d :: ds)) env
        (env.define depth d.name d.term) :=
      .define d .refl (hds d List.mem_cons_self) List.mem_cons_self
    unfold define at hfirst
    unfold defineAll
    by_cases hfits : d.term.fits depth = true
    · rw [if_pos hfits] at hfirst ⊢
      refine hfirst.trans ((ih fun d' hd' => hds d' (List.mem_cons_of_mem _ hd')).mono ?_)
      rw [defineAllMessages, if_pos hfits]
      exact List.subset_cons_self _ _
    · rw [if_neg hfits] at hfirst ⊢
      exact hfirst

end Environment

namespace Session

open Environment (Edited)

variable {host : Host} {s : Session}

/-- A reply whose session has an edited environment. -/
def Reply.Edits (host : Host) (s : Session) (r : Reply) : Prop :=
  Edited host.limits.depth r.log s.env r.session.env

/-- A reply that leaves the session as it is edits nothing. -/
theorem Reply.edits_of_session {r : Reply} (h : r.session = s) : r.Edits host s := by
  rw [Reply.Edits, h]
  exact .refl

/-! ## Terms -/

theorem session_checkAndRun (host : Host) (s : Session) (t : Term) :
    (s.checkAndRun host t).session = s := by
  unfold checkAndRun
  split
  · split
    · split <;> rfl
    · rfl
  · rfl

theorem session_enterTerm (host : Host) (s : Session) (t : Term) :
    (s.enterTerm host t).session = s := by
  unfold enterTerm
  split
  · cases s.env.expand host.limits.depth t with
    | error e => rfl
    | ok expanded => exact s.session_checkAndRun host expanded
  · rfl

/-- A question about a term leaves the session as the answer does. -/
theorem session_withTerm {source : String} {answer : Term → Reply}
    (h : ∀ t, (answer t).session = s) : (s.withTerm host source answer).session = s := by
  unfold withTerm
  split
  · rfl
  · split
    · rfl
    · exact h _

theorem session_showType (s : Session) (t : Term) : (s.showType t).session = s := by
  unfold showType
  split <;> rfl

theorem session_showDerivation (s : Session) (t : Term) : (s.showDerivation t).session = s := by
  unfold showDerivation
  split
  · rfl
  · split <;> rfl

/-! ## Definitions -/

theorem edits_enterDefinition {d : Definition} (hd : d.wellNamed = true) :
    (s.enterDefinition host d).Edits host s := by
  unfold enterDefinition
  split
  · exact .define d .refl hd List.mem_cons_self
  · exact .define d .refl hd List.mem_cons_self

theorem edits_enter (host : Host) (s : Session) (source : String) :
    (s.enter host source).Edits host s := by
  unfold enter
  cases h : Statement.parse source with
  | error e => exact .refl
  | ok statement =>
    have hnamed : statement.wellNamed = true :=
      Grammar.Start.statement.wellNamed_of_parse h
    cases statement with
    | definition d => exact edits_enterDefinition hnamed
    | term t => exact Reply.edits_of_session (s.session_enterTerm host t)

/-! ## Removal and libraries -/

theorem edited_removeEach (depth : Option Nat) (log : List Message) (s : Session)
    (names : List String) : Edited depth log s.env (s.removeEach names).1.env := by
  induction names generalizing s with
  | nil => exact .refl
  | cons x names ih => exact (Edited.unbind x .refl).trans (ih { s with env := s.env.unbind x })

/-- What is loaded from a library can be written. -/
theorem wellNamed_of_load {store : Storage.Store} {directory : Storage.Path} {name : String}
    {ds : List Definition} (h : Library.load store directory name = .ok ds) :
    ∀ d ∈ ds, d.wellNamed = true := by
  simp only [Library.load] at h
  -- the one way to succeed is to read the text of the file
  split at h
  · split at h
    · cases h
    · split at h
      · cases h
      · split at h
        · cases h
        · rename_i hparse
          cases h
          exact List.all_eq_true.1 (Grammar.Start.library.wellNamed_of_parse hparse)
  · cases h

theorem session_libraryReply (s : Session) (f : Library.Failure) :
    (s.libraryReply f).session = s := by
  cases f <;> rfl

section LoadEquation

-- reading a library is not to be computed while the equation is checked
attribute [local irreducible] Library.load

/-- Libraries are loaded one after another. -/
theorem load_cons (host : Host) (s : Session) (name : String) (names : List String) :
    s.load host (name :: names) =
      match Library.load s.store s.settings.libraryPath name with
      | .error f => s.libraryReply f
      | .ok definitions =>
        let defined := s.env.defineAll host.limits.depth definitions
        let s' := { s with env := defined.1 }
        let log := Environment.defineAllMessages host.limits.depth definitions
        if defined.2 then
          let path := Library.file s.settings.libraryPath name
          (s'.load host names).after ["Library " ++ name ++ " loaded in the environment"]
            (log ++ [.loaded path definitions.length])
        else ⟨s', [], log, .failed .tooDeep⟩ := rfl

end LoadEquation

theorem edits_load (host : Host) (s : Session) (names : List String) :
    (s.load host names).Edits host s := by
  induction names generalizing s with
  | nil => exact .refl
  | cons name names ih =>
    rw [load_cons]
    cases hload : Library.load s.store s.settings.libraryPath name with
    | error f => exact Reply.edits_of_session (s.session_libraryReply f)
    | ok definitions =>
      have hdefined : Edited host.limits.depth
          (Environment.defineAllMessages host.limits.depth definitions) s.env
          (s.env.defineAll host.limits.depth definitions).1 :=
        Environment.edited_defineAll (wellNamed_of_load hload)
      dsimp only
      split
      · -- the libraries after it are loaded into what this one has made
        have hrest := ih { s with env := (s.env.defineAll host.limits.depth definitions).1 }
        refine (hdefined.mono ?_).trans (hrest.mono ?_)
        · exact List.Subset.trans (List.subset_append_left _ _) (List.subset_append_left _ _)
        · exact List.subset_append_right _ _
      · exact hdefined

theorem env_save (host : Host) (s : Session) (name : String) (overwrite : Bool) :
    (s.save host name overwrite).session.env = s.env := by
  simp only [save]
  split
  · rfl
  · split
    · split
      · rw [session_libraryReply]
      · rfl
    · split <;> rfl

/-! ## Lines -/

theorem edits_command (host : Host) (s : Session) (c : Command) :
    (s.command host c).Edits host s := by
  cases c with
  | remove names => exact edited_removeEach _ _ s names
  | load names =>
    rw [command]
    exact edits_load host s names
  | save name overwrite =>
    rw [command, Reply.Edits]
    rw [env_save]
    exact .refl
  | nameless source => exact Reply.edits_of_session (session_withTerm fun _ => rfl)
  | typeOf source => exact Reply.edits_of_session (session_withTerm s.session_showType)
  | derivation source => exact Reply.edits_of_session (session_withTerm s.session_showDerivation)
  | _ => exact .refl

theorem edits_perform (host : Host) (s : Session) (input : Input) :
    (s.perform host input).Edits host s := by
  cases input with
  | blank => exact .refl
  | ending => exact .refl
  | command c => exact edits_command host s c
  | statement source => exact edits_enter host s source

/-- Reporting a failure adds to the log and edits nothing. -/
theorem Reply.Edits.report {r : Reply} (h : r.Edits host s) : (report r).Edits host s := by
  unfold Session.report
  split
  · exact Edited.mono h (List.subset_append_left _ _)
  · exact h

/-- **What a line does to the environment.** -/
theorem edited_line (host : Host) (s : Session) (text : String) :
    Edited host.limits.depth (s.line host text).log s.env (s.line host text).session.env := by
  rw [line]
  exact (edits_perform host s (.parse text)).report

end Session

end LambdaShell
