import LambdaShell.Proofs.Environment.Refinement
import LambdaShell.Proofs.Library.Files
import LambdaShell.Proofs.Session.Saving
import LambdaShell.Proofs.Text.Trimming

/-!
# Sessions — a session is saved and loaded again

Two lines with the same argument are to undo each other: `:save` writes the
definitions of a session to a file, and `:load` makes them again in another
session. Between the two lie the reading of the argument, the path of the
library, the bytes of the file, the text and the order of the definitions.

The two commands read their argument in different ways. The name of a
library that is saved is the argument as a whole, while the argument of
`:load` is a list of names. For an argument of one word this is the same
(`load_line_of_save_line`), and for one of several words it is not: what is
saved under such a name is not found again
(`load_line_of_save_line_two_words`).
-/

namespace LambdaShell

namespace Session

/-! ## The argument of a command -/

/-- What follows a space, without the blanks at the end, is nothing or begins with
the space. -/
theorem rest_cases (cs : List Char) :
    (' ' :: cs).rdropWhile Text.isBlank = [] ∨
      ∃ cs', (' ' :: cs).rdropWhile Text.isBlank = ' ' :: cs' := by
  rw [Text.rdropWhile_cons]
  split
  · exact .inl rfl
  · exact .inr ⟨_, rfl⟩

theorem Command.parse_append (name : String) (hne : name ≠ "")
    (hname : Text.hasBlank name = false) (argument : String) :
    Command.parse (String.ofList
        (name.toList ++ (' ' :: argument.toList).rdropWhile Text.isBlank)) =
      .ofName name (Text.trim argument) := by
  rw [Text.hasBlank_eq_false_iff] at hname
  have hnil : name.toList ≠ [] := fun h => hne (String.toList_eq_nil_iff.1 h)
  have htrim : Text.stripWhere Text.isBlank
      (name.toList ++ (' ' :: argument.toList).rdropWhile Text.isBlank) =
        name.toList ++ (' ' :: argument.toList).rdropWhile Text.isBlank := by
    rw [Text.stripWhere_append hnil hname, List.rdropWhile_idempotent]
  -- the name ends at the first space, where the rest begins if there is any
  have hspace : ∀ c ∈ name.toList, decide (c ≠ ' ') = true := by
    intro c hc
    refine decide_eq_true ?_
    rintro rfl
    exact absurd (hname ' ' hc) (by decide)
  have hargument : Text.stripWhere Text.isBlank
      ((' ' :: argument.toList).rdropWhile Text.isBlank) =
        Text.stripWhere Text.isBlank argument.toList := by
    have hspace : Text.isBlank ' ' = true := by decide
    rw [Text.stripWhere_eq, Text.dropWhile_rdropWhile, List.rdropWhile_idempotent,
      List.dropWhile_cons_of_pos hspace, Text.stripWhere_eq]
  simp only [parse, Text.trim, String.toList_ofList, htrim, List.takeWhile_append_of_pos hspace,
    List.dropWhile_append_of_pos hspace]
  rcases rest_cases argument.toList with hrest | ⟨cs, hrest⟩ <;> rw [hrest] at hargument ⊢
  · rw [List.takeWhile_nil, List.append_nil, String.ofList_toList, ← hargument]
    rfl
  · rw [List.takeWhile_cons_of_neg (by simp), List.append_nil, String.ofList_toList,
      List.dropWhile_cons_of_neg (by simp), hargument]

/-- **A line with a command**: the name of the command is the word after the colon,
and its argument is what follows, trimmed. -/
theorem Input.parse_command (name : String) (hne : name ≠ "")
    (hname : Text.hasBlank name = false) (argument : String) :
    Input.parse (":" ++ name ++ " " ++ argument) =
      .command (.ofName name (Text.trim argument)) := by
  have htext : (":" ++ name ++ " " ++ argument).toList =
      (':' :: name.toList) ++ ' ' :: argument.toList := by simp
  have hword : ∀ c ∈ ':' :: name.toList, Text.isBlank c = false := by
    intro c hc
    rcases List.mem_cons.1 hc with rfl | hc
    · decide
    · exact Text.hasBlank_eq_false_iff.1 hname c hc
  have hline : Text.trim (":" ++ name ++ " " ++ argument) = String.ofList
      (':' :: (name.toList ++ (' ' :: argument.toList).rdropWhile Text.isBlank)) := by
    rw [Text.trim, htext, Text.stripWhere_append (List.cons_ne_nil _ _) hword, List.cons_append]
  rw [Input.parse, hline]
  simp only [String.toList_ofList, Command.parse_append name hne hname]

theorem parse_save (a : String) :
    Input.parse (":save " ++ a) = .command (.save (Text.trim a) false) :=
  Input.parse_command "save" (by decide) (by decide) a

/-- An argument of one word names one library to be loaded. -/
theorem parse_load {a : String} (hne : Text.trim a ≠ "")
    (hword : Text.hasBlank (Text.trim a) = false) :
    Input.parse (":load " ++ a) = .command (.load [Text.trim a]) := by
  have hparse : Input.parse (":load " ++ a) = .command (.load (Text.words (Text.trim a))) :=
    Input.parse_command "load" (by decide) (by decide) a
  rw [hparse, Text.words_of_no_blank hne hword]

/-! ## What is reported as saved -/

/-- The first character of a line. -/
def initial (line : String) : Option Char := line.toList.head?

theorem initial_append {a : String} {c : Char} (h : initial a = some c) (b : String) :
    initial (a ++ b) = some c := by
  unfold initial at h ⊢
  rw [String.toList_append, List.head?_append, h, Option.some_or]

/-- **The session says that its definitions were saved.** -/
def Reply.ReportsSaving (r : Reply) : Prop :=
  ∃ name, "Environment saved to library " ++ name ∈ r.lines

theorem Reply.ReportsSaving.exists_initial {r : Reply} (h : r.ReportsSaving) :
    ∃ line ∈ r.lines, initial line = some 'E' := by
  obtain ⟨name, hline⟩ := h
  exact ⟨_, hline, initial_append (by decide) name⟩

/-- What a library error says begins with another letter. -/
theorem initial_libraryError (e : LibraryError) : initial e.message ≠ some 'E' := by
  have hother : ∀ c : Char, c ≠ 'E' → initial e.message = some c → initial e.message ≠ some 'E' := by
    rintro c hc hinitial
    rw [hinitial]
    exact fun h => hc (Option.some.inj h)
  cases e with
  | unreadable name path e =>
    refine hother 'U' (by decide) ?_
    exact initial_append (initial_append (initial_append (by decide) _) _) _
  | corrupted path e =>
    refine hother 'F' (by decide) ?_
    exact initial_append (initial_append (initial_append (by decide) _) _) _
  | alreadyExists name =>
    refine hother 'A' (by decide) ?_
    exact initial_append (initial_append (by decide) _) _
  | unwritable name path e =>
    refine hother 'U' (by decide) ?_
    exact initial_append (initial_append (initial_append (by decide) _) _) _

variable {host : Host} {s : Session} {name : String} {overwrite : Bool}

theorem not_reportsSaving_fail {f : Failure} (hf : initial f.message ≠ some 'E') :
    ¬ (report (.fail s f)).ReportsSaving := by
  intro h
  obtain ⟨line, hline, hinitial⟩ := h.exists_initial
  rw [List.mem_singleton.1 hline] at hinitial
  exact hf hinitial

/-- **Only a library that was saved is reported as saved.** -/
theorem exists_save_of_reportsSaving (h : (report (s.save host name overwrite)).ReportsSaving) :
    name ≠ "" ∧ (∀ d ∈ s.env.definitions, d.term.fits host.limits.depth = true) ∧
      Library.save s.store s.settings.libraryPath name overwrite host.stamp s.env =
        .ok (report (s.save host name overwrite)).session.store := by
  simp only [save] at h ⊢
  by_cases hname : name = ""
  · rw [if_pos hname] at h
    obtain ⟨line, hline, hinitial⟩ := h.exists_initial
    rw [List.mem_singleton.1 hline] at hinitial
    exact absurd hinitial (by decide)
  rw [if_neg hname] at h ⊢
  by_cases hfits : s.env.definitions.all (·.term.fits host.limits.depth) = true
  · rw [if_pos hfits] at h ⊢
    cases hsave : Library.save s.store s.settings.libraryPath name overwrite host.stamp s.env with
    | ok store => exact ⟨hname, List.all_eq_true.1 hfits, rfl⟩
    | error f =>
      rw [hsave] at h
      cases f with
      | reported e => exact absurd h (not_reportsSaving_fail (initial_libraryError e))
      | fault f =>
        obtain ⟨line, hline, -⟩ := h.exists_initial
        cases hline
  · rw [if_neg hfits] at h
    split at h
    · exact absurd h (not_reportsSaving_fail (initial_libraryError _))
    · exact absurd h (not_reportsSaving_fail (by decide))

/-! ## The two lines -/

theorem line_save (host : Host) (s : Session) (a : String) :
    s.line host (":save " ++ a) = report (s.save host (Text.trim a) false) := by
  rw [line, parse_save, perform, command]

/-- A library is loaded, and no other. -/
theorem load_singleton {settings : Settings} {store : Storage.Store} {env env' : Environment}
    {definitions : List Definition}
    (hload : Library.load store settings.libraryPath name = .ok definitions)
    (hdefined : env.defineAll host.limits.depth definitions = (env', true)) :
    (load host ⟨settings, env, store⟩ [name]).session = ⟨settings, env', store⟩ ∧
      (load host ⟨settings, env, store⟩ [name]).lines =
        ["Library " ++ name ++ " loaded in the environment"] ∧
      (load host ⟨settings, env, store⟩ [name]).result = .proceed := by
  rw [load_cons]
  dsimp only
  rw [hload]
  dsimp only
  rw [hdefined]
  exact ⟨rfl, rfl, rfl⟩

/-- **What a session has saved, another one loads.** Take any session that came to
its definitions line by line, and any argument without a blank between its
first and its last character. If the session says that it has saved its
definitions under the argument, then a session without definitions that has
the files of the first and looks for libraries in the same directory loads
them by the same argument, without a failure, and has the same definitions in
the same order afterwards, and so the same names for every term. The time of
saving has to be written on one line, and the two sessions must allow terms
the same depth. -/
theorem load_line_of_save_line (host later : Host) (s : Session) (settings : Settings) (a : String)
    (henv : Reached s.env) (hstamp : Text.oneLine host.stamp = true)
    (hword : Text.hasBlank (Text.trim a) = false)
    (hlimits : later.limits = host.limits) (hpath : settings.libraryPath = s.settings.libraryPath)
    (hsaved : (s.line host (":save " ++ a)).ReportsSaving) :
    let store := (s.line host (":save " ++ a)).session.store
    let fresh : Session := ⟨settings, .empty, store⟩
    let loading := fresh.line later (":load " ++ a)
    loading.result = .proceed ∧
      loading.lines = ["Library " ++ Text.trim a ++ " loaded in the environment"] ∧
      loading.session.env = s.env := by
  intro store fresh loading
  rw [line_save] at hsaved
  obtain ⟨hne, hfits, hstore⟩ := exists_save_of_reportsSaving hsaved
  rw [← line_save] at hstore
  obtain ⟨haccepted, location, hwritten⟩ := Library.exists_written_of_save hstore
  have hload : Library.load store settings.libraryPath (Text.trim a) = .ok s.env.definitions := by
    rw [hpath]
    exact Library.load_of_written hstamp henv.wellNamed haccepted hwritten
  -- in order, the definitions make the environment that they were taken from
  have hdefined : Environment.empty.defineAll later.limits.depth s.env.definitions =
      (s.env, true) := by
    rw [hlimits, Environment.empty.defineAll_of_fits hfits]
    exact congrArg (·, true) henv.inStep.ofList_definitions
  obtain ⟨hsession, hlines, hresult⟩ := load_singleton hload hdefined
  have hloading : loading = fresh.load later [Text.trim a] := by
    show report (fresh.perform later (.parse (":load " ++ a))) = _
    rw [parse_load hne hword, perform, command, report_eq_self (by rw [hresult]; rintro f ⟨⟩)]
  rw [hloading, hsession]
  exact ⟨hresult, hlines, rfl⟩

/-- Whether a message tells of no definition that is nested too deeply. -/
def within (depth : Option Nat) : Log.Message → Bool
  | .defined _ t => t.fits depth
  | _ => true

/-- A line is one more step of a session if its log can be gone through. -/
theorem Reached.line_of_all {host : Host} {s : Session} (h : Reached s.env) (text : String)
    (hlog : (s.line host text).log.all (within host.limits.depth) = true) :
    Reached (s.line host text).session.env := by
  refine .line host s text h fun x t hmem => ?_
  exact List.all_eq_true.1 hlog _ hmem

/-- Two definitions, one of them annotated, are saved and loaded under a name with
blanks around it, by sessions with different strategies. -/
theorem load_line_of_save_line_padded :
    let host : Host := ⟨.standard, "2024-01-02 03:04:05"⟩
    let start : Session := ⟨.default, .empty, .empty []⟩
    let first := (start.line host "f = λx:A. x").session
    let s := (first.line host "I = λx. f x").session
    let saving := s.line host (":save " ++ "  std ")
    let fresh : Session := ⟨{ Settings.default with strategy := .normalOrder }, .empty,
      saving.session.store⟩
    let loading := fresh.line host (":load " ++ "  std ")
    Reached s.env ∧ s.env.names = ["f", "I"] ∧ saving.ReportsSaving ∧
      loading.result = .proceed ∧ loading.lines = ["Library std loaded in the environment"] ∧
      loading.session.env = s.env := by
  intro host start first s saving fresh loading
  have hfirst : Reached first.env := Reached.empty.line_of_all (s := start) _ (by decide +kernel)
  have hs : Reached s.env := hfirst.line_of_all _ (by decide +kernel)
  have hsaving : saving.ReportsSaving := ⟨"std", by decide +kernel⟩
  obtain ⟨hresult, hlines, henv⟩ :=
    load_line_of_save_line host host s { Settings.default with strategy := .normalOrder } "  std "
      hs (by decide) (by decide) rfl (by decide +kernel) hsaving
  refine ⟨hs, by decide +kernel, hsaving, hresult, ?_, henv⟩
  rw [hlines]
  decide

/-- **A name of two words** is saved under and not found again: each of the words is
taken for the name of a library. -/
theorem load_line_of_save_line_two_words :
    let host : Host := ⟨.standard, "2024-01-02 03:04:05"⟩
    let start : Session := ⟨.default, .empty, .empty []⟩
    let s := (start.line host "I = λx. x").session
    let saving := s.line host (":save " ++ "my lib")
    let fresh : Session := ⟨.default, .empty, saving.session.store⟩
    let loading := fresh.line host (":load " ++ "my lib")
    Reached s.env ∧ s.env.names = ["I"] ∧ saving.ReportsSaving ∧
      loading.result = .failed (.library (.unreadable "my" (.parse "my.lbd") .missing)) ∧
      loading.session.env.names = [] := by
  intro host start s saving fresh loading
  have hs : Reached s.env := Reached.empty.line_of_all (s := start) _ (by decide +kernel)
  exact ⟨hs, by decide +kernel, ⟨"my lib", by decide +kernel⟩, by decide +kernel,
    by decide +kernel⟩

end Session

end LambdaShell
