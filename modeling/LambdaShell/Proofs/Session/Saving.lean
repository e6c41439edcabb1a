import LambdaShell.Proofs.Library.RoundTrip
import LambdaShell.Proofs.Session.Edits

/-!
# Sessions — saved definitions come back

A session begins without definitions and then follows its lines. Whatever
these are, all the definitions it has come from a text and can be written,
so a library made of them is read as the same definitions; and as long as
none of them was cut short for being nested too deeply, binding them one
after another makes the same environment again
(`saved_library_loads`). Between two lines the settings may be
changed and the files may become any others: nothing is asked of the store
that a library is loaded from.
-/

namespace LambdaShell

namespace Session

/-- **The environments that sessions come to** from the empty one, line by line,
with any settings and files at each line. No definition fails: those a line
makes, of which its log tells, are nested within the limit. -/
inductive Reached : Environment → Prop where
  | empty : Reached .empty
  | line (host : Host) (s : Session) (text : String) :
      Reached s.env →
      (∀ x t, Log.Message.defined x t ∈ (s.line host text).log →
        t.fits host.limits.depth = true) →
      Reached (s.line host text).session.env

variable {env : Environment}

theorem Reached.wellNamed (h : Reached env) : ∀ d ∈ env.definitions, d.wellNamed = true := by
  induction h with
  | empty => exact fun d hd => absurd hd List.not_mem_nil
  | line host s text _ _ ih => exact (edited_line host s text).wellNamed ih

theorem Reached.inStep (h : Reached env) : env.InStep := by
  induction h with
  | empty => exact Environment.inStep_empty
  | line host s text _ hlog ih => exact (edited_line host s text).inStep hlog ih

/-- **Saved libraries load back unchanged.** The text of a library made of the
environment of a session is read as the definitions of the environment, in
order and with their annotations, whatever the time is, as long as it is on
one line. Bound one after another, the definitions make an environment with
the same definitions again, in which every term has the same name or none
as well. -/
theorem saved_library_loads (henv : Reached env) {stamp : String}
    (hstamp : '\n' ∉ stamp.toList) :
    Definition.parseAll (Library.dump stamp env) = .ok env.definitions ∧
      (Environment.ofList env.definitions).definitions = env.definitions ∧
      ∀ t, (Environment.ofList env.definitions).aliasOf t = env.aliasOf t := by
  have hbuilt : Environment.ofList env.definitions = env := henv.inStep.ofList_definitions
  refine ⟨Library.parseAll_dump hstamp henv.wellNamed, ?_, ?_⟩
  · rw [hbuilt]
  · intro t
    rw [hbuilt]

/-- A name is defined with an annotation; a library is loaded that defines another
one and replaces the first, in its place. -/
theorem saved_library_loads_replaced :
    let library := "g = \\x y. f x; # a note\nf = λx:A -> B. x;"
    let host : Host := ⟨.standard, ""⟩
    let store := (Storage.Store.empty []).addFile ["lib.lbd"] library.toUTF8
    let first := (Session.line host ⟨.default, .empty, store⟩ "f = λx:A. x").session
    let env := (first.line host ":load lib").session.env
    Reached env ∧ env.names = ["f", "g"] ∧
      Definition.parseAll (Library.dump "2024-01-02 03:04:05" env) = .ok env.definitions ∧
      ∀ t, (Environment.ofList env.definitions).aliasOf t = env.aliasOf t := by
  intro library host store first env
  -- the messages can be gone through, since there are finitely many
  let within : Log.Message → Bool
    | .defined _ t => t.fits host.limits.depth
    | _ => true
  have hfits : ∀ {log : List Log.Message}, log.all within = true →
      ∀ x t, Log.Message.defined x t ∈ log → t.fits host.limits.depth = true := by
    intro log hlog x t hmem
    exact List.all_eq_true.1 hlog _ hmem
  have hfirst : Reached first.env := .line host _ _ .empty (hfits (by decide +kernel))
  have henv : Reached env := .line host first _ hfirst (hfits (by decide +kernel))
  have hstamp : '\n' ∉ "2024-01-02 03:04:05".toList := by decide
  obtain ⟨hparse, -, halias⟩ := saved_library_loads henv hstamp
  exact ⟨henv, by decide +kernel, hparse, halias⟩

end Session

end LambdaShell
