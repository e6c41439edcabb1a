import LambdaShell.Storage.Store

/-!
# Storage — what a write changes

A write puts a file at the one location that its path leads to, and leaves
all others as they were (`Written`). Since directories are never written
over, every path leads afterwards where it led before, as long as it went
through directories only; so the path of the write leads to the new file,
and reading it gives back what was written (`Written.read_eq`).
-/

namespace LambdaShell

namespace Storage

namespace Store

variable {s s' : Store} {path : Path} {content : ByteArray} {location : Location}

/-- **A write**: the path leads to a location that is no directory, and the content
stands there afterwards as a file. Nothing else is changed. -/
structure Written (s : Store) (path : Path) (content : ByteArray) (location : Location)
    (s' : Store) : Prop where
  located : s.locate path = .ok location
  not_directory : s.entryAt location ≠ some .directory
  entry : s'.entryAt location = some (.file content)
  current : s'.current = s.current
  others : ∀ other, other ≠ location → s'.entryAt other = s.entryAt other

/-- The top is a directory, so nothing is written there. -/
theorem ne_nil_of_not_directory (h : s.entryAt location ≠ some .directory) : location ≠ [] := by
  rintro rfl
  exact h rfl

theorem exists_written_of_write (h : s.write path content = .ok s') :
    ∃ location, s.Written path content location s' := by
  unfold write at h
  split at h
  · cases h
  · rename_i location hlocated
    split at h
    · cases h
    · rename_i hentry
      cases h
      have hne : location ≠ [] := ne_nil_of_not_directory hentry
      refine ⟨location, hlocated, hentry, ?_, rfl, fun other hother => ?_⟩
      · rw [entryAt, if_neg hne]
        exact OrderedMap.get?_insert_self _ _ _
      · simp only [entryAt, OrderedMap.get?_insert_of_ne _ hother]

namespace Written

/-- **Paths lead where they led**: on the way there are directories only. -/
theorem walk_eq (h : s.Written path content location s') {start goal : Location}
    {parts : List String} (hwalk : s.walk start parts = .ok goal) :
    s'.walk start parts = .ok goal := by
  induction parts generalizing start with
  | nil => exact hwalk
  | cons part parts ih =>
    have hstart : s.entryAt start = some .directory := by
      unfold walk at hwalk
      split at hwalk
      · cases hwalk
      · cases hwalk
      · assumption
    have hne : start ≠ location := by
      rintro rfl
      exact h.not_directory hstart
    have hstart' : s'.entryAt start = some .directory := by rw [h.others start hne, hstart]
    rw [walk, hstart] at hwalk
    rw [walk, hstart']
    exact ih hwalk

/-- **What was written is read.** -/
theorem read_eq (h : s.Written path content location s') : s'.read path = .ok content := by
  have horigin : s'.origin path = s.origin path := by
    unfold origin
    rw [h.current]
  have hlocated : s'.locate path = .ok location := by
    rw [locate, horigin]
    exact h.walk_eq h.located
  rw [read, hlocated]
  simp only [h.entry]

end Written

end Store

end Storage

end LambdaShell
