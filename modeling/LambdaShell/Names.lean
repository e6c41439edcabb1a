/-!
# Sets of names, in order

Names are listed in increasing order of their code points and without
repetition wherever the program goes through a set of names: the free names
of a term when it is expanded or checked.
-/

namespace LambdaShell

namespace Names

/-- A name put into its place in an increasing list, unless it is there. -/
def place (name : String) : List String → List String
  | [] => [name]
  | n :: ns =>
    if name = n then n :: ns
    else if name < n then name :: n :: ns
    else n :: place name ns

/-- **The names of a list in increasing order, each once.** -/
def sorted : List String → List String
  | [] => []
  | n :: ns => place n (sorted ns)

@[simp] theorem mem_place {x name : String} {ns : List String} :
    x ∈ place name ns ↔ x = name ∨ x ∈ ns := by
  induction ns with
  | nil => simp [place]
  | cons n ns ih =>
    simp only [place]
    split
    · rename_i h; subst h; simp
    · split
      · simp
      · simp only [List.mem_cons, ih]
        constructor
        · rintro (h | h | h) <;> simp_all
        · rintro (h | h | h) <;> simp_all

@[simp] theorem mem_sorted {x : String} {ns : List String} : x ∈ sorted ns ↔ x ∈ ns := by
  induction ns with
  | nil => simp [sorted]
  | cons n ns ih => simp [sorted, ih]

end Names

end LambdaShell
