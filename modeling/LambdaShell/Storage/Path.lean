/-!
# Storage — paths

A path is a root and a list of parts. Empty parts and the part `.` say
nothing and are dropped; `..` is kept, because what it means depends on the
directories it leads through. Two slashes at the beginning are a root of
their own, three or more are one.
-/

namespace LambdaShell

namespace Storage

/-- **Where a path begins.** -/
inductive Root where
  /-- At the current directory. -/
  | relative
  /-- At the top. -/
  | absolute
  /-- At the top, written with two slashes. -/
  | doubled
deriving DecidableEq, Repr

/-- **Paths.** -/
structure Path where
  root : Root
  parts : List String
deriving DecidableEq, Repr

namespace Path

/-- The pieces of a list of characters between slashes. -/
def splitSlashes : List Char → List (List Char)
  | [] => [[]]
  | c :: cs =>
    if c = '/' then [] :: splitSlashes cs
    else
      match splitSlashes cs with
      | [] => [[c]]
      | piece :: pieces => (c :: piece) :: pieces

/-- The root that the slashes at the beginning stand for. -/
def rootOf : List Char → Root
  | '/' :: '/' :: '/' :: _ => .absolute
  | '/' :: '/' :: _ => .doubled
  | '/' :: _ => .absolute
  | _ => .relative

/-- **The path a text denotes.** -/
def parse (s : String) : Path :=
  ⟨rootOf s.toList,
    ((splitSlashes s.toList).map String.ofList).filter fun p => p ≠ "" ∧ p ≠ "."⟩

/-- The path of the current directory. -/
def here : Path := ⟨.relative, []⟩

instance : Inhabited Path := ⟨here⟩

/-- **The written form of a path.** -/
def text (p : Path) : String :=
  match p.root with
  | .relative => if p.parts.isEmpty then "." else "/".intercalate p.parts
  | .absolute => "/" ++ "/".intercalate p.parts
  | .doubled => "//" ++ "/".intercalate p.parts

/-- **A path seen from a directory**; a path with a root of its own stays. -/
def join (directory p : Path) : Path :=
  match p.root with
  | .relative => ⟨directory.root, directory.parts ++ p.parts⟩
  | _ => p

end Path

end Storage

end LambdaShell
