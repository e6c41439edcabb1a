/-!
# Ordered maps

A finite map that remembers the order in which its keys first came.
Definitions and typing contexts are such maps, and what a session prints
depends on their order. The view is the list of entries, whose keys are
distinct: inserting a key that is present replaces its value in place,
inserting a new one appends, erasing closes the gap.
-/

namespace LambdaShell

/-- **An ordered map**: entries with distinct keys, in order of first insertion. -/
structure OrderedMap (κ α : Type) where
  /-- The entries, oldest key first. -/
  entries : List (κ × α)
  /-- No key occurs twice. -/
  nodup : (entries.map Prod.fst).Nodup
deriving Repr

namespace OrderedMap

variable {κ α : Type}

@[ext] theorem ext {m n : OrderedMap κ α} (h : m.entries = n.entries) : m = n := by
  cases m; cases n; cases h; rfl

instance [DecidableEq κ] [DecidableEq α] : DecidableEq (OrderedMap κ α) := fun m n =>
  decidable_of_iff (m.entries = n.entries) ⟨OrderedMap.ext, fun h => h ▸ rfl⟩

/-- The map without entries. -/
def empty : OrderedMap κ α := ⟨[], List.nodup_nil⟩

instance : Inhabited (OrderedMap κ α) := ⟨empty⟩

/-- The keys of the map, in order. -/
def keys (m : OrderedMap κ α) : List κ := m.entries.map Prod.fst

@[simp] theorem keys_empty : (empty : OrderedMap κ α).keys = [] := rfl

/-- The number of entries. -/
def size (m : OrderedMap κ α) : Nat := m.entries.length

variable [DecidableEq κ]

/-- The value of the first entry with a given key. -/
def findEntry (key : κ) : List (κ × α) → Option α
  | [] => none
  | e :: es => if e.1 = key then some e.2 else findEntry key es

/-- **The value of a key**, if it has one. -/
def get? (m : OrderedMap κ α) (key : κ) : Option α := findEntry key m.entries

/-- Whether a key has a value. -/
def contains (m : OrderedMap κ α) (key : κ) : Bool := decide (key ∈ m.keys)

/-- The entries after `key` is given `value`: in place if it is there, else
at the end. -/
def putEntry (key : κ) (value : α) : List (κ × α) → List (κ × α)
  | [] => [(key, value)]
  | e :: es => if e.1 = key then (key, value) :: es else e :: putEntry key value es

theorem map_fst_putEntry (key : κ) (value : α) (es : List (κ × α)) :
    (putEntry key value es).map Prod.fst =
      if key ∈ es.map Prod.fst then es.map Prod.fst else es.map Prod.fst ++ [key] := by
  induction es with
  | nil => simp [putEntry]
  | cons e es ih =>
    by_cases h : e.1 = key
    · simp [putEntry, h]
    · have h' : ¬ key = e.1 := fun q => h q.symm
      simp only [putEntry, h, if_false, List.map_cons, ih, List.mem_cons, h', false_or]
      split <;> simp

theorem nodup_putEntry {key : κ} {value : α} {es : List (κ × α)}
    (h : (es.map Prod.fst).Nodup) : ((putEntry key value es).map Prod.fst).Nodup := by
  rw [map_fst_putEntry]
  split
  · exact h
  · rename_i hn
    exact List.nodup_append.2
      ⟨h, by simp, fun a ha b hb e => hn (by simp_all)⟩

/-- **Insertion**: a present key keeps its place and takes the new value, a
new key goes to the end. -/
def insert (m : OrderedMap κ α) (key : κ) (value : α) : OrderedMap κ α :=
  ⟨putEntry key value m.entries, nodup_putEntry m.nodup⟩

/-- **Removal** of a key; the others keep their order. -/
def erase (m : OrderedMap κ α) (key : κ) : OrderedMap κ α :=
  ⟨m.entries.filter fun e => e.1 ≠ key, m.nodup.sublist (List.filter_sublist.map Prod.fst)⟩

/-- The map that results from inserting the pairs of a list one after another. -/
def ofList (pairs : List (κ × α)) : OrderedMap κ α :=
  pairs.foldl (fun m e => m.insert e.1 e.2) empty

theorem mem_map_fst_of_findEntry {key : κ} {value : α} {es : List (κ × α)}
    (h : findEntry key es = some value) : key ∈ es.map Prod.fst := by
  induction es with
  | nil => simp [findEntry] at h
  | cons e es ih =>
    by_cases he : e.1 = key
    · exact List.mem_cons.2 (Or.inl he.symm)
    · exact List.mem_cons_of_mem _ (ih (by simpa [findEntry, he] using h))

theorem mem_keys_of_get? {m : OrderedMap κ α} {key : κ} {value : α}
    (h : m.get? key = some value) : key ∈ m.keys :=
  mem_map_fst_of_findEntry h

@[simp] theorem keys_insert (m : OrderedMap κ α) (key : κ) (value : α) :
    (m.insert key value).keys = if key ∈ m.keys then m.keys else m.keys ++ [key] :=
  map_fst_putEntry key value m.entries

theorem findEntry_putEntry (key other : κ) (value : α) (es : List (κ × α)) :
    findEntry other (putEntry key value es) =
      if key = other then some value else findEntry other es := by
  induction es with
  | nil => simp [putEntry, findEntry]
  | cons e es ih =>
    by_cases he : e.1 = key
    · by_cases hk : key = other <;> simp [putEntry, findEntry, he, hk]
    · have hput : putEntry key value (e :: es) = e :: putEntry key value es := if_neg he
      by_cases heo : e.1 = other
      · have hk : ¬ key = other := fun hk => he (heo.trans hk.symm)
        rw [hput, if_neg hk, findEntry, findEntry, if_pos heo, if_pos heo]
      · rw [hput, findEntry, findEntry, if_neg heo, if_neg heo, ih]

/-- **What insertion changes**: the value of the key inserted, and no other. -/
theorem get?_insert (m : OrderedMap κ α) (key other : κ) (value : α) :
    (m.insert key value).get? other = if key = other then some value else m.get? other :=
  findEntry_putEntry key other value m.entries

@[simp] theorem get?_insert_self (m : OrderedMap κ α) (key : κ) (value : α) :
    (m.insert key value).get? key = some value := by
  rw [get?_insert, if_pos rfl]

theorem get?_insert_of_ne (m : OrderedMap κ α) {key other : κ} (h : other ≠ key) (value : α) :
    (m.insert key value).get? other = m.get? other := by
  rw [get?_insert, if_neg h.symm]

end OrderedMap

end LambdaShell
