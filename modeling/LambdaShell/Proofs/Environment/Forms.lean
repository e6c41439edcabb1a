import LambdaShell.Environment.Basic

/-!
# Environments — definitions and their forms

An environment keeps its definitions and, in a second map, their nameless
forms. The two are changed together: where every definition was completed,
the second map is the first with the forms in place of the terms
(`InStep`), in the same order. Such an environment is determined by its
definitions, so binding them one after another builds it again
(`InStep.ofList_definitions`), with the answers it gives to every question.
-/

namespace LambdaShell

namespace OrderedMap

variable {κ α β : Type}

/-- The map with the values changed, at the same keys and in the same order. -/
def map (f : α → β) (m : OrderedMap κ α) : OrderedMap κ β :=
  ⟨m.entries.map fun e => (e.1, f e.2), by
    rw [List.map_map]
    exact m.nodup⟩

variable [DecidableEq κ]

theorem map_putEntry (f : α → β) (key : κ) (value : α) (es : List (κ × α)) :
    (putEntry key value es).map (fun e => (e.1, f e.2)) =
      putEntry key (f value) (es.map fun e => (e.1, f e.2)) := by
  induction es with
  | nil => rfl
  | cons e es ih =>
    simp only [putEntry, List.map_cons]
    split
    · rfl
    · rw [List.map_cons, ih]

theorem map_insert (f : α → β) (m : OrderedMap κ α) (key : κ) (value : α) :
    (m.insert key value).map f = (m.map f).insert key (f value) :=
  OrderedMap.ext (map_putEntry f key value m.entries)

theorem map_erase (f : α → β) (m : OrderedMap κ α) (key : κ) :
    (m.erase key).map f = (m.map f).erase key := by
  refine OrderedMap.ext ?_
  show List.map _ (List.filter _ m.entries) = List.filter _ (List.map _ m.entries)
  rw [List.filter_map]
  rfl

theorem mem_putEntry {key : κ} {value : α} {es : List (κ × α)} {e : κ × α}
    (h : e ∈ putEntry key value es) : e = (key, value) ∨ e ∈ es := by
  induction es with
  | nil => exact .inl (List.mem_singleton.1 h)
  | cons e' es ih =>
    simp only [putEntry] at h
    split at h
    · exact (List.mem_cons.1 h).imp_right (List.mem_cons_of_mem _)
    · rcases List.mem_cons.1 h with rfl | h
      · exact .inr List.mem_cons_self
      · exact (ih h).imp_right (List.mem_cons_of_mem _)

theorem mem_entries_erase {m : OrderedMap κ α} {key : κ} {e : κ × α}
    (h : e ∈ (m.erase key).entries) : e ∈ m.entries := (List.mem_filter.1 h).1

/-! ## The value of a key -/

theorem findEntry_eq (key : κ) (es : List (κ × α)) :
    findEntry key es = (es.find? fun e => e.1 = key).map Prod.snd := by
  induction es with
  | nil => rfl
  | cons e es ih =>
    by_cases he : e.1 = key
    · simp [findEntry, he]
    · simp [findEntry, he, ih]

/-- Every entry gives the value of its key, since no other has the key. -/
theorem findEntry_of_mem {es : List (κ × α)} (hes : (es.map Prod.fst).Nodup) {e : κ × α}
    (h : e ∈ es) : findEntry e.1 es = some e.2 := by
  induction es with
  | nil => cases h
  | cons e' es ih =>
    rw [List.map_cons, List.nodup_cons] at hes
    rcases List.mem_cons.1 h with rfl | h
    · simp [findEntry]
    · have hne : ¬ e'.1 = e.1 := fun heq => hes.1 (heq ▸ List.mem_map_of_mem h)
      rw [findEntry, if_neg hne, ih hes.2 h]

theorem get?_of_mem {m : OrderedMap κ α} {e : κ × α} (h : e ∈ m.entries) :
    m.get? e.1 = some e.2 := findEntry_of_mem m.nodup h

/-- **What removal changes**: the value of the key removed, and no other. -/
theorem get?_erase (m : OrderedMap κ α) (key other : κ) :
    (m.erase key).get? other = if key = other then none else m.get? other := by
  rw [get?, get?, findEntry_eq, findEntry_eq, erase, List.find?_filter]
  split
  · -- no entry has the key and does not have it
    rename_i hkey
    rw [Option.map_eq_none_iff, List.find?_eq_none]
    intro e _ he
    simp only [decide_eq_true_eq] at he
    exact he.1 (he.2.trans hkey.symm)
  · rename_i hkey
    congr 2
    funext e
    simp only [decide_eq_true_eq, decide_eq_decide, and_iff_right_iff_imp]
    rintro rfl hk
    exact hkey hk.symm

/-! ## Building a map again from its entries -/

theorem putEntry_of_not_mem {key : κ} {es : List (κ × α)} (h : key ∉ es.map Prod.fst)
    (value : α) : putEntry key value es = es ++ [(key, value)] := by
  induction es with
  | nil => rfl
  | cons e es ih =>
    simp only [List.map_cons, List.mem_cons, not_or] at h
    rw [putEntry, if_neg fun heq => h.1 heq.symm, ih h.2, List.cons_append]

/-- A present key is given its value in place, since no other entry has the key. -/
theorem putEntry_of_mem {key : κ} {es : List (κ × α)} (hes : (es.map Prod.fst).Nodup)
    (h : key ∈ es.map Prod.fst) (value : α) :
    putEntry key value es = es.map fun e => if e.1 = key then (key, value) else e := by
  induction es with
  | nil => cases h
  | cons e es ih =>
    rw [List.map_cons, List.nodup_cons] at hes
    by_cases he : e.1 = key
    · have hrest : es.map (fun e => if e.1 = key then (key, value) else e) = es := by
        rw [List.map_congr_left (g := id), List.map_id]
        intro e' he'
        have hne : ¬ e'.1 = key := by
          intro heq
          refine hes.1 ?_
          rw [he, ← heq]
          exact List.mem_map_of_mem he'
        exact if_neg hne
      rw [putEntry, if_pos he, List.map_cons, if_pos he, hrest]
    · have hmem : key ∈ es.map Prod.fst := (List.mem_cons.1 h).resolve_left fun heq => he heq.symm
      rw [putEntry, if_neg he, List.map_cons, if_neg he, ih hes.2 hmem]

/-- Entries with new keys are appended in order. -/
theorem entries_foldl_insert {m : OrderedMap κ α} {es : List (κ × α)}
    (h : ((m.entries ++ es).map Prod.fst).Nodup) :
    (es.foldl (fun m e => m.insert e.1 e.2) m).entries = m.entries ++ es := by
  induction es generalizing m with
  | nil => rw [List.append_nil]; rfl
  | cons e es ih =>
    have hnew : e.1 ∉ m.entries.map Prod.fst := by
      intro hmem
      rw [List.map_append, List.map_cons] at h
      exact (List.nodup_append.1 h).2.2 _ hmem _ List.mem_cons_self rfl
    have hinsert : (m.insert e.1 e.2).entries = m.entries ++ [e] := putEntry_of_not_mem hnew e.2
    rw [List.foldl_cons, ih (by rw [hinsert, List.append_assoc]; exact h), hinsert,
      List.append_assoc]
    rfl

/-- **A map is built again from its entries**, inserted in order. -/
theorem ofList_entries (m : OrderedMap κ α) : ofList m.entries = m :=
  OrderedMap.ext (entries_foldl_insert (m := empty) m.nodup)

end OrderedMap

namespace Environment

variable {env env' : Environment}

/-- **The forms are those of the definitions**, in the same order. -/
def InStep (env : Environment) : Prop := env.forms = env.bindings.map (·.nameless [])

theorem inStep_empty : empty.InStep := rfl

theorem InStep.bind (h : env.InStep) (x : String) (t : Term) : (env.bind x t).InStep := by
  show env.forms.insert x (t.nameless []) = (env.bindings.insert x t).map _
  rw [OrderedMap.map_insert, ← h]

theorem InStep.unbind (h : env.InStep) (x : String) : (env.unbind x).InStep := by
  show env.forms.erase x = (env.bindings.erase x).map _
  rw [OrderedMap.map_erase, ← h]

/-- The definitions determine the environment. -/
theorem InStep.ext (h : env.InStep) (h' : env'.InStep) (hb : env.bindings = env'.bindings) :
    env = env' := by
  cases env
  cases env'
  cases hb
  cases h.trans h'.symm
  rfl

/-- **Definitions one after another**: the forms stay in step, and the names are
inserted in order. -/
theorem foldl_bind (h : env.InStep) (ds : List Definition) :
    (ds.foldl (fun env d => env.bind d.name d.term) env).InStep ∧
      (ds.foldl (fun env d => env.bind d.name d.term) env).bindings =
        (ds.map fun d => (d.name, d.term)).foldl (fun m e => m.insert e.1 e.2) env.bindings := by
  induction ds generalizing env with
  | nil => exact ⟨h, rfl⟩
  | cons d ds ih => exact ih (h.bind d.name d.term)

/-- **An environment in step is built again from its definitions.** -/
theorem InStep.ofList_definitions (h : env.InStep) : ofList env.definitions = env := by
  obtain ⟨hstep, hbindings⟩ := foldl_bind inStep_empty env.definitions
  refine hstep.ext h (hbindings.trans ?_)
  have hentries : (env.definitions.map fun d => (d.name, d.term)) = env.bindings.entries := by
    rw [definitions, List.map_map]
    exact List.map_id _
  rw [hentries]
  exact env.bindings.ofList_entries

/-! ## Questions, answered from the definitions -/

theorem mem_definitions {d : Definition} :
    d ∈ env.definitions ↔ (d.name, d.term) ∈ env.bindings.entries := by
  simp only [definitions, List.mem_map]
  constructor
  · rintro ⟨e, he, rfl⟩
    exact he
  · intro hd
    exact ⟨_, hd, rfl⟩

theorem lookup_eq (env : Environment) (x : String) :
    env.lookup x = (env.definitions.find? fun d => d.name = x).map Definition.term := by
  rw [lookup, OrderedMap.get?, OrderedMap.findEntry_eq, definitions, List.find?_map,
    Option.map_map]
  rfl

theorem lookup_of_mem {d : Definition} (h : d ∈ env.definitions) :
    env.lookup d.name = some d.term :=
  OrderedMap.get?_of_mem (mem_definitions.1 h)

/-- **The name of a term** is that of the first definition by a term equal to it up
to bound names. -/
theorem InStep.aliasOf_eq (h : env.InStep) (t : Term) :
    env.aliasOf t = (env.definitions.find? fun d => d.term.AlphaEq t).map Definition.name := by
  have hentries : env.forms.entries = env.bindings.entries.map fun e => (e.1, e.2.nameless []) :=
    congrArg OrderedMap.entries h
  simp only [aliasOf, hentries, definitions, List.find?_map, Option.map_map]
  rfl

theorem InStep.exists_mem_of_aliasOf (h : env.InStep) {t : Term} {x : String}
    (hx : env.aliasOf t = some x) : ∃ d ∈ env.definitions, d.name = x ∧ d.term.AlphaEq t := by
  rw [h.aliasOf_eq, Option.map_eq_some_iff] at hx
  obtain ⟨d, hfind, hname⟩ := hx
  exact ⟨d, List.mem_of_find?_eq_some hfind, hname, by simpa using List.find?_some hfind⟩

/-! ## The definitions after a change -/

/-- With its form or without, a definition is inserted. -/
theorem bindings_define (depth : Option Nat) (env : Environment) (x : String) (t : Term) :
    (env.define depth x t).bindings = env.bindings.insert x t := by
  unfold define
  split <;> rfl

theorem mem_definitions_define {depth : Option Nat} {x : String} {t : Term} {d : Definition}
    (h : d ∈ (env.define depth x t).definitions) : d = ⟨x, t⟩ ∨ d ∈ env.definitions := by
  rw [mem_definitions, bindings_define] at h
  rw [mem_definitions]
  refine (OrderedMap.mem_putEntry h).imp_left ?_
  intro heq
  cases d
  cases heq
  rfl

theorem mem_definitions_unbind {x : String} {d : Definition}
    (h : d ∈ (env.unbind x).definitions) : d ∈ env.definitions :=
  mem_definitions.2 (OrderedMap.mem_entries_erase (mem_definitions.1 h))

end Environment

end LambdaShell
