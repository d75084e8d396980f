/-! # Records

A record is a list of named fields in the order of their construction. Built by insertion it
names each field once: a new name goes to the end, a name that is there keeps its place. -/

namespace TextGrammar

abbrev Record (α : Type) := List (String × α)

namespace Record
variable {α : Type}

def names (r : Record α) : List String := r.map Prod.fst

def get? (r : Record α) (name : String) : Option α := (r.find? (·.1 = name)).map Prod.snd

/-- Replaces the first field of the name in its place, or appends a new one. -/
def insert : Record α → String → α → Record α
  | [], name, value => [(name, value)]
  | (n, v) :: rest, name, value =>
    if n = name then (n, value) :: rest else (n, v) :: insert rest name value

theorem names_insert (r : Record α) (name : String) (value : α) :
    (r.insert name value).names = if name ∈ r.names then r.names else r.names ++ [name] := by
  induction r with
  | nil => simp [insert, names]
  | cons field rest ih =>
    obtain ⟨n, v⟩ := field
    by_cases h : n = name
    · simp [insert, names, h]
    · have hne : ¬name = n := fun e => h e.symm
      simp only [insert, if_neg h, names, List.map_cons, List.mem_cons, hne, false_or] at ih ⊢
      rw [ih]
      by_cases hm : name ∈ rest.map Prod.fst <;> simp [hm]

theorem nodup_names_insert {r : Record α} (h : r.names.Nodup) (name : String) (value : α) :
    (r.insert name value).names.Nodup := by
  rw [names_insert]
  split
  · exact h
  · rename_i hm
    refine List.nodup_append.mpr ⟨h, by simp, fun n hn m hm' e => hm ?_⟩
    rw [List.mem_singleton] at hm'
    exact hm' ▸ e ▸ hn

theorem get?_insert_self (r : Record α) (name : String) (value : α) :
    (r.insert name value).get? name = some value := by
  induction r with
  | nil => simp [insert, get?]
  | cons field rest ih =>
    obtain ⟨n, v⟩ := field
    by_cases h : n = name
    · simp [insert, get?, h]
    · simpa [insert, get?, h] using ih

theorem get?_insert_of_ne (r : Record α) {name other : String} (value : α) (h : other ≠ name) :
    (r.insert name value).get? other = r.get? other := by
  induction r with
  | nil => simp [insert, get?, h.symm]
  | cons field rest ih =>
    obtain ⟨n, v⟩ := field
    by_cases hn : n = name
    · have : ¬n = other := fun e => h (e ▸ hn)
      simp [insert, get?, hn, h.symm]
    · by_cases ho : n = other
      · simp [insert, get?, ho, h]
      · simpa [insert, get?, hn, ho] using ih

def erase : Record α → String → Record α
  | [], _ => []
  | (n, v) :: rest, name => if n = name then rest else (n, v) :: erase rest name

/-- Takes the first field of a name out of a record: its value, and what is left of the record. -/
def take? : Record α → String → Option (α × Record α)
  | [], _ => none
  | (n, v) :: rest, name =>
    if n = name then some (v, rest)
    else (take? rest name).map fun (w, left) => (w, (n, v) :: left)

theorem take?_eq (r : Record α) (name : String) :
    r.take? name = (r.get? name).map fun v => (v, r.erase name) := by
  induction r with
  | nil => rfl
  | cons field rest ih =>
    obtain ⟨n, v⟩ := field
    by_cases h : n = name
    · simp [take?, get?, erase, h]
    · have hget : get? ((n, v) :: rest) name = get? rest name := by simp [get?, h]
      rw [take?, if_neg h, ih, hget, erase, if_neg h, Option.map_map]
      rfl

theorem names_erase (r : Record α) (name : String) : (r.erase name).names = r.names.erase name := by
  induction r with
  | nil => rfl
  | cons field rest ih =>
    obtain ⟨n, v⟩ := field
    by_cases h : n = name
    · simp [erase, names, h]
    · simpa [erase, names, h] using ih

def insertAll (r : Record α) (fields : List (String × α)) : Record α :=
  fields.foldl (fun r (name, value) => r.insert name value) r

/-- The record that insertion builds from named values. -/
def ofList (fields : List (String × α)) : Record α := insertAll [] fields

/-- A field of a new name goes to the end. -/
theorem insert_of_notMem {r : Record α} {name : String} (h : name ∉ r.names) (value : α) :
    r.insert name value = r ++ [(name, value)] := by
  induction r with
  | nil => rfl
  | cons field rest ih =>
    obtain ⟨n, v⟩ := field
    have hne : n ≠ name := fun heq => h (heq ▸ List.mem_cons_self)
    have hrest : name ∉ names rest := fun hmem => h (List.mem_cons_of_mem n hmem)
    rw [insert, if_neg hne, ih hrest, List.cons_append]

/-- Fields of new names are kept as they are. -/
theorem insertAll_of_nodup {r : Record α} {fields : List (String × α)}
    (h : (names (r ++ fields)).Nodup) : r.insertAll fields = r ++ fields := by
  induction fields generalizing r with
  | nil => exact (List.append_nil r).symm
  | cons field rest ih =>
    obtain ⟨name, value⟩ := field
    have hfresh : name ∉ r.names := by
      intro hmem
      rw [names, List.map_append, List.map_cons] at h
      exact (List.nodup_append.1 h).2.2 name hmem name List.mem_cons_self rfl
    rw [List.append_cons] at h ⊢
    rw [← insert_of_notMem hfresh value] at h ⊢
    exact ih h

theorem ofList_of_nodup {fields : List (String × α)} (h : (names fields).Nodup) :
    ofList fields = fields := insertAll_of_nodup h

end Record

end TextGrammar
