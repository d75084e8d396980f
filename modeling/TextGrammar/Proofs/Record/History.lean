import Mathlib.Data.List.Nodup
import TextGrammar.Record

/-! # Histories of records

A record is what a history of operations makes of the empty record. What the history tells of a
name is said without the record: the value that was inserted last and is still there, and the place
of the insertion that brought the name in. Each operation keeps the record in accordance with its
history. -/

namespace TextGrammar.Record
variable {α : Type}

theorem get?_eq_none_iff {r : Record α} {name : String} : r.get? name = none ↔ name ∉ r.names := by
  rw [get?, Option.map_eq_none_iff, List.find?_eq_none, names, List.mem_map]
  constructor
  · rintro h ⟨field, hfield, rfl⟩
    exact h field hfield (decide_eq_true rfl)
  · rintro h field hfield hname
    exact h ⟨field, hfield, of_decide_eq_true hname⟩

theorem mem_names_iff {r : Record α} {name : String} :
    name ∈ r.names ↔ ∃ value, r.get? name = some value := by
  rw [← Option.isSome_iff_exists, Option.isSome_iff_ne_none, ne_eq, get?_eq_none_iff, not_not]

/-- A name of a record that names each field once is found nowhere in front of its field. -/
theorem notMem_front {front back : Record α} {name : String} {value : α}
    (h : (names (front ++ (name, value) :: back)).Nodup) : name ∉ names front := by
  rw [names, List.map_append, List.map_cons] at h
  exact fun hmem => (List.nodup_append.1 h).2.2 name hmem name List.mem_cons_self rfl

theorem get?_append_cons {front : Record α} {name : String} (h : name ∉ front.names) (value : α)
    (back : Record α) : get? (front ++ (name, value) :: back) name = some value := by
  have hfront : front.find? (·.1 = name) = none := by
    rwa [← Option.map_eq_none_iff (f := Prod.snd), ← get?, get?_eq_none_iff]
  rw [get?, List.find?_append, hfront, Option.none_or, List.find?_cons_of_pos (by simp)]
  rfl

/-- The field of a name that is there is changed in its place. -/
theorem insert_append_cons {front : Record α} {name : String} (h : name ∉ front.names)
    (old value : α) (back : Record α) :
    insert (front ++ (name, old) :: back) name value = front ++ (name, value) :: back := by
  induction front with
  | nil => exact if_pos rfl
  | cons field rest ih =>
    have hne : field.1 ≠ name := fun heq => h (heq ▸ List.mem_cons_self)
    rw [List.cons_append, insert, if_neg hne, ih fun hmem => h (List.mem_cons_of_mem _ hmem)]
    rfl

/-- The field of a name that is there is taken away, and all others stay in their order. -/
theorem erase_append_cons {front : Record α} {name : String} (h : name ∉ front.names) (old : α)
    (back : Record α) : erase (front ++ (name, old) :: back) name = front ++ back := by
  induction front with
  | nil => exact if_pos rfl
  | cons field rest ih =>
    have hne : field.1 ≠ name := fun heq => h (heq ▸ List.mem_cons_self)
    rw [List.cons_append, erase, if_neg hne, ih fun hmem => h (List.mem_cons_of_mem _ hmem)]
    rfl

theorem erase_of_notMem {r : Record α} {name : String} (h : name ∉ r.names) : r.erase name = r := by
  induction r with
  | nil => rfl
  | cons field rest ih =>
    have hne : field.1 ≠ name := fun heq => h (heq ▸ List.mem_cons_self)
    rw [erase, if_neg hne, ih fun hmem => h (List.mem_cons_of_mem _ hmem)]

theorem get?_erase_self {r : Record α} (h : r.names.Nodup) (name : String) :
    (r.erase name).get? name = none := by
  rw [get?_eq_none_iff, names_erase]
  exact h.not_mem_erase

theorem get?_erase_of_ne (r : Record α) {name other : String} (h : other ≠ name) :
    (r.erase name).get? other = r.get? other := by
  induction r with
  | nil => rfl
  | cons field rest ih =>
    obtain ⟨n, v⟩ := field
    by_cases hn : n = name
    · have hother : n ≠ other := fun heq => h (heq ▸ hn)
      simp [erase, get?, hn, Ne.symm h]
    · by_cases hother : n = other
      · simp [erase, get?, hother, h]
      · simpa [erase, get?, hn, hother] using ih

inductive Operation (α : Type) where
  | insert (name : String) (value : α)
  | get (name : String)
  | remove (name : String)

def Operation.Changes (name : String) : Operation α → Prop
  | .insert other _ | .remove other => other = name
  | .get _ => False

/-- What an operation answers, and the record that it leaves behind. -/
def perform (r : Record α) : Operation α → Option α × Record α
  | .insert name value => (none, r.insert name value)
  | .get name => (r.get? name, r)
  | .remove name =>
    match r.take? name with
    | some (value, left) => (some value, left)
    | none => (none, r)

/-- The record that operations leave behind, one after the other. -/
def performAll (r : Record α) (operations : List (Operation α)) : Record α :=
  operations.foldl (fun r operation => (r.perform operation).2) r

/-- Removing a name answers its value, and leaves the record without its field. -/
theorem perform_remove (r : Record α) (name : String) :
    r.perform (.remove name) = (r.get? name, r.erase name) := by
  rw [perform, take?_eq]
  cases hget : r.get? name with
  | none => exact congrArg (none, ·) (erase_of_notMem (get?_eq_none_iff.1 hget)).symm
  | some value => rfl

/-- Collecting named values is inserting them one after the other. -/
theorem ofList_eq_performAll (fields : List (String × α)) :
    ofList fields = performAll [] (fields.map fun field => .insert field.1 field.2) := by
  rw [performAll, List.foldl_map]
  rfl

/-- A value is the last one that was inserted for a name, and the name was not removed since. -/
def Latest (history : List (Operation α)) (name : String) (value : α) : Prop :=
  ∃ before after, history = before ++ .insert name value :: after ∧
    ∀ operation ∈ after, ¬operation.Changes name

/-- The operation at a place brought a name in: the name was absent in front of it, and it was not
removed since. -/
def Entered (history : List (Operation α)) (name : String) (place : Nat) : Prop :=
  ∃ before value after, history = before ++ .insert name value :: after ∧
    before.length = place ∧ (∀ old, ¬Latest before name old) ∧ .remove name ∉ after

theorem not_latest_nil {name : String} {value : α} : ¬Latest [] name value := by
  rintro ⟨before, after, heq, -⟩
  cases before <;> cases heq

theorem latest_concat {history : List (Operation α)} {operation : Operation α} {name : String}
    {value : α} :
    Latest (history ++ [operation]) name value ↔
      operation = .insert name value ∨ (Latest history name value ∧ ¬operation.Changes name) := by
  constructor
  · rintro ⟨before, after, heq, hafter⟩
    obtain rfl | ⟨after, last, rfl⟩ := List.eq_nil_or_concat' after
    · exact .inl (List.append_inj_right' heq rfl |> List.singleton_inj.1)
    · rw [← List.cons_append, ← List.append_assoc] at heq
      obtain ⟨rfl, hlast⟩ := List.append_inj' heq rfl
      obtain rfl := List.singleton_inj.1 hlast
      exact .inr ⟨⟨before, after, rfl, fun x hx => hafter x (List.mem_append_left _ hx)⟩,
        hafter _ (List.mem_append_right _ List.mem_cons_self)⟩
  · rintro (rfl | ⟨⟨before, after, rfl, hafter⟩, hlast⟩)
    · exact ⟨history, [], rfl, nofun⟩
    · refine ⟨before, after ++ [operation], by simp, fun x hx => ?_⟩
      rcases List.mem_append.1 hx with hx | hx
      · exact hafter x hx
      · exact List.mem_singleton.1 hx ▸ hlast

section
variable {history : List (Operation α)} {name other : String} {value new : α}

theorem latest_get : Latest (history ++ [.get other]) name value ↔ Latest history name value := by
  rw [latest_concat]
  exact ⟨fun hlatest => hlatest.elim nofun And.left, fun hold => .inr ⟨hold, id⟩⟩

theorem latest_insert :
    Latest (history ++ [.insert other new]) name value ↔
      (name = other ∧ new = value) ∨ (name ≠ other ∧ Latest history name value) := by
  rw [latest_concat]
  constructor
  · rintro (heq | ⟨hold, hother⟩)
    · cases heq
      exact .inl ⟨rfl, rfl⟩
    · exact .inr ⟨Ne.symm hother, hold⟩
  · rintro (⟨rfl, rfl⟩ | ⟨hother, hold⟩)
    · exact .inl rfl
    · exact .inr ⟨hold, Ne.symm hother⟩

theorem latest_remove :
    Latest (history ++ [.remove other]) name value ↔
      name ≠ other ∧ Latest history name value := by
  rw [latest_concat]
  exact ⟨fun hlatest => hlatest.elim nofun fun ⟨hold, hother⟩ => ⟨Ne.symm hother, hold⟩,
    fun ⟨hother, hold⟩ => .inr ⟨hold, Ne.symm hother⟩⟩

end

namespace Entered
variable {history : List (Operation α)} {operation : Operation α} {name : String} {place : Nat}

theorem lt_length (h : Entered history name place) : place < history.length := by
  obtain ⟨before, value, after, rfl, rfl, -⟩ := h
  rw [List.length_append, List.length_cons]
  omega

/-- A name keeps the place where it came in until it is removed. -/
theorem concat (h : Entered history name place) (hne : operation ≠ .remove name) :
    Entered (history ++ [operation]) name place := by
  obtain ⟨before, value, after, rfl, hplace, habsent, hkept⟩ := h
  refine ⟨before, value, after ++ [operation], by simp, hplace, habsent, fun hmem => ?_⟩
  rcases List.mem_append.1 hmem with hmem | hmem
  · exact hkept hmem
  · exact hne (List.mem_singleton.1 hmem).symm

/-- A name that is absent comes in where it is inserted. -/
theorem insert (habsent : ∀ old, ¬Latest history name old) (value : α) :
    Entered (history ++ [.insert name value]) name history.length :=
  ⟨history, value, [], rfl, rfl, habsent, List.not_mem_nil⟩

end Entered

/-- A record accords with a history if it names each field once, has the latest value of each name,
and has its names in the order of the places where they came in. -/
structure Accords (history : List (Operation α)) (r : Record α) : Prop where
  distinct : r.names.Nodup
  latest : ∀ name value, r.get? name = some value ↔ Latest history name value
  ordered : ∃ arrivals : List (String × Nat), arrivals.map Prod.fst = r.names ∧
    (∀ arrival ∈ arrivals, Entered history arrival.1 arrival.2) ∧
    arrivals.Pairwise fun earlier later => earlier.2 < later.2

namespace Accords
variable {history : List (Operation α)} {r : Record α}

theorem nil : Accords [] ([] : Record α) where
  distinct := List.nodup_nil
  latest _ _ := iff_of_false nofun not_latest_nil
  ordered := ⟨[], rfl, nofun, .nil⟩

/-- A name that a record does not have has no value in its history. -/
theorem absent (h : Accords history r) {name : String} (hname : name ∉ r.names) :
    ∀ old, ¬Latest history name old := fun old hold =>
  hname (mem_names_iff.2 ⟨old, (h.latest name old).2 hold⟩)

/-- Looking a name up changes nothing. -/
theorem get (h : Accords history r) (name : String) : Accords (history ++ [.get name]) r where
  distinct := h.distinct
  latest other value := by rw [latest_get, h.latest]
  ordered := by
    obtain ⟨arrivals, hnames, hentered, hsorted⟩ := h.ordered
    exact ⟨arrivals, hnames, fun x hx => (hentered x hx).concat nofun, hsorted⟩

/-- A name that is inserted has the new value, and comes in last if it was absent. -/
theorem insert (h : Accords history r) (name : String) (value : α) :
    Accords (history ++ [.insert name value]) (r.insert name value) where
  distinct := nodup_names_insert h.distinct name value
  latest other found := by
    by_cases hother : other = name
    · subst hother
      simp [latest_insert, get?_insert_self]
    · simp [latest_insert, get?_insert_of_ne r value hother, h.latest, hother]
  ordered := by
    obtain ⟨arrivals, hnames, hentered, hsorted⟩ := h.ordered
    have hkept : ∀ x ∈ arrivals, Entered (history ++ [.insert name value]) x.1 x.2 :=
      fun x hx => (hentered x hx).concat nofun
    rw [names_insert]
    split
    · exact ⟨arrivals, hnames, hkept, hsorted⟩
    · rename_i hname
      refine ⟨arrivals ++ [(name, history.length)], by rw [List.map_append, hnames]; rfl, ?_, ?_⟩
      · exact List.forall_mem_append.2
          ⟨hkept, List.forall_mem_singleton.2 (.insert (h.absent hname) value)⟩
      · refine List.pairwise_append.2 ⟨hsorted, List.pairwise_singleton _ _, fun x hx y hy => ?_⟩
        obtain rfl := List.mem_singleton.1 hy
        exact (hentered x hx).lt_length

/-- A name that is removed has no value, and the others keep theirs and their order. -/
theorem remove (h : Accords history r) (name : String) :
    Accords (history ++ [.remove name]) (r.erase name) where
  distinct := names_erase r name ▸ h.distinct.erase name
  latest other found := by
    by_cases hother : other = name
    · subst hother
      simp [latest_remove, get?_erase_self h.distinct]
    · simp [latest_remove, get?_erase_of_ne r hother, h.latest, hother]
  ordered := by
    obtain ⟨arrivals, hnames, hentered, hsorted⟩ := h.ordered
    refine ⟨arrivals.filter (·.1 ≠ name), ?_, fun x hx => ?_, hsorted.filter _⟩
    · rw [names_erase, h.distinct.erase_eq_filter, ← hnames, List.filter_map]
      refine congrArg (List.map Prod.fst) (List.filter_congr fun x _ => ?_)
      rw [decide_not, Function.comp_apply, bne, beq_eq_decide]
    · obtain ⟨hmem, hne⟩ := List.mem_filter.1 hx
      refine (hentered x hmem).concat fun heq => ?_
      cases heq
      simp at hne

/-- An operation keeps a record in accordance with its history. -/
theorem perform (h : Accords history r) (operation : Operation α) :
    Accords (history ++ [operation]) (r.perform operation).2 := by
  cases operation with
  | insert name value => exact h.insert name value
  | get name => exact h.get name
  | remove name =>
    rw [perform_remove]
    exact h.remove name

/-- So do any number of operations. -/
theorem performAll (h : Accords history r) (operations : List (Operation α)) :
    Accords (history ++ operations) (r.performAll operations) := by
  induction operations generalizing history r with
  | nil => rwa [List.append_nil]
  | cons operation rest ih =>
    rw [List.append_cons]
    exact ih (h.perform operation)

end Accords

end TextGrammar.Record
