import TextGrammar.Proofs.Action.Copying
import TextGrammar.Proofs.Computation

/-! # Parts of captures and of their values

A part of an operand may be taken before the operand is turned into a value or after that. The two
come to the same if the fields of each captured record have names of their own: of captured fields
with one name the first is read, but the last one counts in the value. -/

namespace TextGrammar

namespace Capture

/-- The names within each captured record are distinct. -/
inductive Distinct : Capture → Prop
  | unit : Distinct .unit
  | text (s : String) : Distinct (.text s)
  | float (x : Float) : Distinct (.float x)
  | int (n : Int64) : Distinct (.int n)
  | list {items : List Capture} (hitems : ∀ c ∈ items, Distinct c) : Distinct (.list items)
  | record {fields : List (String × Capture)} (hnames : (Record.names fields).Nodup)
    (hfields : ∀ field ∈ fields, Distinct field.2) : Distinct (.record fields)
  | value (v : Value) : Distinct (.value v)

theorem toValues_eq_map (items : List Capture) : toValues items = items.map toValue := by
  induction items with
  | nil => rfl
  | cons c cs ih => rw [toValues, ih, List.map_cons]

theorem names_toFields (fields : List (String × Capture)) :
    Record.names (toFields fields) = Record.names fields := by
  induction fields with
  | nil => rfl
  | cons field rest ih => exact congrArg (field.1 :: ·) ih

theorem get?_toFields (fields : List (String × Capture)) (name : String) :
    Record.get? (toFields fields) name = (Record.get? fields name).map toValue := by
  induction fields with
  | nil => rfl
  | cons field rest ih =>
    obtain ⟨n, c⟩ := field
    by_cases h : n = name
    · simp [toFields, Record.get?, h]
    · simpa [toFields, Record.get?, h] using ih

/-- The value of a captured record with distinct names has the fields of the record. -/
theorem toValue_record {fields : List (String × Capture)} (h : (Record.names fields).Nodup) :
    (record fields).toValue = .record (toFields fields) := by
  rw [← names_toFields] at h
  rw [toValue, Record.ofList_of_nodup h]

end Capture

namespace Record

theorem mem_of_get? {α : Type} {r : Record α} {name : String} {x : α} (h : r.get? name = some x) :
    (name, x) ∈ r := by
  obtain ⟨⟨n, y⟩, hfind, rfl⟩ := Option.map_eq_some_iff.1 h
  have hname : n = name := by simpa using List.find?_some hfind
  exact hname ▸ List.mem_of_find?_eq_some hfind

end Record

namespace Action.Operand

theorem bind_of_eq_ok {ε α β : Type} {m : Except ε α} {x : α} (h : m = .ok x)
    (f : α → Except ε β) : m >>= f = f x := by
  rw [h]
  rfl

theorem item_map {α β : Type} (f : α → β) (items : List α) (n : Int64) :
    (item items n).map f = item (items.map f) n := by
  unfold item
  rw [List.getElem?_map, List.length_map]
  split
  · cases items[n.toInt.toNat]? <;> rfl
  · rfl

theorem mem_of_item {α : Type} {items : List α} {n : Int64} {x : α}
    (h : item items n = .ok x) : x ∈ items := by
  unfold item at h
  split at h
  · split at h <;> cases h
    exact List.mem_of_getElem? ‹_›
  · cases h

theorem item_eq (items : List Value) (n : Int64) :
    item items n = Copying.item (.list items) (.int n) := by
  unfold item Copying.item
  dsimp only
  by_cases hpos : 0 ≤ n.toInt
  · by_cases hlt : n.toInt.toNat < items.length
    · rw [if_pos hpos, List.getElem?_eq_getElem hlt, dif_pos ⟨hpos, hlt⟩, List.get_eq_getElem]
    · rw [if_pos hpos, List.getElem?_eq_none (Nat.le_of_not_lt hlt), dif_neg fun h => hlt h.2]
  · rw [if_neg hpos, dif_neg fun h => hpos h.1]

/-- What is captured by an operand has distinct names within each record. -/
def Distinct : Operand → Prop
  | .captured c => c.Distinct
  | .borrowed _ | .owned _ => True

theorem index_borrowed (v position : Value) :
    ((borrowed v).index position).map toValue = Copying.item v position := by
  cases position with
  | int n =>
    cases v with
    | list items =>
      rw [← item_eq]
      change ((item items n).map borrowed).map toValue = _
      cases item items n <;> rfl
    | null | bool _ | int _ | float _ | str _ | record _ => rfl
  | null | bool _ | float _ | str _ | list _ | record _ => rfl

theorem index_owned (v position : Value) :
    ((owned v).index position).map toValue = Copying.item v position := by
  cases position with
  | int n =>
    cases v with
    | list items =>
      rw [← item_eq]
      change ((item items n).map owned).map toValue = _
      cases item items n <;> rfl
    | null | bool _ | int _ | float _ | str _ | record _ => rfl
  | null | bool _ | float _ | str _ | list _ | record _ => rfl

theorem index_captured (c : Capture) (position : Value) :
    ((captured c).index position).map toValue = Copying.item c.toValue position := by
  cases position with
  | int n =>
    cases c with
    | list items =>
      rw [Capture.toValue, ← item_eq, Capture.toValues_eq_map, ← item_map]
      change ((item items n).map captured).map toValue = _
      cases item items n <;> rfl
    | value v => exact index_borrowed v (.int n)
    | unit | text _ | float _ | int _ | record _ => rfl
  | null | bool _ | float _ | str _ | list _ | record _ => rfl

/-- The value of an item is the item of the value. -/
theorem index_toValue (o : Operand) (position : Value) :
    (o.index position).map toValue = Copying.item o.toValue position := by
  cases o with
  | captured c => exact index_captured c position
  | borrowed v => exact index_borrowed v position
  | owned v => exact index_owned v position

theorem field_borrowed (v : Value) (name : String) :
    ((borrowed v).field name).map toValue = Copying.field v name := by
  cases v with
  | record fields =>
    simp only [field, normalize, Copying.field]
    cases Record.get? fields name <;> rfl
  | null | bool _ | int _ | float _ | str _ | list _ => rfl

theorem field_owned (v : Value) (name : String) :
    ((owned v).field name).map toValue = Copying.field v name := by
  cases v with
  | record fields =>
    simp only [field, normalize, Copying.field, Record.take?_eq]
    cases Record.get? fields name <;> rfl
  | null | bool _ | int _ | float _ | str _ | list _ => rfl

theorem field_captured {c : Capture} (h : c.Distinct) (name : String) :
    ((captured c).field name).map toValue = Copying.field c.toValue name := by
  cases h with
  | @record fields hnames =>
    rw [Capture.toValue_record hnames]
    simp only [field, normalize, Copying.field, Capture.get?_toFields]
    cases Record.get? fields name <;> rfl
  | value v => exact field_borrowed v name
  | unit | text _ | float _ | int _ | list _ => rfl

/-- The value of a field is the field of the value. -/
theorem field_toValue {o : Operand} (h : o.Distinct) (name : String) :
    (o.field name).map toValue = Copying.field o.toValue name := by
  cases o with
  | captured c => exact field_captured h name
  | borrowed v => exact field_borrowed v name
  | owned v => exact field_owned v name

theorem Distinct.normalize {o : Operand} (h : o.Distinct) : o.normalize.Distinct := by
  cases o with
  | captured c =>
    cases c with
    | value v => exact trivial
    | unit | text _ | float _ | int _ | list _ | record _ => exact h
  | borrowed v | owned v => exact trivial

theorem Distinct.index {o p : Operand} {position : Value} (h : o.Distinct)
    (hp : o.index position = .ok p) : p.Distinct := by
  have hnormal := h.normalize
  unfold Operand.index at hp
  split at hp
  · split at hp
    · rename_i items heq
      obtain ⟨c, hc, rfl⟩ := map_eq_ok.1 hp
      rw [heq] at hnormal
      cases hnormal with
      | list hitems => exact hitems c (mem_of_item hc)
    · obtain ⟨v, -, rfl⟩ := map_eq_ok.1 hp
      exact trivial
    · obtain ⟨v, -, rfl⟩ := map_eq_ok.1 hp
      exact trivial
    · cases hp
  · cases hp

theorem Distinct.field {o p : Operand} {name : String} (h : o.Distinct)
    (hp : o.field name = .ok p) : p.Distinct := by
  have hnormal := h.normalize
  unfold Operand.field at hp
  split at hp
  · rename_i fields heq
    rw [heq] at hnormal
    cases hnormal with
    | record _ hfields =>
      split at hp <;> cases hp
      exact hfields _ (Record.mem_of_get? ‹_›)
  · split at hp <;> cases hp
    exact trivial
  · split at hp <;> cases hp
    exact trivial
  · cases hp

theorem length_toValue (o : Operand) : o.length = valueLength o.toValue := by
  cases o with
  | captured c =>
    cases c with
    | list items =>
      change .ok items.length = Except.ok (Capture.toValues items).length
      rw [Capture.toValues_eq_map, List.length_map]
    | unit | text _ | float _ | int _ | record _ | value _ => rfl
  | borrowed v | owned v => rfl

theorem lengthOf_toValue (o : Operand) : lengthOf o = Copying.length o.toValue := by
  unfold lengthOf
  rw [length_toValue]
  cases o.toValue with
  | list _ | str _ => exact bind_of_eq_ok rfl _
  | null | bool _ | int _ | float _ | record _ => rfl

/-- A builtin function takes an operand for its value. -/
theorem apply_toValue (b : Builtin) (o : Operand) : b.apply o = Copying.apply b o.toValue := by
  cases b with
  | len => exact lengthOf_toValue o
  | clone | trim | str | num | int => rfl

end Action.Operand

end TextGrammar
