import TextGrammar.Value.Json
import TextGrammar.Proofs.IntegerTexts
import TextGrammar.Proofs.Json.Grammar

/-! # Values as documents

The document of a value, whose spellings both of its texts are, and what a document is read back
as. Only what a text says is read back: which values look alike in it is seen from where the two
are inverse. -/

namespace TextGrammar.Json

mutual

def document : Value → Document
  | .null => .null
  | .bool b => .bool b
  | .int n => .number (toString n.toInt).toList
  | .float x =>
    match Number.parts x with
    | .finite .. => .number (Number.jsonLayout.text x).toList
    | _ => .null
  | .str s => .string s
  | .list items => .array (documents items)
  | .record fields => .object (memberDocuments fields)

def documents : List Value → List Document
  | [] => []
  | v :: vs => document v :: documents vs

def memberDocuments : List (String × Value) → List (String × Document)
  | [] => []
  | (name, v) :: rest => (name, document v) :: memberDocuments rest

end

mutual

/-- The value that a document is read back as, if it has one; `collect` makes a record of the
members of an object in their order. -/
def Document.value? (collect : Record Value → Record Value) : Document → Option Value
  | .null => some .null
  | .bool b => some (.bool b)
  | .number lexeme => (Number.readInteger? lexeme).map .int
  | .string s => some (.str s)
  | .array items => (values? collect items).map .list
  | .object members => (fields? collect members).map fun fields => .record (collect fields)

def Document.values? (collect : Record Value → Record Value) : List Document → Option (List Value)
  | [] => some []
  | d :: ds =>
    match value? collect d, values? collect ds with
    | some v, some vs => some (v :: vs)
    | _, _ => none

def Document.fields? (collect : Record Value → Record Value) :
    List (String × Document) → Option (Record Value)
  | [] => some []
  | (name, d) :: rest =>
    match value? collect d, fields? collect rest with
    | some v, some fields => some ((name, v) :: fields)
    | _, _ => none

end

/-- A value without floats, all of whose records are good. -/
inductive Plain (good : Record Value → Prop) : Value → Prop where
  | null : Plain good .null
  | bool (b : Bool) : Plain good (.bool b)
  | int (n : Int64) : Plain good (.int n)
  | str (s : String) : Plain good (.str s)
  | list {items : List Value} : (∀ v ∈ items, Plain good v) → Plain good (.list items)
  | record {fields : List (String × Value)} : good fields →
      (∀ field ∈ fields, Plain good field.2) → Plain good (.record fields)

theorem Plain.mono {good better : Record Value → Prop} {v : Value} (h : Plain good v)
    (hgood : ∀ fields, good fields → better fields) : Plain better v := by
  induction h with
  | null => exact .null
  | bool b => exact .bool b
  | int n => exact .int n
  | str s => exact .str s
  | list _ ih => exact .list ih
  | record hfields _ ih => exact .record (hgood _ hfields) ih

section
variable {collect : Record Value → Record Value}

theorem values?_documents {items : List Value}
    (h : ∀ v ∈ items, (document v).value? collect = some v) :
    Document.values? collect (documents items) = some items := by
  induction items with
  | nil => rfl
  | cons v vs ih =>
    rw [documents, Document.values?, h v List.mem_cons_self,
      ih fun w hw => h w (List.mem_cons_of_mem _ hw)]

theorem fields?_memberDocuments {fields : List (String × Value)}
    (h : ∀ field ∈ fields, (document field.2).value? collect = some field.2) :
    Document.fields? collect (memberDocuments fields) = some fields := by
  induction fields with
  | nil => rfl
  | cons field rest ih =>
    obtain ⟨name, v⟩ := field
    rw [memberDocuments, Document.fields?, h (name, v) List.mem_cons_self,
      ih fun other hother => h other (List.mem_cons_of_mem _ hother)]

/-- A value without floats is read back from its document if its records are collected as they
are. -/
theorem value?_document {v : Value} (hv : Plain (fun fields => collect fields = fields) v) :
    (document v).value? collect = some v := by
  induction hv with
  | null | bool | str => rfl
  | int n =>
    rw [document, Document.value?]
    exact congrArg (Option.map Value.int) (Number.readInteger?_text n)
  | list _ ih => rw [document, Document.value?, values?_documents ih, Option.map_some]
  | record hfields _ ih =>
    rw [document, Document.value?, fields?_memberDocuments ih, Option.map_some, hfields]

end

theorem spellsChar_stringChar (c : Char) : SpellsChar c (stringChar c) := by
  unfold stringChar
  split
  · exact .letter rfl
  · exact .letter rfl
  · exact .letter rfl
  · exact .letter rfl
  · exact .letter rfl
  · exact .letter rfl
  · exact .letter rfl
  · rename_i hquote hslash _ _ _ _ _
    split
    · rename_i hcontrol
      have hcode : ∀ n < 0x20,
          hexCode? ['0', '0', Nat.digitChar (n / 16), Nat.digitChar (n % 16)] = some n := by
        decide
      exact .code (hcode c.toNat hcontrol)
    · rename_i hcontrol
      exact .plain (Nat.le_of_not_lt hcontrol) hquote hslash

theorem spellsString_string (s : String) : SpellsString s (string s) := by
  have hchars (cs : List Char) : SpellsChars cs (cs.flatMap stringChar) := by
    induction cs with
    | nil => exact .nil
    | cons c cs ih => exact .cons (spellsChar_stringChar c) ih
  have hquoted := SpellsString.quoted (hchars s.toList)
  rwa [String.ofList_toList] at hquoted

/-- Digits of a number start with a zero only if there is no other one. -/
theorem toDigits_mem_wholes (n : Nat) : Nat.toDigits 10 n ∈ wholes := by
  refine ⟨⟨Nat.toDigits_ne_nil, List.all_eq_true.1 (Number.toDigits_all_isDigit n)⟩, ?_⟩
  induction n using Nat.strongRecOn with
  | ind n ih =>
    rw [Nat.toDigits_eq_if (by decide)]
    split
    · intro hzero
      rw [List.head?_cons, Option.some.injEq] at hzero
      rw [hzero]
    · rename_i hn
      intro hzero
      rw [List.head?_append_of_ne_nil _ Nat.toDigits_ne_nil] at hzero
      have hdigits := ih (n / 10) (by omega) hzero
      have hvalue := Number.digitsValue_toDigits (n / 10)
      rw [hdigits] at hvalue
      have hquotient : 0 = n / 10 := hvalue
      omega

theorem integer_mem_numbers (n : Int64) : (toString n.toInt).toList ∈ numbers := by
  have hwhole := toDigits_mem_wholes n.toInt.natAbs
  have hspelled : (Leaf.FloatParts.mk (Nat.toDigits 10 n.toInt.natAbs) [] []).Spelled :=
    ⟨hwhole.1.2, .inl rfl, .inl rfl, .inl hwhole.1.1⟩
  have htext : (Leaf.FloatParts.mk (Nat.toDigits 10 n.toInt.natAbs) [] []).text =
      Nat.toDigits 10 n.toInt.natAbs := List.append_nil _
  rw [Number.toString_toInt, mem_numbers]
  refine ⟨_, ?_, _, hspelled, hwhole, by rw [htext]⟩
  split
  · exact .inr rfl
  · exact .inl rfl

theorem blank_lineBreak (style : Style) (level : Nat) : Blank (style.lineBreak level) := by
  cases style with
  | compact => exact blank_nil
  | pretty =>
    refine List.forall_mem_cons.2 ⟨rfl, fun c hc => ?_⟩
    rw [List.eq_of_mem_replicate hc]
    rfl

theorem exists_colon (style : Style) : ∃ before, Blank before ∧ style.colon = ':' :: before := by
  cases style with
  | compact => exact ⟨[], blank_nil, rfl⟩
  | pretty => exact ⟨[' '], by simp [Blank, isBlank], rfl⟩

section
variable {style : Style} {level : Nat} {after : List Char}

theorem row_itemsText (hafter : Blank after) {v : Value} {vs : List Value}
    (h : ∀ w ∈ v :: vs, Spells (document w) (valueText style level w)) :
    Row ']' Spells (documents (v :: vs))
      (valueText style level v ++ (itemsText style level vs ++ (after ++ [']']))) := by
  have hv := h v List.mem_cons_self
  induction vs generalizing v with
  | nil => exact .last hv hafter
  | cons w vs ih =>
    have hrest := ih (fun u hu => h u (List.mem_cons_of_mem _ hu))
      (h w (List.mem_cons_of_mem _ List.mem_cons_self))
    have hrow := Row.next hv blank_nil (blank_lineBreak style level) hrest
    simpa only [documents, itemsText, List.nil_append, List.cons_append, List.append_assoc]
      using hrow

theorem spellsMember_field {name : String} {v : Value}
    (h : Spells (document v) (valueText style level v)) :
    SpellsMember Spells (name, document v)
      (string name ++ (style.colon ++ valueText style level v)) := by
  obtain ⟨before, hbefore, hcolon⟩ := exists_colon style
  have hmember := SpellsMember.named (spellsString_string name) blank_nil hbefore h
  rwa [hcolon, List.cons_append]

theorem row_fieldsText (hafter : Blank after) {name : String} {v : Value}
    {fields : List (String × Value)}
    (h : ∀ field ∈ (name, v) :: fields,
      Spells (document field.2) (valueText style level field.2)) :
    Row '\x7d' (SpellsMember Spells) (memberDocuments ((name, v) :: fields))
      (string name ++ (style.colon ++ valueText style level v) ++
        (fieldsText style level fields ++ (after ++ ['\x7d']))) := by
  have hmember : SpellsMember Spells (name, document v) _ :=
    spellsMember_field (h (name, v) List.mem_cons_self)
  induction fields generalizing name v with
  | nil => exact .last hmember hafter
  | cons field fields ih =>
    obtain ⟨other, w⟩ := field
    have hother := h (other, w) (List.mem_cons_of_mem _ List.mem_cons_self)
    have hrest := ih (fun field hfield => h field (List.mem_cons_of_mem _ hfield))
      (spellsMember_field hother)
    have hrow := Row.next hmember blank_nil (blank_lineBreak style level) hrest
    simpa only [memberDocuments, fieldsText, List.nil_append, List.cons_append,
      List.append_assoc] using hrow

end

/-- A text of a value without floats spells the document of the value. -/
theorem spells_valueText {good : Record Value → Prop} {v : Value} (hv : Plain good v)
    (style : Style) (level : Nat) : Spells (document v) (valueText style level v) := by
  induction hv generalizing level with
  | null => exact .word List.mem_cons_self
  | bool b =>
    cases b with
    | false => exact .word (List.mem_cons_of_mem _ (List.mem_cons_of_mem _ List.mem_cons_self))
    | true => exact .word (List.mem_cons_of_mem _ List.mem_cons_self)
  | int n => exact .number (integer_mem_numbers n)
  | str s => exact .string (spellsString_string s)
  | @list items _ ih =>
    cases items with
    | nil => exact .array (.empty blank_nil)
    | cons v vs =>
      have hrow := row_itemsText (blank_lineBreak style level) fun w hw => ih w hw (level + 1)
      have hspells := Spells.array (.row (blank_lineBreak style (level + 1)) hrow)
      simpa only [document, valueText, List.append_assoc] using hspells
  | @record fields _ _ ih =>
    cases fields with
    | nil => exact .object (.empty blank_nil)
    | cons field fields =>
      obtain ⟨name, v⟩ := field
      have hrow := row_fieldsText (blank_lineBreak style level) fun w hw => ih w hw (level + 1)
      have hspells := Spells.object (.row (blank_lineBreak style (level + 1)) hrow)
      simpa only [document, valueText, List.append_assoc] using hspells

end TextGrammar.Json
