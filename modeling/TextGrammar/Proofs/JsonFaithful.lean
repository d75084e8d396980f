import TextGrammar.Proofs.Json.Decoding
import TextGrammar.Proofs.Json.Writing

/-! # Faithful JSON

The texts of a value are JSON, they say the same, and the value can be read back from them. -/

namespace TextGrammar.Json

/-- Both texts of a value without floats denote the document of the value and nothing else, and the
decoder finds it. The value is read back from the document if the members of objects are taken in
order, and also if they are inserted one after the other, as long as each record of the value names
each field once. So values without floats that differ have different texts in all styles. -/
theorem json_faithful {v : Value} (hv : Plain (fun _ => True) v) :
    (∀ style, (∀ d, Denotes d (text style v).toList ↔ d = document v) ∧
      decode (text style v) = some (document v)) ∧
    (document v).value? id = some v ∧
    (Plain (fun fields => fields.names.Nodup) v → (document v).value? Record.ofList = some v) ∧
    ∀ w, Plain (fun _ => True) w → ∀ style style', text style v = text style' w → v = w := by
  have hdenotes {u : Value} (hu : Plain (fun _ => True) u) (style : Style) :
      Denotes (document u) (text style u).toList := by
    rw [text, String.toList_ofList, ← List.append_nil (valueText style 0 u)]
    exact .mk blank_nil (spells_valueText hu style 0) blank_nil
  have hdecode {u : Value} (hu : Plain (fun _ => True) u) (style : Style) :
      decode (text style u) = some (document u) := decode_eq_some_iff.2 (hdenotes hu style)
  have hread {u : Value} (hu : Plain (fun _ => True) u) : (document u).value? id = some u :=
    value?_document (hu.mono fun _ _ => rfl)
  refine ⟨fun style => ⟨fun d => ?_, hdecode hv style⟩, hread hv, fun hnames => ?_, ?_⟩
  · constructor
    · intro hd
      exact Option.some.inj ((decode_eq_some_iff.2 hd).symm.trans (hdecode hv style))
    · rintro rfl
      exact hdenotes hv style
  · exact value?_document (hnames.mono fun _ => Record.ofList_of_nodup)
  · intro w hw style style' htext
    have hdocument := hdecode hv style
    rw [htext, hdecode hw style'] at hdocument
    have hvalue := hread hw
    rw [Option.some.inj hdocument, hread hv] at hvalue
    exact Option.some.inj hvalue

/-- A value with a control character, the least integer, and an empty list beside an empty
record. -/
def mixed : Value :=
  .record [("a\x01\n", .list [.list [], .record []]), ("", .int Int64.minValue), ("é\"", .null)]

theorem json_faithful_mixed :
    text .compact mixed =
      "\x7b\"a\\u0001\\n\":[[],\x7b\x7d],\"\":-9223372036854775808,\"é\\\"\":null\x7d" ∧
    decode (text .pretty mixed) = some (document mixed) ∧
    (document mixed).value? Record.ofList = some mixed := by
  have hplain {good : Record Value → Prop} (hnil : good [])
      (hmixed : good [("a\x01\n", .list [.list [], .record []]), ("", .int Int64.minValue),
        ("é\"", .null)]) : Plain good mixed := by
    refine .record hmixed ?_
    have hlist : Plain good (.list []) := .list (List.forall_mem_nil _)
    have hrecord : Plain good (.record []) := .record hnil (List.forall_mem_nil _)
    simp only [List.forall_mem_cons]
    refine ⟨.list ?_, .int _, .null, List.forall_mem_nil _⟩
    simp only [List.forall_mem_cons]
    exact ⟨hlist, hrecord, List.forall_mem_nil _⟩
  obtain ⟨htexts, -, hread, -⟩ := json_faithful (hplain trivial trivial)
  exact ⟨by decide, (htexts .pretty).2, hread (hplain (by decide) (by decide))⟩

end TextGrammar.Json
