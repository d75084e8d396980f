import TextGrammar.Proofs.Record.History

/-! # Records are ordered maps

Whatever is done with a record, it is a finite map whose names stand in the order in which they
came in. -/

namespace TextGrammar.Record
variable {α : Type}

/-- A record that collects some named values and then undergoes any operations accords with its
history: it names each field once, a name has the value that was inserted last since the name was
removed last, and the names are in the order of their first insertions since then. Inserting a name
that is there changes its value alone, and removing it answers that value and takes its field
alone; a name that is not there goes to the end, and there is nothing to remove. -/
theorem record_ordered_map (initial : List (String × α)) (operations : List (Operation α)) :
    let r := (ofList initial).performAll operations
    Accords (initial.map (fun field => .insert field.1 field.2) ++ operations) r ∧
      (∀ name, r.perform (.get name) = (r.get? name, r) ∧
        (r.perform (.remove name)).1 = r.get? name) ∧
      (∀ front name old back, r = front ++ (name, old) :: back →
        (∀ value, (r.perform (.insert name value)).2 = front ++ (name, value) :: back) ∧
        r.perform (.remove name) = (some old, front ++ back)) ∧
      ∀ name, name ∉ r.names →
        (∀ value, (r.perform (.insert name value)).2 = r ++ [(name, value)]) ∧
        r.perform (.remove name) = (none, r) := by
  intro r
  have haccords : Accords (initial.map (fun field => .insert field.1 field.2) ++ operations) r := by
    have hcollected := Accords.nil.performAll (initial.map fun field => .insert field.1 field.2)
    rw [List.nil_append, ← ofList_eq_performAll] at hcollected
    exact hcollected.performAll operations
  refine ⟨haccords, fun name => ⟨rfl, by rw [perform_remove]⟩, ?_, ?_⟩
  · intro front name old back hr
    have hfront : name ∉ names front := notMem_front (hr ▸ haccords.distinct)
    refine ⟨fun value => hr ▸ insert_append_cons hfront old value back, ?_⟩
    rw [perform_remove, hr, get?_append_cons hfront, erase_append_cons hfront]
  · intro name hname
    refine ⟨fun value => insert_of_notMem hname value, ?_⟩
    rw [perform_remove, get?_eq_none_iff.2 hname, erase_of_notMem hname]

/-- A name that is removed and inserted again goes behind the others. -/
theorem record_ordered_map_again :
    let r := (ofList [("b", 1), ("a", 2), ("b", 3)]).performAll
      [.remove "b", .get "b", .insert "b" 4]
    r = [("a", 2), ("b", 4)] ∧ r.perform (.remove "a") = (some 2, [("b", 4)]) ∧
      "c" ∉ r.names ∧ r.perform (.remove "c") = (none, r) := by
  obtain ⟨-, -, hthere, hnew⟩ := record_ordered_map [("b", 1), ("a", 2), ("b", 3)]
    [.remove "b", .get "b", .insert "b" 4]
  exact ⟨by decide, (hthere [] "a" 2 [("b", 4)] (by decide)).2, by decide,
    (hnew "c" (by decide)).2⟩

end TextGrammar.Record
