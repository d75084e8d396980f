import TextGrammar.Proofs.Action.Agreement

/-! # Captures are read in place

Evaluation that reads captures where they are comes to the same as evaluation that turns each
capture into a value first, if no captured record has two fields of one name. Whether an operand is
captured, borrowed or owned makes no difference. -/

namespace TextGrammar
open TextGrammar.Action (Operand Frame FramesDistinct)

/-- Whatever the locals are, and whatever distinct names the captured records in the frames have:
every expression gives the same value or fault and leaves the same locals if captures are read in
place as if they are copied first, and so does every statement. What an index or a field takes out
of a capture has the value that it takes out of the value of the capture. And a capture has the
same value whether it is kept or given up. -/
theorem reading_in_place :
    (∀ frames : List Frame, FramesDistinct frames →
      (∀ e locals, ((Action.operand frames e).run locals).map (fun (o, left) => (o.toValue, left)) =
        (Copying.value frames e).run locals) ∧
      (∀ s locals, (Action.run frames s).run locals = (Copying.run frames s).run locals) ∧
      ∀ slots body, Action.evaluate slots body frames = Copying.evaluate slots body frames) ∧
    (∀ c : Capture, c.Distinct →
      (∀ position, ((Operand.captured c).index position).map Operand.toValue =
        Copying.item c.toValue position) ∧
      ∀ name, ((Operand.captured c).field name).map Operand.toValue =
        Copying.field c.toValue name) ∧
    ∀ c : Capture, c.intoValue = c.toValue := by
  refine ⟨fun frames hframes => ⟨?_, ?_, ?_⟩, fun c hc => ⟨?_, ?_⟩, Capture.intoValue_eq_toValue⟩
  · intro e locals
    rw [← (Action.operand_agrees hframes e).toValue]
    rw [StateT.run_bind]
    cases (Action.operand frames e).run locals <;> rfl
  · intro s locals
    rw [(Action.run_agrees hframes s).eq]
  · intro slots body
    unfold Action.evaluate Copying.evaluate
    rw [← (Action.operand_agrees hframes body).toValue, StateT.run_bind]
    cases (Action.operand frames body).run (List.replicate slots none) <;> rfl
  · exact Operand.index_captured c
  · exact Operand.field_captured hc

def nestedFrame : Frame :=
  [some (.list [.record [("key", .text "a")],
    .record [("key", .text "b"), ("sizes", .value (.list [.int 5, .int 7]))]])]

def nestedRead : Expr :=
  .index (.field (.index (.captured "rows" 0 0) (.literal (.int 1))) "sizes") (.literal (.int 1))

theorem framesDistinct_nested : FramesDistinct [nestedFrame] := by
  intro frame hframe c hc
  obtain rfl := List.mem_singleton.1 hframe
  obtain rfl := Option.some.inj (List.mem_singleton.1 hc)
  refine .list (List.forall_mem_cons.2 ⟨.record (by decide) ?_,
    List.forall_mem_singleton.2 (.record (by decide) ?_)⟩)
  · exact List.forall_mem_singleton.2 (.text "a")
  · exact List.forall_mem_cons.2 ⟨.text "b", List.forall_mem_singleton.2 (.value _)⟩

theorem reading_in_place_nested :
    FramesDistinct [nestedFrame] ∧
      Action.evaluate 0 nestedRead [nestedFrame] = Copying.evaluate 0 nestedRead [nestedFrame] ∧
      Copying.evaluate 0 nestedRead [nestedFrame] = .ok (.int 7) :=
  ⟨framesDistinct_nested, (reading_in_place.1 _ framesDistinct_nested).2.2 0 nestedRead, rfl⟩

end TextGrammar
