import TextGrammar.Proofs.Action.Variables

/-! # Evaluation keeps what is assigned

No evaluation adds or drops slots, and none takes the value of a slot away. -/

namespace TextGrammar.Action
variable {α β : Type}

/-- Later locals have the slots of earlier ones, and a value wherever those have one. -/
structure Extends (M L : Locals) : Prop where
  length : M.length = L.length
  assigned : ∀ slot, Assigned L slot → Assigned M slot

namespace Extends
variable {L M N : Locals}

theorem refl (L : Locals) : Extends L L := ⟨rfl, fun _ h => h⟩

theorem trans (hNM : Extends N M) (hML : Extends M L) : Extends N L :=
  ⟨hNM.length.trans hML.length, fun slot h => hNM.assigned slot (hML.assigned slot h)⟩

end Extends

/-- A slot that is written has a value. -/
theorem assigned_set {L : Locals} {slot : Nat} {v : Value} (h : slot < L.length) :
    Assigned (L.set slot (some v)) slot := ⟨v, by simp [h]⟩

/-- Writing a slot takes no other value away. -/
theorem extends_set (L : Locals) (slot : Nat) (v : Value) :
    Extends (L.set slot (some v)) L := by
  refine ⟨List.length_set, fun other hother => ?_⟩
  obtain ⟨w, hw⟩ := hother
  obtain ⟨hlt, -⟩ := List.getElem?_eq_some_iff.1 hw
  by_cases h : slot = other
  · subst h
    exact assigned_set hlt
  · exact ⟨w, by rw [List.getElem?_set_ne h, hw]⟩

/-- An evaluation only extends the locals. -/
def Grows (m : Evaluation α) : Prop :=
  ∀ ⦃L : Locals⦄ ⦃x : α⦄ ⦃M : Locals⦄, Yields m L x M → Extends M L

namespace Grows

theorem pure (x : α) : Grows (pure x) := by
  intro L y M h
  obtain ⟨-, rfl⟩ := yields_pure.1 h
  exact .refl L

theorem throw (fault : Fault) : Grows (throw fault : Evaluation α) :=
  fun _ _ _ h => absurd h yields_throw

theorem lift (m : Except Fault α) : Grows (liftM m : Evaluation α) := by
  intro L x M h
  obtain ⟨-, rfl⟩ := yields_lift.1 h
  exact .refl L

theorem bind {m : Evaluation α} {f : α → Evaluation β} (hm : Grows m) (hf : ∀ x, Grows (f x)) :
    Grows (m >>= f) := by
  intro L y N h
  obtain ⟨x, M, hx, hy⟩ := yields_bind.1 h
  exact (hf x hy).trans (hm hx)

theorem readLocal (name : String) (slot : Nat) : Grows (readLocal name slot) := by
  intro L v M h
  obtain ⟨-, rfl⟩ := readLocal_yields.1 h
  exact .refl L

theorem writeLocal (name : String) (slot : Nat) (v : Value) : Grows (writeLocal name slot v) := by
  intro L _ M h
  obtain ⟨-, rfl⟩ := writeLocal_yields.1 h
  exact extends_set L slot v

theorem runLoop {name : String} {slot : Nat} {body : Evaluation Flow} (hbody : Grows body)
    (count : Nat) (i : Int) : Grows (runLoop name slot body count i) := by
  induction count generalizing i with
  | zero => exact pure ()
  | succ count ih =>
    refine bind (writeLocal name slot _) fun _ => bind hbody fun flow => ?_
    cases flow with
    | left => exact pure ()
    | onward => exact ih (i + 1)

end Grows

section
variable (frames : List Frame)

mutual

theorem operand_grows : ∀ e : Expr, Grows (operand frames e)
  | .literal _ => .pure _
  | .captured _ _ _ => .bind (.lift _) fun _ => .pure _
  | .fetch name slot => .bind (.readLocal name slot) fun _ => .pure _
  | .index base position =>
    .bind (operand_grows position) fun _ => .bind (operand_grows base) fun _ => .lift _
  | .field base _ => .bind (operand_grows base) fun _ => .lift _
  | .call callee arguments => by
    unfold operand
    split
    · exact .throw _
    · split
      · rename_i argument
        exact .bind (operand_grows argument) fun _ => .bind (.lift _) fun _ => .pure _
      · exact .throw _
  | .binary _ lhs rhs =>
    .bind (operand_grows lhs) fun _ => .bind (operand_grows rhs) fun _ =>
      .bind (.lift _) fun _ => .pure _
  | .list items => .bind (values_grows items) fun _ => .pure _
  | .record fields => .bind (fieldValues_grows fields) fun _ => .pure _
  | .block (.mk stmts result) =>
    .bind (runAll_grows stmts) fun _ => .bind (resultValue_grows result) fun _ => .pure _

theorem values_grows : ∀ es : List Expr, Grows (values frames es)
  | [] => .pure _
  | e :: es => .bind (operand_grows e) fun _ => .bind (values_grows es) fun _ => .pure _

theorem fieldValues_grows : ∀ fields : List (String × Expr), Grows (fieldValues frames fields)
  | [] => .pure _
  | (_, e) :: rest =>
    .bind (operand_grows e) fun _ => .bind (fieldValues_grows rest) fun _ => .pure _

theorem resultValue_grows : ∀ e : Option Expr, Grows (resultValue frames e)
  | none => .pure _
  | some e => .bind (operand_grows e) fun _ => .pure _

theorem runAll_grows : ∀ stmts : List Stmt, Grows (runAll frames stmts)
  | [] => .pure _
  | s :: rest => .bind (run_grows s) fun _ => runAll_grows rest

theorem runStmts_grows : ∀ stmts : List Stmt, Grows (runStmts frames stmts)
  | [] => .pure _
  | s :: rest => by
    refine .bind (run_grows s) fun flow => ?_
    cases flow with
    | left => exact .pure _
    | onward => exact runStmts_grows rest

theorem runBlock_grows : ∀ b : Block, Grows (runBlock frames b)
  | .mk stmts result => by
    refine .bind (runStmts_grows stmts) fun flow => ?_
    cases flow with
    | left => exact .pure _
    | onward => exact .bind (resultValue_grows result) fun _ => .pure _

theorem runOtherwise_grows : ∀ b : Option Block, Grows (runOtherwise frames b)
  | none => .pure _
  | some b => runBlock_grows b

theorem run_grows : ∀ s : Stmt, Grows (run frames s)
  | .bind name slot value =>
    .bind (operand_grows value) fun _ => .bind (.writeLocal name slot _) fun _ => .pure _
  | .assign name slot .set value =>
    .bind (operand_grows value) fun _ => .bind (.writeLocal name slot _) fun _ => .pure _
  | .assign name slot .append value =>
    .bind (operand_grows value) fun _ => .bind (.readLocal name slot) fun _ =>
      .bind (.lift _) fun _ => .bind (.writeLocal name slot _) fun _ => .pure _
  | .loop _ _ start stop body =>
    .bind (operand_grows start) fun _ => .bind (.lift _) fun _ =>
      .bind (operand_grows stop) fun _ => .bind (.lift _) fun _ =>
        .bind (.runLoop (runBlock_grows body) _ _) fun _ => .pure _
  | .branch condition yes no => by
    refine .bind (operand_grows condition) fun o => ?_
    split
    · exact runBlock_grows yes
    · exact runOtherwise_grows no
    · exact .throw _
  | .leave => .pure _

end

end

end TextGrammar.Action
