import TextGrammar.Proofs.Action.Projection
import TextGrammar.Proofs.Computation

/-! # Reading in place and copying first

Evaluation that reads captures where they are yields an operand where evaluation that copies first
yields its value. The two fault alike and leave the same locals, so that statements do the same. -/

namespace TextGrammar.Action
variable {α β γ δ : Type}

/-- The names within each captured record of some frames are distinct. -/
def FramesDistinct (frames : List Frame) : Prop :=
  ∀ frame ∈ frames, ∀ c, some c ∈ frame → c.Distinct

theorem FramesDistinct.captureAt {frames : List Frame} (h : FramesDistinct frames) {name : String}
    {depth slot : Nat} {c : Capture} (hc : captureAt frames name depth slot = .ok c) :
    c.Distinct := by
  unfold Action.captureAt at hc
  split at hc
  · split at hc <;> cases hc
    exact h _ (List.mem_of_getElem? ‹_›) _ (List.mem_of_getElem? ‹_›)
  · cases hc

/-- From all locals, two evaluations fault in the same way, or yield related results and leave the
same locals. -/
def Agrees (R : α → β → Prop) (m : Evaluation α) (r : Evaluation β) : Prop :=
  ∀ L, (∃ fault, Faults m L fault ∧ Faults r L fault) ∨
    ∃ x y M, Yields m L x M ∧ Yields r L y M ∧ R x y

/-- An operand stands for a value, and has distinct names within each captured record. -/
def Copies (o : Operand) (v : Value) : Prop := o.toValue = v ∧ o.Distinct

theorem copies_borrowed (v : Value) : Copies (.borrowed v) v := ⟨rfl, trivial⟩

theorem copies_owned (v : Value) : Copies (.owned v) v := ⟨rfl, trivial⟩

namespace Agrees
variable {R : α → β → Prop} {S : γ → δ → Prop}

theorem bind {m : Evaluation α} {r : Evaluation β} {f : α → Evaluation γ} {g : β → Evaluation δ}
    (h : Agrees R m r) (hf : ∀ x y, R x y → Agrees S (f x) (g y)) :
    Agrees S (m >>= f) (r >>= g) := by
  intro L
  obtain ⟨fault, hm, hr⟩ | ⟨x, y, M, hm, hr, hxy⟩ := h L
  · exact .inl ⟨fault, faults_bind.2 (.inl hm), faults_bind.2 (.inl hr)⟩
  · obtain ⟨fault, hfx, hgy⟩ | ⟨z, w, N, hfx, hgy, hzw⟩ := hf x y hxy M
    · exact .inl ⟨fault, faults_bind.2 (.inr ⟨x, M, hm, hfx⟩),
        faults_bind.2 (.inr ⟨y, M, hr, hgy⟩)⟩
    · exact .inr ⟨z, w, N, yields_bind.2 ⟨x, M, hm, hfx⟩, yields_bind.2 ⟨y, M, hr, hgy⟩, hzw⟩

theorem pure {x : α} {y : β} (h : R x y) : Agrees R (pure x) (pure y) :=
  fun L => .inr ⟨x, y, L, yields_pure.2 ⟨rfl, rfl⟩, yields_pure.2 ⟨rfl, rfl⟩, h⟩

theorem throw {fault : Fault} : Agrees R (throw fault) (throw fault) :=
  fun _ => .inl ⟨fault, faults_throw.2 rfl, faults_throw.2 rfl⟩

/-- Steps that change no locals. -/
theorem lift {m : Except Fault α} {r : Except Fault β} {f : α → β} (hr : m.map f = r)
    (h : ∀ x, m = .ok x → R x (f x)) : Agrees R (liftM m) (liftM r) := by
  subst hr
  intro L
  cases hm : m with
  | error fault => exact .inl ⟨fault, faults_lift.2 rfl, faults_lift.2 rfl⟩
  | ok x =>
    exact .inr ⟨x, f x, L, yields_lift.2 ⟨rfl, rfl⟩, yields_lift.2 ⟨rfl, rfl⟩, h x hm⟩

theorem same (m : Evaluation α) : Agrees Eq m m := by
  intro L
  cases hm : m.run L with
  | error fault => exact .inl ⟨fault, hm, hm⟩
  | ok result => exact .inr ⟨result.1, result.1, result.2, hm, hm, rfl⟩

theorem eq {m r : Evaluation α} (h : Agrees Eq m r) : m = r := by
  funext L
  obtain ⟨fault, hm, hr⟩ | ⟨x, _, M, hm, hr, rfl⟩ := h L
  · exact hm.trans hr.symm
  · exact hm.trans hr.symm

/-- What was computed without an operand may be passed on as one. -/
theorem held {hold : Value → Operand} (hhold : ∀ v, Copies (hold v) v) (m : Evaluation Value) :
    Agrees Copies (m >>= fun v => Pure.pure (hold v)) m := by
  have h : Agrees Copies (m >>= fun v => Pure.pure (hold v)) (m >>= fun v => Pure.pure v) :=
    (same m).bind fun v _ heq => heq ▸ pure (hhold v)
  rwa [bind_pure] at h

theorem borrowed (m : Evaluation Value) :
    Agrees Copies (m >>= fun v => Pure.pure (.borrowed v)) m :=
  held copies_borrowed m

theorem owned (m : Evaluation Value) : Agrees Copies (m >>= fun v => Pure.pure (.owned v)) m :=
  held copies_owned m

/-- Turning the operand into a value makes the evaluations the same. -/
theorem toValue {m : Evaluation Operand} {r : Evaluation Value} (h : Agrees Copies m r) :
    (m >>= fun o => Pure.pure o.toValue) = r := by
  have hcopied : Agrees Eq (m >>= fun o => Pure.pure o.toValue) (r >>= fun v => Pure.pure v) :=
    h.bind fun _ _ ⟨ho, _⟩ => pure ho
  rw [bind_pure] at hcopied
  exact hcopied.eq

/-- The rounds of a loop. -/
theorem runLoop {body copying : Evaluation Flow} (h : Agrees Eq body copying) (name : String)
    (slot count : Nat) (i : Int) :
    Agrees Eq (runLoop name slot body count i) (runLoop name slot copying count i) := by
  rw [h.eq]
  exact same _

end Agrees

section
variable {frames : List Frame}

mutual

theorem operand_agrees (hframes : FramesDistinct frames) :
    ∀ e : Expr, Agrees Copies (operand frames e) (Copying.value frames e)
  | .literal v => .pure (copies_borrowed v)
  | .captured name depth slot => by
    have hread : Agrees (fun c d => c = d ∧ c.Distinct) (liftM (captureAt frames name depth slot))
        (liftM (captureAt frames name depth slot)) :=
      .lift (f := id) (by cases captureAt frames name depth slot <;> rfl) fun _ hc =>
        ⟨rfl, hframes.captureAt hc⟩
    exact hread.bind fun c _ ⟨heq, hdistinct⟩ => .pure ⟨congrArg Capture.toValue heq, hdistinct⟩
  | .fetch name slot => .borrowed (readLocal name slot)
  | .index base position =>
    -- Both evaluate the position first, so that its fault is the one that counts.
    .bind (operand_agrees hframes position) fun p _ ⟨hp, _⟩ =>
      .bind (operand_agrees hframes base) fun o _ ⟨ho, hdistinct⟩ => by
        subst hp ho
        exact .lift (o.index_toValue p.toValue) fun q hq => ⟨rfl, hdistinct.index hq⟩
  | .field base name =>
    .bind (operand_agrees hframes base) fun o _ ⟨ho, hdistinct⟩ => by
      subst ho
      exact .lift (Operand.field_toValue hdistinct name) fun q hq => ⟨rfl, hdistinct.field hq⟩
  | .call callee arguments => by
    unfold operand Copying.value
    cases Builtin.ofName? callee with
    | none => exact .throw
    | some b =>
      match arguments with
      | [argument] =>
        refine .bind (operand_agrees hframes argument) fun o _ ⟨ho, _⟩ => ?_
        subst ho
        rw [← Operand.apply_toValue]
        exact .owned _
      | [] | _ :: _ :: _ => exact .throw
  | .binary op lhs rhs =>
    .bind (operand_agrees hframes lhs) fun o _ ⟨ho, _⟩ =>
      .bind (operand_agrees hframes rhs) fun p _ ⟨hp, _⟩ => by
        subst ho hp
        exact .owned _
  | .list items =>
    .bind (values_agrees hframes items) fun _ _ heq => heq ▸ .pure (copies_owned _)
  | .record fields =>
    .bind (fieldValues_agrees hframes fields) fun _ _ heq =>
      heq ▸ .pure (copies_owned _)
  | .block (.mk stmts result) =>
    .bind (runAll_agrees hframes stmts) fun _ _ _ => by
      rw [(resultValue_agrees hframes result).eq]
      exact .owned _

theorem values_agrees (hframes : FramesDistinct frames) :
    ∀ es : List Expr, Agrees Eq (values frames es) (Copying.values frames es)
  | [] => .pure rfl
  | e :: es =>
    .bind (operand_agrees hframes e) fun _ _ ⟨ho, _⟩ =>
      .bind (values_agrees hframes es) fun _ _ heq => ho ▸ heq ▸ .pure rfl

theorem fieldValues_agrees (hframes : FramesDistinct frames) :
    ∀ fields : List (String × Expr),
      Agrees Eq (fieldValues frames fields) (Copying.fieldValues frames fields)
  | [] => .pure rfl
  | (_, e) :: rest =>
    .bind (operand_agrees hframes e) fun _ _ ⟨ho, _⟩ =>
      .bind (fieldValues_agrees hframes rest) fun _ _ heq =>
        ho ▸ heq ▸ .pure rfl

theorem resultValue_agrees (hframes : FramesDistinct frames) :
    ∀ e : Option Expr, Agrees Eq (resultValue frames e) (Copying.resultValue frames e)
  | none => .pure rfl
  | some e => by
    unfold resultValue Copying.resultValue
    rw [(operand_agrees hframes e).toValue]
    exact .same _

theorem runAll_agrees (hframes : FramesDistinct frames) :
    ∀ stmts : List Stmt, Agrees Eq (runAll frames stmts) (Copying.runAll frames stmts)
  | [] => .pure rfl
  | s :: rest => .bind (run_agrees hframes s) fun _ _ _ => runAll_agrees hframes rest

theorem runStmts_agrees (hframes : FramesDistinct frames) :
    ∀ stmts : List Stmt, Agrees Eq (runStmts frames stmts) (Copying.runStmts frames stmts)
  | [] => .pure rfl
  | s :: rest => by
    refine .bind (run_agrees hframes s) fun flow _ heq => ?_
    subst heq
    cases flow with
    | left => exact .pure rfl
    | onward => exact runStmts_agrees hframes rest

theorem runBlock_agrees (hframes : FramesDistinct frames) :
    ∀ b : Block, Agrees Eq (runBlock frames b) (Copying.runBlock frames b)
  | .mk stmts result => by
    refine .bind (runStmts_agrees hframes stmts) fun flow _ heq => ?_
    subst heq
    cases flow with
    | left => exact .pure rfl
    | onward => exact .bind (resultValue_agrees hframes result) fun _ _ _ => .pure rfl

theorem runOtherwise_agrees (hframes : FramesDistinct frames) :
    ∀ b : Option Block, Agrees Eq (runOtherwise frames b) (Copying.runOtherwise frames b)
  | none => .pure rfl
  | some b => runBlock_agrees hframes b

theorem run_agrees (hframes : FramesDistinct frames) :
    ∀ s : Stmt, Agrees Eq (run frames s) (Copying.run frames s)
  | .bind name slot value =>
    .bind (operand_agrees hframes value) fun _ _ ⟨ho, _⟩ => ho ▸ .same _
  | .assign name slot .set value =>
    .bind (operand_agrees hframes value) fun _ _ ⟨ho, _⟩ => ho ▸ .same _
  | .assign name slot .append value =>
    .bind (operand_agrees hframes value) fun _ _ ⟨ho, _⟩ => ho ▸ .same _
  | .loop name slot start stop body =>
    .bind (operand_agrees hframes start) fun o _ ⟨ho, _⟩ => by
      subst ho
      refine .bind (.same (liftM (asInteger o))) fun _ i heq => ?_
      subst heq
      refine .bind (operand_agrees hframes stop) fun p _ ⟨hp, _⟩ => ?_
      subst hp
      refine .bind (.same (liftM (asInteger p))) fun _ j heq => ?_
      subst heq
      exact .bind (.runLoop (runBlock_agrees hframes body) _ _ _ _) fun _ _ _ => .pure rfl
  | .branch condition yes no => by
    refine .bind (operand_agrees hframes condition) fun o _ ⟨ho, _⟩ => ?_
    subst ho
    cases o.toValue with
    | bool b =>
      cases b with
      | true => exact runBlock_agrees hframes yes
      | false => exact runOtherwise_agrees hframes no
    | null | int _ | float _ | str _ | list _ | record _ => exact .throw
  | .leave => .pure rfl

end

end

end TextGrammar.Action
