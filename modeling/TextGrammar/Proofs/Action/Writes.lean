import TextGrammar.Proofs.Action.History

/-! # What an evaluation writes

A declaration, an assignment and a round of a loop write one slot each. As long as only appending
writes a slot, its value at the end of an evaluation is its value at the start with all that the
history of the evaluation appends to it, one value after the other. -/

namespace TextGrammar.Action
variable {α : Type}

/-- A part gives a slot a value by itself: of a variable that is declared or that counts the
rounds of a loop, or of an assignment. An evaluation that yields has written it wherever it came
to such a part. -/
inductive Writes : Part → Nat → Option AssignMode → Prop
  | bind {name : String} {slot : Nat} {value : Expr} :
    Writes (.stmt (.bind name slot value)) slot none
  | round {name : String} {slot : Nat} {body : Block} {count : Nat} {i : Int} :
    Writes (.rounds name slot body (count + 1) i) slot none
  | store {name : String} {slot : Nat} {mode : AssignMode} {v : Value} :
    Writes (.store name slot mode v) slot (some mode)

/-- Nothing but appending writes a slot in a trace. -/
def OnlyAppends (slot : Nat) (trace : List Visit) : Prop :=
  ∀ w ∈ trace, ∀ mode, Writes w.1 slot mode → mode = some .append

def addend? (slot : Nat) : Visit → Option Value
  | (.store _ other .append v, _) => if other = slot then some v else none
  | _ => none

/-- The values that a trace appends to a slot, in order. -/
def addends (slot : Nat) (trace : List Visit) : List Value := trace.filterMap (addend? slot)

theorem addends_append (slot : Nat) (s t : List Visit) :
    addends slot (s ++ t) = addends slot s ++ addends slot t := List.filterMap_append

/-- A trace that only appends to a slot leaves in it what was there with all that it appends. -/
def Sums (slot : Nat) (L : Locals) (trace : List Visit) (M : Locals) : Prop :=
  OnlyAppends slot trace → ∀ old, L[slot]? = some (some old) →
    ∃ new, (addends slot trace).foldlM append old = .ok new ∧ M[slot]? = some (some new)

namespace Sums
variable {slot other : Nat} {L K M : Locals} {s t trace : List Visit} {v : Visit} {x : Value}

theorem nil : Sums slot L [] L := fun _ old hold => ⟨old, rfl, hold⟩

theorem append (hs : Sums slot L s K) (ht : Sums slot K t M) : Sums slot L (s ++ t) M := by
  intro honly old hold
  obtain ⟨mid, hmid, hK⟩ := hs (fun w hw => honly w (List.mem_append_left _ hw)) old hold
  obtain ⟨new, hnew, hM⟩ := ht (fun w hw => honly w (List.mem_append_right _ hw)) mid hK
  refine ⟨new, ?_, hM⟩
  rw [addends_append, List.foldlM_append, hmid]
  exact hnew

theorem cons (hv : addend? slot v = none) (h : Sums slot L t M) : Sums slot L (v :: t) M := by
  intro honly old hold
  obtain ⟨new, hnew, hM⟩ := h (fun w hw => honly w (List.mem_cons_of_mem _ hw)) old hold
  exact ⟨new, by rwa [addends, List.filterMap_cons_none hv], hM⟩

/-- A slot that is overwritten is not one to which its trace only appends. -/
theorem ne_of_overwritten {mode : Option AssignMode} (honly : OnlyAppends slot trace)
    (hv : v ∈ trace) (hw : Writes v.1 other mode) (hmode : mode ≠ some .append) :
    other ≠ slot := by
  rintro rfl
  exact hmode (honly v hv mode hw)

theorem overwrite {mode : Option AssignMode} (h : Sums slot L trace M) (hv : v ∈ trace)
    (hw : Writes v.1 other mode) (hmode : mode ≠ some .append) :
    Sums slot L trace (M.set other (some x)) := by
  intro honly old hold
  rw [List.getElem?_set_ne (ne_of_overwritten honly hv hw hmode)]
  exact h honly old hold

/-- What another slot holds at the start does not matter. -/
theorem unset (h : Sums slot (L.set other (some x)) trace M) (hne : other ≠ slot) :
    Sums slot L trace M := by
  intro honly old hold
  exact h honly old (by rw [List.getElem?_set_ne hne, hold])

theorem store {name : String} {old new : Value} (hold : L[other]? = some (some old))
    (hnew : Action.append old x = .ok new) :
    Sums slot L [(.store name other .append x, L)] (L.set other (some new)) := by
  intro _ start hstart
  by_cases heq : other = slot
  · subst heq
    cases hold.symm.trans hstart
    obtain ⟨hlt, -⟩ := List.getElem?_eq_some_iff.1 hold
    refine ⟨new, ?_, List.getElem?_set_self hlt⟩
    simp [addends, addend?, hnew]
  · have hnone : addends slot [(.store name other .append x, L)] = [] := by
      simp [addends, addend?, heq]
    refine ⟨start, ?_, by rwa [List.getElem?_set_ne heq]⟩
    rw [hnone]
    rfl

end Sums

section
variable (frames : List Frame)

def Accounted (vs : List Visit) (L M : Locals) : Prop :=
  ∃ trace, History frames vs trace ∧ ∀ slot, Sums slot L trace M

def Accounts (m : Evaluation α) (part : Part) : Prop :=
  ∀ ⦃L : Locals⦄ ⦃x : α⦄ ⦃M : Locals⦄, Yields m L x M → Accounted frames [(part, L)] L M

end

variable {frames : List Frame} {v : Visit} {vs ws : List Visit} {L K M : Locals}

namespace Accounted

theorem nil : Accounted frames [] L L := ⟨[], .done, fun _ => .nil⟩

theorem cons (hv : Accounted frames [v] L K) (hvs : Accounted frames vs K M) :
    Accounted frames (v :: vs) L M := by
  obtain ⟨s, hhistory, hs⟩ := hv
  obtain ⟨t, hrest, ht⟩ := hvs
  exact ⟨s ++ t, hhistory.append hrest, fun slot => (hs slot).append (ht slot)⟩

theorem visit (hsteps : steps frames v = ws) (hv : ∀ slot, addend? slot v = none)
    (h : Accounted frames ws L M) : Accounted frames [v] L M := by
  obtain ⟨trace, hhistory, hsums⟩ := h
  subst hsteps
  exact ⟨v :: trace, .of_steps hhistory, fun slot => (hsums slot).cons (hv slot)⟩

/-- A part that is followed by two other parts. -/
theorem two {w u : Visit} (hsteps : steps frames v = [w, u]) (hv : ∀ slot, addend? slot v = none)
    (hw : Accounted frames [w] L K) (hu : Accounted frames [u] K M) : Accounted frames [v] L M :=
  visit hsteps hv (hw.cons hu)

end Accounted

theorem runLoop_accounts {name : String} {slot : Nat} {body : Block}
    (hbody : Accounts frames (runBlock frames body) (.block body)) (count : Nat) (i : Int) :
    Accounts frames (runLoop name slot (runBlock frames body) count i)
      (.rounds name slot body count i) := by
  induction count generalizing i with
  | zero =>
    intro L _ M h
    obtain ⟨-, rfl⟩ := yields_pure.1 h
    exact .visit rfl (fun _ => rfl) .nil
  | succ count ih =>
    intro L _ M h
    simp only [runLoop, yields_bind] at h
    obtain ⟨_, K, hwrite, flow, N, hrun, hrest⟩ := h
    have hrounds : Accounted frames
        (steps frames (.rounds name slot body (count + 1) i, L)) K M := by
      rw [steps, after_of_yields hwrite, after_of_yields hrun]
      cases flow with
      | left =>
        obtain ⟨-, rfl⟩ := yields_pure.1 hrest
        exact hbody hrun
      | onward => exact (hbody hrun).cons (ih (i + 1) hrest)
    obtain ⟨trace, hhistory, hsums⟩ := hrounds
    obtain ⟨-, rfl⟩ := writeLocal_yields.1 hwrite
    refine ⟨_, .of_steps hhistory, fun other honly => ?_⟩
    have hne := Sums.ne_of_overwritten honly List.mem_cons_self .round (Option.some_ne_none _).symm
    exact ((hsums other).unset hne).cons rfl honly

mutual

theorem operand_accounts : ∀ e : Expr, Accounts frames (operand frames e) (.expr e)
  | .literal _, _, _, _, h => by
    obtain ⟨-, rfl⟩ := yields_pure.1 h
    exact .visit rfl (fun _ => rfl) .nil
  | .captured _ _ _, _, _, _, h => by
    simp only [operand, yields_bind, yields_lift, yields_pure] at h
    obtain ⟨_, _, ⟨-, rfl⟩, -, rfl⟩ := h
    exact .visit rfl (fun _ => rfl) .nil
  | .fetch _ _, _, _, _, h => by
    simp only [operand, yields_bind, readLocal_yields, yields_pure] at h
    obtain ⟨_, _, ⟨-, rfl⟩, -, rfl⟩ := h
    exact .visit rfl (fun _ => rfl) .nil
  | .index base position, _, _, _, h => by
    simp only [operand, yields_bind, yields_lift] at h
    obtain ⟨p, K, hp, b, N, hb, -, rfl⟩ := h
    exact .two (by rw [steps, after_of_yields hp]) (fun _ => rfl) (operand_accounts position hp)
      (operand_accounts base hb)
  | .field base _, _, _, _, h => by
    simp only [operand, yields_bind, yields_lift] at h
    obtain ⟨b, K, hb, -, rfl⟩ := h
    exact .visit rfl (fun _ => rfl) (operand_accounts base hb)
  | .call callee [argument], _, _, _, h => by
    unfold operand at h
    split at h
    · exact absurd h yields_throw
    · simp only [yields_bind, yields_lift, yields_pure] at h
      obtain ⟨o, K, ho, _, _, ⟨-, rfl⟩, -, rfl⟩ := h
      exact .visit rfl (fun _ => rfl) (operand_accounts argument ho)
  | .call callee [], _, _, _, h | .call callee (_ :: _ :: _), _, _, _, h => by
    unfold operand at h
    split at h <;> exact absurd h yields_throw
  | .binary _ lhs rhs, _, _, _, h => by
    simp only [operand, yields_bind, yields_lift, yields_pure] at h
    obtain ⟨a, K, ha, b, N, hb, _, _, ⟨-, rfl⟩, -, rfl⟩ := h
    exact .two (by rw [steps, after_of_yields ha]) (fun _ => rfl) (operand_accounts lhs ha)
      (operand_accounts rhs hb)
  | .list items, _, _, _, h => by
    simp only [operand, yields_bind, yields_pure] at h
    obtain ⟨_, K, hitems, -, rfl⟩ := h
    exact .visit rfl (fun _ => rfl) (values_accounts items hitems)
  | .record fields, _, _, _, h => by
    simp only [operand, yields_bind, yields_pure] at h
    obtain ⟨_, K, hfields, -, rfl⟩ := h
    exact .visit rfl (fun _ => rfl) (fieldValues_accounts fields hfields)
  | .block (.mk stmts result), _, _, _, h => by
    simp only [operand, yields_bind, yields_pure] at h
    obtain ⟨_, K, hstmts, _, N, hresult, -, rfl⟩ := h
    exact .two (by rw [steps, after_of_yields hstmts]) (fun _ => rfl) (runAll_accounts stmts hstmts)
      (resultValue_accounts result hresult)

theorem values_accounts : ∀ es : List Expr, Accounts frames (values frames es) (.exprs es)
  | [], _, _, _, h => by
    obtain ⟨-, rfl⟩ := yields_pure.1 h
    exact .visit rfl (fun _ => rfl) .nil
  | e :: es, _, _, _, h => by
    simp only [values, yields_bind, yields_pure] at h
    obtain ⟨o, K, ho, _, N, hes, -, rfl⟩ := h
    exact .two (by rw [steps, after_of_yields ho]) (fun _ => rfl) (operand_accounts e ho)
      (values_accounts es hes)

theorem fieldValues_accounts :
    ∀ fields : List (String × Expr), Accounts frames (fieldValues frames fields) (.fields fields)
  | [], _, _, _, h => by
    obtain ⟨-, rfl⟩ := yields_pure.1 h
    exact .visit rfl (fun _ => rfl) .nil
  | (_, e) :: rest, _, _, _, h => by
    simp only [fieldValues, yields_bind, yields_pure] at h
    obtain ⟨o, K, ho, _, N, hrest, -, rfl⟩ := h
    exact .two (by rw [steps, after_of_yields ho]) (fun _ => rfl) (operand_accounts e ho)
      (fieldValues_accounts rest hrest)

theorem resultValue_accounts :
    ∀ e : Option Expr, Accounts frames (resultValue frames e) (.result e)
  | none, _, _, _, h => by
    obtain ⟨-, rfl⟩ := yields_pure.1 h
    exact .visit rfl (fun _ => rfl) .nil
  | some e, _, _, _, h => by
    simp only [resultValue, yields_bind, yields_pure] at h
    obtain ⟨o, K, ho, -, rfl⟩ := h
    exact .visit rfl (fun _ => rfl) (operand_accounts e ho)

theorem runAll_accounts : ∀ stmts : List Stmt, Accounts frames (runAll frames stmts) (.all stmts)
  | [], _, _, _, h => by
    obtain ⟨-, rfl⟩ := yields_pure.1 h
    exact .visit rfl (fun _ => rfl) .nil
  | s :: rest, _, _, _, h => by
    simp only [runAll, yields_bind] at h
    obtain ⟨flow, K, hs, hrest⟩ := h
    exact .two (by rw [steps, after_of_yields hs]) (fun _ => rfl) (run_accounts s hs)
      (runAll_accounts rest hrest)

theorem runStmts_accounts :
    ∀ stmts : List Stmt, Accounts frames (runStmts frames stmts) (.stmts stmts)
  | [], _, _, _, h => by
    obtain ⟨-, rfl⟩ := yields_pure.1 h
    exact .visit rfl (fun _ => rfl) .nil
  | s :: rest, _, _, _, h => by
    simp only [runStmts, yields_bind] at h
    obtain ⟨flow, K, hs, hrest⟩ := h
    cases flow with
    | left =>
      obtain ⟨-, rfl⟩ := yields_pure.1 hrest
      exact .visit (by rw [steps, after_of_yields hs]) (fun _ => rfl) (run_accounts s hs)
    | onward =>
      exact .two (by rw [steps, after_of_yields hs]) (fun _ => rfl) (run_accounts s hs)
        (runStmts_accounts rest hrest)

theorem runBlock_accounts : ∀ b : Block, Accounts frames (runBlock frames b) (.block b)
  | .mk stmts result, _, _, _, h => by
    simp only [runBlock, yields_bind] at h
    obtain ⟨flow, K, hstmts, hrest⟩ := h
    cases flow with
    | left =>
      obtain ⟨-, rfl⟩ := yields_pure.1 hrest
      exact .visit (by rw [steps, after_of_yields hstmts]) (fun _ => rfl)
        (runStmts_accounts stmts hstmts)
    | onward =>
      simp only [yields_bind, yields_pure] at hrest
      obtain ⟨_, N, hresult, -, rfl⟩ := hrest
      exact .two (by rw [steps, after_of_yields hstmts]) (fun _ => rfl)
        (runStmts_accounts stmts hstmts) (resultValue_accounts result hresult)

theorem runOtherwise_accounts :
    ∀ b : Option Block, Accounts frames (runOtherwise frames b) (.otherwise b)
  | none, _, _, _, h => by
    obtain ⟨-, rfl⟩ := yields_pure.1 h
    exact .visit rfl (fun _ => rfl) .nil
  | some b, _, _, _, h => .visit rfl (fun _ => rfl) (runBlock_accounts b h)

theorem run_accounts : ∀ s : Stmt, Accounts frames (run frames s) (.stmt s)
  | .bind name slot value, _, _, _, h => by
    simp only [run, yields_bind, writeLocal_yields, yields_pure] at h
    obtain ⟨o, K, ho, _, _, ⟨-, rfl⟩, -, rfl⟩ := h
    obtain ⟨trace, hhistory, hsums⟩ := operand_accounts value ho
    exact ⟨_, .of_steps hhistory, fun other =>
      ((hsums other).cons rfl).overwrite List.mem_cons_self .bind nofun⟩
  | .assign name slot .set value, _, _, _, h => by
    simp only [run, yields_bind, writeLocal_yields, yields_pure] at h
    obtain ⟨o, K, ho, _, _, ⟨-, rfl⟩, -, rfl⟩ := h
    have hstore : Accounted frames [(.store name slot .set o.toValue, K)] K
        (K.set slot (some o.toValue)) :=
      ⟨_, .of_steps .done, fun other =>
        (Sums.nil.cons rfl).overwrite List.mem_cons_self .store nofun⟩
    exact .two (by rw [steps, after_of_yields ho]) (fun _ => rfl) (operand_accounts value ho) hstore
  | .assign name slot .append value, _, _, _, h => by
    simp only [run, yields_bind, readLocal_yields, yields_lift, writeLocal_yields,
      yields_pure] at h
    obtain ⟨o, K, ho, old, _, ⟨hold, rfl⟩, new, _, ⟨hnew, rfl⟩, _, _, ⟨-, rfl⟩, -, rfl⟩ := h
    have hstore : Accounted frames [(.store name slot .append o.toValue, K)] K
        (K.set slot (some new)) :=
      ⟨_, .of_steps .done, fun other => .store hold hnew⟩
    exact .two (by rw [steps, after_of_yields ho]) (fun _ => rfl) (operand_accounts value ho) hstore
  | .loop name slot start stop body, _, _, _, h => by
    simp only [run, yields_bind, yields_lift, yields_pure] at h
    obtain ⟨o, K, ho, m, _, ⟨hm, rfl⟩, p, N, hp, n, _, ⟨hn, rfl⟩, _, _, hrun, -, rfl⟩ := h
    refine .visit (by rw [steps, after_of_yields ho, after_of_yields hp, hm, hn]) (fun _ => rfl) ?_
    exact (operand_accounts start ho).cons ((operand_accounts stop hp).cons
      (runLoop_accounts (runBlock_accounts body) _ _ hrun))
  | .branch condition yes no, _, _, _, h => by
    simp only [run, yields_bind] at h
    obtain ⟨o, K, ho, h⟩ := h
    split at h
    · rename_i hvalue
      exact .two (by rw [steps, after_of_yields ho, hvalue]) (fun _ => rfl)
        (operand_accounts condition ho) (runBlock_accounts yes h)
    · rename_i hvalue
      exact .two (by rw [steps, after_of_yields ho, hvalue]) (fun _ => rfl)
        (operand_accounts condition ho) (runOtherwise_accounts no h)
    · exact absurd h yields_throw
  | .leave, _, _, _, h => by
    obtain ⟨-, rfl⟩ := yields_pure.1 h
    exact .visit rfl (fun _ => rfl) .nil

end

end TextGrammar.Action
