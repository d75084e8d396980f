import TextGrammar.Proofs.Action.Simulation
import TextGrammar.Proofs.Compile.Slots

/-! # Resolved actions mean what is written

An action whose names are resolved without findings evaluates like its source is read by name,
whatever the enclosing sequences have bound. -/

namespace TextGrammar.Compile
open TextGrammar.Action (Simulates Mirrors Fresh Declared Flow Frame)
open Matching (Passed Holds passedFields captureOf?)

/-- A name that is resolved to a capture finds the field that it means. -/
def Finds (scopes : List Scope) (passed : List Passed) (frames : List Frame) : Prop :=
  ∀ name, (∃ c depth slot, lookupCapture 0 name scopes = .capture depth slot ∧
      Action.captureAt frames name depth slot = .ok c ∧
      Reference.fieldOf? passed name = some c) ∨
    lookupCapture 0 name scopes = .unbound

theorem lookupCapture_finds {scopes : List Scope} {passed : List Passed} {frames : List Frame}
    (hframes : List.Forall₂ Holds passed frames)
    (hscopes : List.Forall₂ Lists scopes (passed.map passedFields)) (name : String)
    (start : Nat) :
    (∃ c frame depth slot, lookupCapture start name scopes = .capture (start + depth) slot ∧
      frames[depth]? = some frame ∧ frame[slot]? = some (some c) ∧
      Reference.fieldOf? passed name = some c) ∨
    lookupCapture start name scopes = .unbound := by
  induction hframes generalizing scopes start with
  | nil =>
    cases hscopes
    exact .inr rfl
  | @cons m frame passed frames hholds _ ih =>
    cases hscopes with
    | @cons scope _ scopes _ hlists hrest =>
      unfold lookupCapture
      rw [Reference.fieldOf?, List.findSome?_cons]
      obtain ⟨hnone, hscope⟩ | ⟨c, slot, hc, hslot, hfilled⟩ := hholds.lookup hlists name
      · rw [hnone, hscope]
        obtain ⟨c, inner, depth, slot, hlookup, hinner, hfilled, hfield⟩ | hunbound :=
          ih hrest (start + 1)
        · refine .inl ⟨c, inner, depth + 1, slot, ?_, hinner, hfilled, hfield⟩
          rw [← Nat.add_assoc, Nat.add_right_comm]
          exact hlookup
        · exact .inr hunbound
      · rw [hc, hslot]
        exact .inl ⟨c, frame, 0, slot, rfl, rfl, hfilled, rfl⟩

theorem finds_of_holds {scopes : List Scope} {passed : List Passed} {frames : List Frame}
    (hframes : List.Forall₂ Holds passed frames)
    (hscopes : List.Forall₂ Lists scopes (passed.map passedFields)) :
    Finds scopes passed frames := by
  intro name
  obtain ⟨c, frame, depth, slot, hlookup, hframe, hfilled, hfield⟩ | hunbound :=
    lookupCapture_finds hframes hscopes name 0
  · rw [Nat.zero_add] at hlookup
    exact .inl ⟨c, depth, slot, hlookup, Action.captureAt_eq_ok.2 ⟨frame, hframe, hfilled⟩, hfield⟩
  · exact .inr hunbound

/-- How the statements of a block leave its locals: going on, with those of `block`; and only a
block that a loop runs is left early, with the blocks around it as they were. -/
def Leaves (total : Nat) (inLoop : Bool) (block : List (String × Local)) (outer : Declared) :
    Flow → Action.Locals → Reference.Scopes → Prop
  | .onward, L, E => Mirrors total (block :: outer) L E
  | .left, L, E => inLoop = true ∧ ∃ inner, Mirrors total (inner :: outer) L E

section
variable {scopes : List Scope} {passed : List Passed} {frames : List Frame} {total : Nat}

theorem lowerName_simulates (hfinds : Finds scopes passed frames) {blocks : Declared}
    {span : Span} {name : String} {lowered : Expr} {n next : Nat}
    (h : Numbers (lowerName scopes blocks.flatten span name) n lowered next) :
    Simulates (Mirrors total blocks) (Action.operand frames lowered)
      (Reference.readName passed name) (fun _ => Mirrors total blocks) := by
  intro L E hmirrors
  obtain ⟨-, ⟨l, hl, rfl⟩ | ⟨depth, slot, hnone, hslot, rfl⟩⟩ := lowerName_numbers.1 h
  · obtain ⟨hnone, -⟩ | ⟨m, v, hm, hv, hvalue⟩ := Action.lookup_mirrors hmirrors.2 name
    · rw [hl] at hnone
      cases hnone
    · rw [hl] at hm
      cases hm
      refine .inr ⟨.borrowed v, L, E, ?_, ?_, hmirrors⟩
      · exact yields_bind.2 ⟨v, L, Action.readLocal_yields.2 ⟨hvalue, rfl⟩,
          yields_pure.2 ⟨rfl, rfl⟩⟩
      · refine yields_bind.2 ⟨E, E, yields_get.2 ⟨rfl, rfl⟩, ?_⟩
        rw [hv]
        exact yields_pure.2 ⟨rfl, rfl⟩
  · obtain ⟨-, hread⟩ | ⟨m, v, hm, -⟩ := Action.lookup_mirrors hmirrors.2 name
    · obtain ⟨c, depth', slot', hlookup, hcapture, hfield⟩ | hunbound := hfinds name
      · rw [hslot] at hlookup
        cases hlookup
        refine .inr ⟨.captured c, L, E, ?_, ?_, hmirrors⟩
        · exact yields_bind.2 ⟨c, L, yields_lift.2 ⟨hcapture, rfl⟩, yields_pure.2 ⟨rfl, rfl⟩⟩
        · refine yields_bind.2 ⟨E, E, yields_get.2 ⟨rfl, rfl⟩, ?_⟩
          rw [hread, hfield]
          exact yields_pure.2 ⟨rfl, rfl⟩
      · rw [hslot] at hunbound
        cases hunbound
    · rw [hnone] at hm
      cases hm

theorem lowerExprs_length {locals : Locals} {es : List Source.Expr} {lowered : List Expr}
    {n next : Nat} (h : Numbers (lowerExprs scopes locals es) n lowered next) :
    lowered.length = es.length := by
  induction es generalizing lowered n with
  | nil =>
    obtain ⟨rfl, -⟩ := numbers_pure.1 h
    rfl
  | cons e es ih =>
    simp only [lowerExprs, numbers_bind, numbers_pure] at h
    obtain ⟨a, k, -, rest, _, hrest, rfl, rfl⟩ := h
    simp [ih hrest]

/-- A call evaluates its argument, if it has one and no more. -/
theorem call_simulates {P : Action.Locals → Reference.Scopes → Prop} {span : Span}
    {callee : Source.Name} {arguments : List Source.Expr} {lowered : List Expr}
    (hlength : lowered.length = arguments.length)
    (hargument : ∀ e a, arguments = [e] → lowered = [a] →
      Simulates P (Action.operand frames a) (Reference.operand passed e) (fun _ => P)) :
    Simulates P (Action.operand frames (.call callee.text lowered))
      (Reference.operand passed (.call span callee arguments)) (fun _ => P) := by
  unfold Action.operand Reference.operand
  cases Action.Builtin.ofName? callee.text with
  | none => exact .throw
  | some builtin =>
    match lowered, arguments, hlength with
    | [], [], _ => exact .throw
    | [a], [e], _ =>
      exact .bind (hargument e a rfl rfl) fun _ =>
        .bind (.lift fun _ _ _ _ h => h) fun _ => .pure fun _ _ h => h
    | a :: b :: rest, first :: second :: more, hlength =>
      simp only [hlength]
      exact .throw

/-- A loop gives its variable, a slot of its own, a value in each round. -/
theorem runLoop_simulates {blocks : Declared} {name : String} {slot : Nat} {inLoop : Bool}
    {body : Action.Evaluation Flow} {written : Reference.Reading Flow}
    (hfresh : Fresh blocks slot) (hlt : slot < total)
    (hbody : Simulates (Mirrors total ([(name, ⟨slot, false⟩)] :: blocks)) body written
      (fun flow L E => (flow = .left → inLoop = true) ∧
        Mirrors total ([(name, ⟨slot, false⟩)] :: blocks) L E))
    (count : Nat) (i : Int) :
    Simulates (Mirrors total blocks) (Action.runLoop name slot body count i)
      (Reference.runLoop name written count i) (fun _ => Mirrors total blocks) := by
  induction count generalizing i with
  | zero => exact .pure fun _ _ h => h
  | succ count ih =>
    have hround : Simulates (Mirrors total blocks)
        (Action.writeLocal name slot (.int (Int64.ofInt i)) >>= fun _ => body)
        (Reference.inBlock do
          modify (Reference.declare name (.int (Int64.ofInt i)))
          written)
        (fun flow L E => (flow = .left → inLoop = true) ∧ Mirrors total blocks L E) := by
      refine .inBlock (.bind (.declare hfresh.push hlt false _) fun _ => ?_)
      exact hbody.weaken (fun _ _ h => h) fun _ _ _ h => ⟨h.1, _, h.2⟩
    unfold Action.runLoop Reference.runLoop
    rw [← bind_assoc]
    refine hround.bind fun flow => ?_
    cases flow with
    | left => exact .pure fun _ _ h => h.2
    | onward => exact (ih (i + 1)).weaken (fun _ _ h => h.2) fun _ _ _ h => h

/-- The statements of a block see the locals around it, and none of its own yet. -/
theorem block_numbers {blocks : Declared} {inLoop : Bool} {stmts : List Source.Stmt}
    {lowered : List Stmt × Locals} {n next : Nat}
    (h : Numbers (lowerStmts scopes blocks.flatten inLoop stmts) n lowered next) :
    Numbers (lowerStmts scopes ([] :: blocks).flatten inLoop stmts) n lowered next := h

mutual

theorem operand_simulates (hfinds : Finds scopes passed frames) :
    ∀ {e : Source.Expr} {lowered : Expr} {n next : Nat} {blocks : Declared},
      Numbers (lowerExpr scopes blocks.flatten e) n lowered next → Fresh blocks n →
      next ≤ total →
      Simulates (Mirrors total blocks) (Action.operand frames lowered)
        (Reference.operand passed e) (fun _ => Mirrors total blocks)
  | .int _ _, _, _, _, _, h, _, _ | .float _ _, _, _, _, _, h, _, _
  | .str _ _, _, _, _, _, h, _, _ | .bool _ _, _, _, _, _, h, _, _
  | .null _, _, _, _, _, h, _, _ => by
    obtain ⟨rfl, -⟩ := numbers_pure.1 h
    exact .pure fun _ _ h => h
  | .name _ name, _, _, _, _, h, _, _ => lowerName_simulates hfinds h
  | .index _ base position, _, _, _, _, h, hfresh, hle => by
    simp only [lowerExpr, numbers_bind, numbers_pure] at h
    obtain ⟨b, k, hb, p, _, hp, rfl, rfl⟩ := h
    have hk := lowerExpr_rises _ _ _ hb
    have hnext := lowerExpr_rises _ _ _ hp
    exact .bind (operand_simulates hfinds hp (hfresh.mono hk) hle) fun _ =>
      .bind (operand_simulates hfinds hb hfresh (hnext.trans hle)) fun _ =>
        .lift fun _ _ _ _ h => h
  | .field _ base name, _, _, _, _, h, hfresh, hle => by
    simp only [lowerExpr, numbers_bind, numbers_pure] at h
    obtain ⟨b, _, hb, rfl, rfl⟩ := h
    exact .bind (operand_simulates hfinds hb hfresh hle) fun _ => .lift fun _ _ _ _ h => h
  | .call _ callee [], _, _, _, _, h, _, _ => by
    simp only [lowerExpr, numbers_bind, numbers_pure] at h
    obtain ⟨es, _, hes, rfl, rfl⟩ := h
    exact call_simulates (lowerExprs_length hes) nofun
  | .call _ callee [argument], _, _, _, _, h, hfresh, hle => by
    simp only [lowerExpr, lowerExprs, numbers_bind, numbers_pure] at h
    obtain ⟨_, _, ⟨a, _, ha, _, _, ⟨rfl, rfl⟩, rfl, rfl⟩, rfl, rfl⟩ := h
    refine call_simulates rfl ?_
    rintro e b ⟨⟩ ⟨⟩
    exact operand_simulates hfinds ha hfresh hle
  | .call _ callee (first :: second :: more), _, _, _, _, h, _, _ => by
    simp only [lowerExpr, numbers_bind, numbers_pure] at h
    obtain ⟨es, _, hes, rfl, rfl⟩ := h
    exact call_simulates (lowerExprs_length hes) nofun
  | .binary _ op lhs rhs, _, _, _, _, h, hfresh, hle => by
    simp only [lowerExpr, numbers_bind, numbers_pure] at h
    obtain ⟨a, k, ha, b, _, hb, rfl, rfl⟩ := h
    have hk := lowerExpr_rises _ _ _ ha
    have hnext := lowerExpr_rises _ _ _ hb
    exact .bind (operand_simulates hfinds ha hfresh (hnext.trans hle)) fun _ =>
      .bind (operand_simulates hfinds hb (hfresh.mono hk) hle) fun _ =>
        .bind (.lift fun _ _ _ _ h => h) fun _ => .pure fun _ _ h => h
  | .list _ items, _, _, _, _, h, hfresh, hle => by
    simp only [lowerExpr, numbers_bind, numbers_pure] at h
    obtain ⟨es, _, hes, rfl, rfl⟩ := h
    exact .bind (values_simulates hfinds hes hfresh hle) fun _ => .pure fun _ _ h => h
  | .record _ fields, _, _, _, _, h, hfresh, hle => by
    simp only [lowerExpr, numbers_bind, numbers_pure] at h
    obtain ⟨es, _, hes, rfl, rfl⟩ := h
    exact .bind (fieldValues_simulates hfinds hes hfresh hle) fun _ => .pure fun _ _ h => h
  | .block _ (.mk stmts result), _, _, _, blocks, h, hfresh, hle => by
    simp only [lowerExpr, lowerBlock, numbers_bind, numbers_pure] at h
    obtain ⟨_, _, ⟨⟨ss, inner⟩, k, hss, r, _, hr, rfl, rfl⟩, rfl, rfl⟩ := h
    have hnext := lowerResult_rises _ _ _ hr
    obtain ⟨block, rfl, hfresh', hstmts⟩ :=
      runStmts_simulates hfinds (block_numbers hss) hfresh.push (hnext.trans hle)
    have hblock : Simulates (Mirrors total ([] :: blocks))
        (Action.operand frames (.block (.mk ss r)))
        (do
          let _ ← Reference.runStmts passed stmts
          let v ← Reference.resultValue passed result
          return .owned v)
        (fun _ L E => True ∧ ∃ inner, Mirrors total (inner :: blocks) L E) := by
      refine hstmts.bindAll (fun _ _ h => Bool.false_ne_true h.1) ?_
      exact .bind (resultValue_simulates hfinds hr hfresh' hle)
        fun _ => .pure fun _ _ h => ⟨trivial, block, h⟩
    exact hblock.inBlock.weaken (fun _ _ h => h) fun _ _ _ h => h.2

theorem values_simulates (hfinds : Finds scopes passed frames) :
    ∀ {es : List Source.Expr} {lowered : List Expr} {n next : Nat} {blocks : Declared},
      Numbers (lowerExprs scopes blocks.flatten es) n lowered next → Fresh blocks n →
      next ≤ total →
      Simulates (Mirrors total blocks) (Action.values frames lowered)
        (Reference.values passed es) (fun _ => Mirrors total blocks)
  | [], _, _, _, _, h, _, _ => by
    obtain ⟨rfl, -⟩ := numbers_pure.1 h
    exact .pure fun _ _ h => h
  | e :: es, _, _, _, _, h, hfresh, hle => by
    simp only [lowerExprs, numbers_bind, numbers_pure] at h
    obtain ⟨a, k, ha, rest, _, hrest, rfl, rfl⟩ := h
    have hk := lowerExpr_rises _ _ _ ha
    have hnext := lowerExprs_rises _ _ _ hrest
    exact .bind (operand_simulates hfinds ha hfresh (hnext.trans hle)) fun _ =>
      .bind (values_simulates hfinds hrest (hfresh.mono hk) hle) fun _ => .pure fun _ _ h => h

theorem fieldValues_simulates (hfinds : Finds scopes passed frames) :
    ∀ {fields : List (Source.Name × Source.Expr)} {lowered : List (String × Expr)}
      {seen : List String} {n next : Nat} {blocks : Declared},
      Numbers (lowerRecord scopes blocks.flatten seen fields) n lowered next → Fresh blocks n →
      next ≤ total →
      Simulates (Mirrors total blocks) (Action.fieldValues frames lowered)
        (Reference.fieldValues passed fields) (fun _ => Mirrors total blocks)
  | [], _, _, _, _, _, h, _, _ => by
    obtain ⟨rfl, -⟩ := numbers_pure.1 h
    exact .pure fun _ _ h => h
  | (name, e) :: rest, _, _, _, _, _, h, hfresh, hle => by
    unfold lowerRecord at h
    split at h
    · simp only [numbers_bind, numbers_report, false_and, exists_false] at h
    · simp only [numbers_bind, numbers_pure] at h
      obtain ⟨a, k, ha, more, _, hmore, rfl, rfl⟩ := h
      have hk := lowerExpr_rises _ _ _ ha
      have hnext := lowerRecord_rises _ _ _ _ hmore
      exact .bind (operand_simulates hfinds ha hfresh (hnext.trans hle)) fun _ =>
        .bind (fieldValues_simulates hfinds hmore (hfresh.mono hk) hle) fun _ =>
          .pure fun _ _ h => h

theorem resultValue_simulates (hfinds : Finds scopes passed frames) :
    ∀ {e : Option Source.Expr} {lowered : Option Expr} {n next : Nat} {blocks : Declared},
      Numbers (lowerResult scopes blocks.flatten e) n lowered next → Fresh blocks n →
      next ≤ total →
      Simulates (Mirrors total blocks) (Action.resultValue frames lowered)
        (Reference.resultValue passed e) (fun _ => Mirrors total blocks)
  | none, _, _, _, _, h, _, _ => by
    obtain ⟨rfl, -⟩ := numbers_pure.1 h
    exact .pure fun _ _ h => h
  | some e, _, _, _, _, h, hfresh, hle => by
    simp only [lowerResult, numbers_bind, numbers_pure] at h
    obtain ⟨a, _, ha, rfl, rfl⟩ := h
    exact .bind (operand_simulates hfinds ha hfresh hle) fun _ => .pure fun _ _ h => h

theorem runStmts_simulates (hfinds : Finds scopes passed frames) {inLoop : Bool}
    {outer : Declared} :
    ∀ {stmts : List Source.Stmt} {lowered : List Stmt} {after : Locals} {n next : Nat}
      {block : List (String × Local)},
      Numbers (lowerStmts scopes (block :: outer).flatten inLoop stmts) n (lowered, after) next →
      Fresh (block :: outer) n → next ≤ total →
      ∃ block', after = (block' :: outer).flatten ∧ Fresh (block' :: outer) next ∧
        Simulates (Mirrors total (block :: outer)) (Action.runStmts frames lowered)
          (Reference.runStmts passed stmts) (Leaves total inLoop block' outer)
  | [], _, _, _, _, block, h, hfresh, _ => by
    obtain ⟨⟨⟩, rfl⟩ := numbers_pure.1 h
    exact ⟨block, rfl, hfresh, .pure fun _ _ h => h⟩
  | s :: rest, _, _, _, _, block, h, hfresh, hle => by
    simp only [lowerStmts, numbers_bind, numbers_pure, Prod.mk.injEq] at h
    obtain ⟨⟨a, middle⟩, k, ha, ⟨more, after⟩, _, hmore, ⟨rfl, rfl⟩, rfl⟩ := h
    have hnext := lowerStmts_rises _ _ _ _ hmore
    obtain ⟨block', rfl, hfresh', hs⟩ := run_simulates hfinds ha hfresh (hnext.trans hle)
    obtain ⟨block'', rfl, hfresh'', hrest⟩ := runStmts_simulates hfinds hmore hfresh' hle
    refine ⟨block'', rfl, hfresh'', hs.bind fun flow => ?_⟩
    cases flow with
    | left => exact .pure fun _ _ h => h
    | onward => exact hrest

theorem runBlock_simulates (hfinds : Finds scopes passed frames) {inLoop : Bool} :
    ∀ {b : Source.Block} {lowered : Block} {n next : Nat} {blocks : Declared},
      Numbers (lowerBlock scopes blocks.flatten inLoop b) n lowered next → Fresh blocks n →
      next ≤ total →
      Simulates (Mirrors total blocks) (Action.runBlock frames lowered)
        (Reference.runBlock passed b)
        (fun flow L E => (flow = .left → inLoop = true) ∧ Mirrors total blocks L E)
  | .mk stmts result, _, _, _, blocks, h, hfresh, hle => by
    simp only [lowerBlock, numbers_bind, numbers_pure] at h
    obtain ⟨⟨ss, inner⟩, k, hss, r, _, hr, rfl, rfl⟩ := h
    have hnext := lowerResult_rises _ _ _ hr
    obtain ⟨block, rfl, hfresh', hstmts⟩ :=
      runStmts_simulates hfinds (block_numbers hss) hfresh.push (hnext.trans hle)
    refine .inBlock (hstmts.bind fun flow => ?_)
    cases flow with
    | left => exact .pure fun _ _ h => ⟨fun _ => h.1, h.2⟩
    | onward =>
      exact .bind (resultValue_simulates hfinds hr hfresh' hle)
        fun _ => .pure fun _ _ h => ⟨nofun, block, h⟩

theorem runOtherwise_simulates (hfinds : Finds scopes passed frames) {inLoop : Bool} :
    ∀ {b : Option Source.Block} {lowered : Option Block} {n next : Nat} {blocks : Declared},
      Numbers (lowerOtherwise scopes blocks.flatten inLoop b) n lowered next → Fresh blocks n →
      next ≤ total →
      Simulates (Mirrors total blocks) (Action.runOtherwise frames lowered)
        (Reference.runOtherwise passed b)
        (fun flow L E => (flow = .left → inLoop = true) ∧ Mirrors total blocks L E)
  | none, _, _, _, _, h, _, _ => by
    obtain ⟨rfl, -⟩ := numbers_pure.1 h
    exact .pure fun _ _ h => ⟨nofun, h⟩
  | some b, _, _, _, _, h, hfresh, hle => by
    simp only [lowerOtherwise, numbers_bind, numbers_pure] at h
    obtain ⟨a, _, ha, rfl, rfl⟩ := h
    exact runBlock_simulates hfinds ha hfresh hle

theorem run_simulates (hfinds : Finds scopes passed frames) {inLoop : Bool} {outer : Declared} :
    ∀ {s : Source.Stmt} {lowered : Stmt} {after : Locals} {n next : Nat}
      {block : List (String × Local)},
      Numbers (lowerStmt scopes (block :: outer).flatten inLoop s) n (lowered, after) next →
      Fresh (block :: outer) n → next ≤ total →
      ∃ block', after = (block' :: outer).flatten ∧ Fresh (block' :: outer) next ∧
        Simulates (Mirrors total (block :: outer)) (Action.run frames lowered)
          (Reference.run passed s) (Leaves total inLoop block' outer)
  | .bind _ name mutable value, _, _, _, _, block, h, hfresh, hle => by
    simp only [lowerStmt, numbers_bind, numbers_pure, Prod.mk.injEq] at h
    obtain ⟨a, k, ha, ⟨slot, inner⟩, _, hdeclare, ⟨rfl, rfl⟩, rfl⟩ := h
    obtain ⟨rfl, rfl, rfl⟩ := numbers_declareLocal.1 hdeclare
    have hfresh' := hfresh.mono (lowerExpr_rises _ _ _ ha)
    refine ⟨_, rfl, hfresh'.declare name.text mutable, ?_⟩
    exact .bind (operand_simulates hfinds ha hfresh (slot.le_succ.trans hle)) fun _ =>
      .bind (.declare hfresh' hle mutable _) fun _ => .pure fun _ _ h => h
  | .assign _ name .set value, _, _, _, _, block, h, hfresh, hle => by
    simp only [lowerStmt, numbers_bind, numbers_pure, Prod.mk.injEq] at h
    obtain ⟨a, k, ha, slot, _, hslot, ⟨rfl, rfl⟩, rfl⟩ := h
    obtain ⟨rfl, l, hl, -, rfl⟩ := assignedSlot_numbers.1 hslot
    have hfresh' := hfresh.mono (lowerExpr_rises _ _ _ ha)
    exact ⟨block, rfl, hfresh', .bind (operand_simulates hfinds ha hfresh hle) fun _ =>
      .bind (.assign hl hfresh.nodup _) fun _ => .pure fun _ _ h => h⟩
  | .assign _ name .append value, _, _, _, _, block, h, hfresh, hle => by
    simp only [lowerStmt, numbers_bind, numbers_pure, Prod.mk.injEq] at h
    obtain ⟨a, k, ha, slot, _, hslot, ⟨rfl, rfl⟩, rfl⟩ := h
    obtain ⟨rfl, l, hl, -, rfl⟩ := assignedSlot_numbers.1 hslot
    have hfresh' := hfresh.mono (lowerExpr_rises _ _ _ ha)
    exact ⟨block, rfl, hfresh', .bind (operand_simulates hfinds ha hfresh hle) fun _ =>
      .bind (.read hl) fun _ => .bind (.lift fun _ _ _ _ h => h) fun _ =>
        .bind (.assign hl hfresh.nodup _) fun _ => .pure fun _ _ h => h⟩
  | .loop _ name start stop body, _, _, _, _, block, h, hfresh, hle => by
    simp only [lowerStmt, numbers_bind, numbers_pure, Prod.mk.injEq] at h
    obtain ⟨a, k, ha, b, m, hb, ⟨slot, inner⟩, _, hdeclare, c, _, hc, ⟨rfl, rfl⟩, rfl⟩ := h
    obtain ⟨rfl, rfl, rfl⟩ := numbers_declareLocal.1 hdeclare
    have hbody := lowerBlock_rises _ _ _ _ hc
    have hslot := hbody.trans hle
    have hstop := slot.le_succ.trans hslot
    have hk := lowerExpr_rises _ _ _ ha
    have hm := lowerExpr_rises _ _ _ hb
    have hfresh' := hfresh.mono (hk.trans hm)
    refine ⟨block, rfl, hfresh'.mono (slot.le_succ.trans hbody), ?_⟩
    have hloop := runLoop_simulates hfresh' hslot
      (runBlock_simulates hfinds hc (hfresh'.push.declare name.text false) hle)
    exact .bind (operand_simulates hfinds ha hfresh (hm.trans hstop)) fun _ =>
      .bind (.lift fun _ _ _ _ h => h) fun _ =>
        .bind (operand_simulates hfinds hb (hfresh.mono hk) hstop) fun _ =>
          .bind (.lift fun _ _ _ _ h => h) fun _ =>
            .bind (hloop _ _) fun _ => .pure fun _ _ h => h
  | .branch _ condition yes no, _, _, _, _, block, h, hfresh, hle => by
    simp only [lowerStmt, numbers_bind, numbers_pure, Prod.mk.injEq] at h
    obtain ⟨a, k, ha, b, m, hb, c, _, hc, ⟨rfl, rfl⟩, rfl⟩ := h
    have hk := lowerExpr_rises _ _ _ ha
    have hm := lowerBlock_rises _ _ _ _ hb
    have hnext := lowerOtherwise_rises _ _ _ _ hc
    have leaves : ∀ (flow : Flow) (L : Action.Locals) (E : Reference.Scopes),
        (flow = .left → inLoop = true) ∧ Mirrors total (block :: outer) L E →
        Leaves total inLoop block outer flow L E := by
      rintro flow L E ⟨hflow, hmirrors⟩
      cases flow with
      | onward => exact hmirrors
      | left => exact ⟨hflow rfl, block, hmirrors⟩
    refine ⟨block, rfl, hfresh.mono ((hk.trans hm).trans hnext), ?_⟩
    refine .bind (operand_simulates hfinds ha hfresh ((hm.trans hnext).trans hle)) fun o => ?_
    match o.toValue with
    | .bool true =>
      exact (runBlock_simulates hfinds hb (hfresh.mono hk) (hnext.trans hle)).weaken
        (fun _ _ h => h) leaves
    | .bool false =>
      exact (runOtherwise_simulates hfinds hc (hfresh.mono (hk.trans hm)) hle).weaken
        (fun _ _ h => h) leaves
    | .null | .int _ | .float _ | .str _ | .list _ | .record _ => exact .throw
  | .leave _, _, _, _, _, block, h, hfresh, _ => by
    unfold lowerStmt at h
    cases inLoop with
    | false => simp only [Bool.not_false, if_true, numbers_bind, numbers_report, false_and,
        exists_false] at h
    | true =>
      obtain ⟨⟨⟩, rfl⟩ := numbers_pure.1 h
      exact ⟨block, rfl, hfresh, .pure fun _ _ h => ⟨rfl, block, h⟩⟩

end

end

end TextGrammar.Compile
