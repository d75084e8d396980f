import TextGrammar.Proofs.Compile.Slots
import TextGrammar.Proofs.Display.Sources

/-! # Resolving a displayed action

A source that writes what another one is resolved to is resolved to the same. Every local of a
displayed action has the slot that it had, and may be assigned if it could be, since all
variables are declared as mutable. -/

namespace TextGrammar.Compile
open Source (Writes WritesAll WritesRecord WritesBlock WritesResult WritesOtherwise WritesStmts
  WritesStmt)

/-- A local stands for another one: it has its slot, and may be assigned if that one may. -/
def Relaxes (l m : Local) : Prop := m.slot = l.slot ∧ (l.mutable = true → m.mutable = true)

def Relaxed (locals other : Locals) : Prop :=
  List.Forall₂ (fun x y => y.1 = x.1 ∧ Relaxes x.2 y.2) locals other

theorem Relaxed.lookup {locals other : Locals} (h : Relaxed locals other) (name : String) :
    Option.Rel Relaxes (locals.lookup name) (other.lookup name) := by
  induction h with
  | nil => exact .none
  | @cons x y _ _ hxy _ ih =>
    rcases x with ⟨key, l⟩
    rcases y with ⟨_, m⟩
    obtain ⟨rfl, hlm⟩ := hxy
    simp only [List.lookup_cons]
    split
    · exact .some hlm
    · exact ih

/-- Another local of a name, which is immutable only if the first one is. -/
theorem Relaxed.declare {locals other : Locals} (h : Relaxed locals other) (name : String)
    (slot : Nat) {mutable mutable' : Bool} (hmutable : mutable = true → mutable' = true) :
    Relaxed ((name, ⟨slot, mutable⟩) :: locals) ((name, ⟨slot, mutable'⟩) :: other) :=
  .cons ⟨rfl, rfl, hmutable⟩ h

/-- Every source that writes what another one is resolved to is resolved to it as well. -/
def Keeps {S T : Type} (lower : Locals → S → Numbering T) (writes : S → T → Prop) (s : S) : Prop :=
  ∀ ⦃locals other : Locals⦄ ⦃n : Nat⦄ ⦃t : T⦄ ⦃next : Nat⦄, Numbers (lower locals s) n t next →
    Relaxed locals other → ∀ s', writes s' t → Numbers (lower other s') n t next

/-- The same of sources that declare locals, which stand for the others afterwards. -/
def Carries {S T : Type} (lower : Locals → S → Numbering (T × Locals)) (writes : S → T → Prop)
    (s : S) : Prop :=
  ∀ ⦃locals other after : Locals⦄ ⦃n : Nat⦄ ⦃t : T⦄ ⦃next : Nat⦄,
    Numbers (lower locals s) n (t, after) next → Relaxed locals other → ∀ s', writes s' t →
      ∃ after', Numbers (lower other s') n (t, after') next ∧ Relaxed after after'

section
variable {scopes : List Scope} {span : Span} {name : Source.Name} {inLoop : Bool}

/-- An expression that stands for itself. -/
theorem constant_keeps {s : Source.Expr} {v : Value}
    (hs : ∀ locals, lowerExpr scopes locals s = pure (.literal v))
    (hwrites : ∀ s' other, Writes s' (.literal v) → lowerExpr scopes other s' = pure (.literal v)) :
    Keeps (lowerExpr scopes) Writes s := by
  intro locals other n e next h _ s' hs'
  rw [hs] at h
  obtain ⟨rfl, rfl⟩ := numbers_pure.1 h
  rw [hwrites s' other hs']
  exact numbers_pure.2 ⟨rfl, rfl⟩

theorem name_keeps {text : String} : Keeps (lowerExpr scopes) Writes (.name span text) := by
  intro locals other n e next h hlocals s' hs'
  have hlookup := hlocals.lookup text
  obtain ⟨rfl, ⟨l, hl, rfl⟩ | ⟨depth, slot, hnone, hcapture, rfl⟩⟩ := lowerName_numbers.1 h
  · cases hs' with
    | fetch =>
      rw [hl] at hlookup
      generalize hm : other.lookup text = found at hlookup
      cases hlookup with
      | some hlm =>
        rw [← hlm.1]
        exact lowerName_numbers.2 ⟨rfl, .inl ⟨_, hm, rfl⟩⟩
  · cases hs' with
    | captured =>
      rw [hnone] at hlookup
      generalize hm : other.lookup text = found at hlookup
      cases hlookup with
      | none => exact lowerName_numbers.2 ⟨rfl, .inr ⟨depth, slot, hm, hcapture, rfl⟩⟩

theorem index_keeps {base position : Source.Expr} (hbase : Keeps (lowerExpr scopes) Writes base)
    (hposition : Keeps (lowerExpr scopes) Writes position) :
    Keeps (lowerExpr scopes) Writes (.index span base position) := by
  intro locals other n e next h hlocals s' hs'
  simp only [lowerExpr, numbers_bind, numbers_pure] at h
  obtain ⟨b, k, hb, p, _, hp, rfl, rfl⟩ := h
  cases hs' with
  | index hwrites hwrites' =>
    simp only [lowerExpr, numbers_bind, numbers_pure]
    exact ⟨b, k, hbase hb hlocals _ hwrites, p, _, hposition hp hlocals _ hwrites', rfl, rfl⟩

theorem field_keeps {base : Source.Expr} (hbase : Keeps (lowerExpr scopes) Writes base) :
    Keeps (lowerExpr scopes) Writes (.field span base name) := by
  intro locals other n e next h hlocals s' hs'
  simp only [lowerExpr, numbers_bind, numbers_pure] at h
  obtain ⟨b, k, hb, rfl, rfl⟩ := h
  generalize name.text = text at hs'
  cases hs' with
  | field hwrites =>
    simp only [lowerExpr, numbers_bind, numbers_pure]
    exact ⟨b, _, hbase hb hlocals _ hwrites, rfl, rfl⟩

theorem call_keeps {arguments : List Source.Expr}
    (harguments : Keeps (lowerExprs scopes) WritesAll arguments) :
    Keeps (lowerExpr scopes) Writes (.call span name arguments) := by
  intro locals other n e next h hlocals s' hs'
  simp only [lowerExpr, numbers_bind, numbers_pure] at h
  obtain ⟨es, _, hes, rfl, rfl⟩ := h
  generalize name.text = text at hs'
  cases hs' with
  | call hwrites =>
    simp only [lowerExpr, numbers_bind, numbers_pure]
    exact ⟨es, _, harguments hes hlocals _ hwrites, rfl, rfl⟩

theorem binary_keeps {op : Operator} {lhs rhs : Source.Expr}
    (hlhs : Keeps (lowerExpr scopes) Writes lhs) (hrhs : Keeps (lowerExpr scopes) Writes rhs) :
    Keeps (lowerExpr scopes) Writes (.binary span op lhs rhs) := by
  intro locals other n e next h hlocals s' hs'
  simp only [lowerExpr, numbers_bind, numbers_pure] at h
  obtain ⟨a, k, ha, b, _, hb, rfl, rfl⟩ := h
  cases hs' with
  | binary hwrites hwrites' =>
    simp only [lowerExpr, numbers_bind, numbers_pure]
    exact ⟨a, k, hlhs ha hlocals _ hwrites, b, _, hrhs hb hlocals _ hwrites', rfl, rfl⟩

theorem list_keeps {items : List Source.Expr} (hitems : Keeps (lowerExprs scopes) WritesAll items) :
    Keeps (lowerExpr scopes) Writes (.list span items) := by
  intro locals other n e next h hlocals s' hs'
  simp only [lowerExpr, numbers_bind, numbers_pure] at h
  obtain ⟨es, _, hes, rfl, rfl⟩ := h
  cases hs' with
  | list hwrites =>
    simp only [lowerExpr, numbers_bind, numbers_pure]
    exact ⟨es, _, hitems hes hlocals _ hwrites, rfl, rfl⟩

theorem record_keeps {fields : List (Source.Name × Source.Expr)}
    (hfields : Keeps (lowerRecord scopes · []) WritesRecord fields) :
    Keeps (lowerExpr scopes) Writes (.record span fields) := by
  intro locals other n e next h hlocals s' hs'
  simp only [lowerExpr, numbers_bind, numbers_pure] at h
  obtain ⟨es, _, hes, rfl, rfl⟩ := h
  cases hs' with
  | record hwrites =>
    simp only [lowerExpr, numbers_bind, numbers_pure]
    exact ⟨es, _, hfields hes hlocals _ hwrites, rfl, rfl⟩

theorem block_keeps {body : Source.Block}
    (hbody : Keeps (lowerBlock scopes · false) WritesBlock body) :
    Keeps (lowerExpr scopes) Writes (.block span body) := by
  intro locals other n e next h hlocals s' hs'
  simp only [lowerExpr, numbers_bind, numbers_pure] at h
  obtain ⟨b, _, hb, rfl, rfl⟩ := h
  cases hs' with
  | block hwrites =>
    simp only [lowerExpr, numbers_bind, numbers_pure]
    exact ⟨b, _, hbody hb hlocals _ hwrites, rfl, rfl⟩

theorem exprs_keep_cons {s : Source.Expr} {ss : List Source.Expr}
    (hs : Keeps (lowerExpr scopes) Writes s) (hss : Keeps (lowerExprs scopes) WritesAll ss) :
    Keeps (lowerExprs scopes) WritesAll (s :: ss) := by
  intro locals other n es next h hlocals ss' hss'
  simp only [lowerExprs, numbers_bind, numbers_pure] at h
  obtain ⟨e, k, he, es, _, hes, rfl, rfl⟩ := h
  cases hss' with
  | cons hhead htail =>
    simp only [lowerExprs, numbers_bind, numbers_pure]
    exact ⟨e, k, hs he hlocals _ hhead, es, _, hss hes hlocals _ htail, rfl, rfl⟩

theorem record_keeps_cons {s : Source.Expr} {fs : List (Source.Name × Source.Expr)}
    {seen : List String} (hs : Keeps (lowerExpr scopes) Writes s)
    (hfs : Keeps (lowerRecord scopes · (name.text :: seen)) WritesRecord fs) :
    Keeps (lowerRecord scopes · seen) WritesRecord ((name, s) :: fs) := by
  intro locals other n es next h hlocals fs' hfs'
  beta_reduce at h
  unfold lowerRecord at h
  split at h
  · simp only [numbers_bind, numbers_report, false_and, exists_false] at h
  · rename_i hfresh
    simp only [numbers_bind, numbers_pure] at h
    obtain ⟨e, k, he, es, _, hes, rfl, rfl⟩ := h
    generalize name.text = text at hfs hfs' hes hfresh
    cases hfs' with
    | cons hhead htail =>
      simp only [lowerRecord, hfresh, if_false, numbers_bind, numbers_pure]
      exact ⟨e, k, hs he hlocals _ hhead, es, _, hfs hes hlocals _ htail, rfl, rfl⟩

theorem block_keeps_mk {stmts : List Source.Stmt} {result : Option Source.Expr}
    (hstmts : Carries (lowerStmts scopes · inLoop) WritesStmts stmts)
    (hresult : Keeps (lowerResult scopes) WritesResult result) :
    Keeps (lowerBlock scopes · inLoop) WritesBlock (.mk stmts result) := by
  intro locals other n c next h hlocals b' hb'
  simp only [lowerBlock, numbers_bind, numbers_pure] at h
  obtain ⟨⟨ts, inner⟩, k, hts, r, _, hr, rfl, rfl⟩ := h
  cases hb' with
  | mk hwrites hwrites' =>
    obtain ⟨inner', hts', hinner⟩ := hstmts hts hlocals _ hwrites
    simp only [lowerBlock, numbers_bind, numbers_pure]
    exact ⟨(ts, inner'), k, hts', r, _, hresult hr hinner _ hwrites', rfl, rfl⟩

theorem result_keeps_some {s : Source.Expr} (hs : Keeps (lowerExpr scopes) Writes s) :
    Keeps (lowerResult scopes) WritesResult (some s) := by
  intro locals other n e next h hlocals s' hs'
  simp only [lowerResult, numbers_bind, numbers_pure] at h
  obtain ⟨e, _, he, rfl, rfl⟩ := h
  cases hs' with
  | some hwrites =>
    simp only [lowerResult, numbers_bind, numbers_pure]
    exact ⟨e, _, hs he hlocals _ hwrites, rfl, rfl⟩

theorem otherwise_keeps_some {b : Source.Block}
    (hb : Keeps (lowerBlock scopes · inLoop) WritesBlock b) :
    Keeps (lowerOtherwise scopes · inLoop) WritesOtherwise (some b) := by
  intro locals other n c next h hlocals b' hb'
  simp only [lowerOtherwise, numbers_bind, numbers_pure] at h
  obtain ⟨c, _, hc, rfl, rfl⟩ := h
  cases hb' with
  | some hwrites =>
    simp only [lowerOtherwise, numbers_bind, numbers_pure]
    exact ⟨c, _, hb hc hlocals _ hwrites, rfl, rfl⟩

theorem stmts_carry_cons {s : Source.Stmt} {ss : List Source.Stmt}
    (hs : Carries (lowerStmt scopes · inLoop) WritesStmt s)
    (hss : Carries (lowerStmts scopes · inLoop) WritesStmts ss) :
    Carries (lowerStmts scopes · inLoop) WritesStmts (s :: ss) := by
  intro locals other after n ts next h hlocals ss' hss'
  simp only [lowerStmts, numbers_bind, numbers_pure, Prod.mk.injEq] at h
  obtain ⟨⟨t, inner⟩, k, ht, ⟨ts, after⟩, _, hts, ⟨rfl, rfl⟩, rfl⟩ := h
  cases hss' with
  | cons hhead htail =>
    obtain ⟨inner', ht', hinner⟩ := hs ht hlocals _ hhead
    obtain ⟨after', hts', hafter⟩ := hss hts hinner _ htail
    refine ⟨after', ?_, hafter⟩
    simp only [lowerStmts, numbers_bind, numbers_pure]
    exact ⟨(t, inner'), k, ht', (ts, after'), _, hts', rfl, rfl⟩

theorem bind_carries {mutable : Bool} {value : Source.Expr}
    (hvalue : Keeps (lowerExpr scopes) Writes value) :
    Carries (lowerStmt scopes · inLoop) WritesStmt (.bind span name mutable value) := by
  intro locals other after n t next h hlocals s' hs'
  simp only [lowerStmt, numbers_bind, numbers_pure, Prod.mk.injEq] at h
  obtain ⟨e, k, he, ⟨slot, inner⟩, _, hdeclare, ⟨rfl, rfl⟩, rfl⟩ := h
  obtain ⟨rfl, rfl, rfl⟩ := numbers_declareLocal.1 hdeclare
  generalize name.text = text at hs'
  cases hs' with
  | bind hwrites =>
    refine ⟨_, ?_, hlocals.declare _ slot fun _ => rfl⟩
    simp only [lowerStmt, numbers_bind, numbers_pure]
    exact ⟨e, slot, hvalue he hlocals _ hwrites, _, _, numbers_declareLocal.2 ⟨rfl, rfl, rfl⟩, rfl,
      rfl⟩

theorem assignedSlot_again {locals other : Locals} {n slot next : Nat} {name' : Source.Name}
    (hlocals : Relaxed locals other) (hname : name'.text = name.text)
    (h : Numbers (assignedSlot scopes locals name) n slot next) :
    Numbers (assignedSlot scopes other name') n slot next := by
  obtain ⟨rfl, l, hl, hmutable, rfl⟩ := assignedSlot_numbers.1 h
  have hlookup := hlocals.lookup name.text
  rw [hl] at hlookup
  generalize hm : other.lookup name.text = found at hlookup
  cases hlookup with
  | some hlm =>
    rw [← hname] at hm
    exact assignedSlot_numbers.2 ⟨rfl, _, hm, hlm.2 hmutable, hlm.1.symm⟩

theorem assign_carries {mode : AssignMode} {value : Source.Expr}
    (hvalue : Keeps (lowerExpr scopes) Writes value) :
    Carries (lowerStmt scopes · inLoop) WritesStmt (.assign span name mode value) := by
  intro locals other after n t next h hlocals s' hs'
  simp only [lowerStmt, numbers_bind, numbers_pure, Prod.mk.injEq] at h
  obtain ⟨e, k, he, slot, _, hslot, ⟨rfl, rfl⟩, rfl⟩ := h
  generalize htext : name.text = text at hs'
  cases hs' with
  | assign hwrites =>
    refine ⟨other, ?_, hlocals⟩
    simp only [lowerStmt, numbers_bind, numbers_pure]
    exact ⟨e, k, hvalue he hlocals _ hwrites, slot, _,
      assignedSlot_again hlocals htext.symm hslot, rfl, rfl⟩

theorem loop_carries {start stop : Source.Expr} {body : Source.Block}
    (hstart : Keeps (lowerExpr scopes) Writes start) (hstop : Keeps (lowerExpr scopes) Writes stop)
    (hbody : Keeps (lowerBlock scopes · true) WritesBlock body) :
    Carries (lowerStmt scopes · inLoop) WritesStmt (.loop span name start stop body) := by
  intro locals other after n t next h hlocals s' hs'
  simp only [lowerStmt, numbers_bind, numbers_pure, Prod.mk.injEq] at h
  obtain ⟨e, k, he, f, m, hf, ⟨slot, inner⟩, _, hdeclare, c, _, hc, ⟨rfl, rfl⟩, rfl⟩ := h
  obtain ⟨rfl, rfl, rfl⟩ := numbers_declareLocal.1 hdeclare
  generalize name.text = text at hs' hc
  cases hs' with
  | loop hwrites hwrites' hwrites'' =>
    refine ⟨other, ?_, hlocals⟩
    simp only [lowerStmt, numbers_bind, numbers_pure]
    exact ⟨e, k, hstart he hlocals _ hwrites, f, slot, hstop hf hlocals _ hwrites', _, _,
      numbers_declareLocal.2 ⟨rfl, rfl, rfl⟩, c, _,
      hbody hc (hlocals.declare _ slot id) _ hwrites'', rfl, rfl⟩

theorem branch_carries {condition : Source.Expr} {yes : Source.Block} {no : Option Source.Block}
    (hcondition : Keeps (lowerExpr scopes) Writes condition)
    (hyes : Keeps (lowerBlock scopes · inLoop) WritesBlock yes)
    (hno : Keeps (lowerOtherwise scopes · inLoop) WritesOtherwise no) :
    Carries (lowerStmt scopes · inLoop) WritesStmt (.branch span condition yes no) := by
  intro locals other after n t next h hlocals s' hs'
  simp only [lowerStmt, numbers_bind, numbers_pure, Prod.mk.injEq] at h
  obtain ⟨e, k, he, c, m, hc, d, _, hd, ⟨rfl, rfl⟩, rfl⟩ := h
  cases hs' with
  | branch hwrites hwrites' hwrites'' =>
    refine ⟨other, ?_, hlocals⟩
    simp only [lowerStmt, numbers_bind, numbers_pure]
    exact ⟨e, k, hcondition he hlocals _ hwrites, c, m, hyes hc hlocals _ hwrites', d, _,
      hno hd hlocals _ hwrites'', rfl, rfl⟩

theorem leave_carries : Carries (lowerStmt scopes · inLoop) WritesStmt (.leave span) := by
  intro locals other after n t next h hlocals s' hs'
  beta_reduce at h
  unfold lowerStmt at h
  split at h
  · simp only [numbers_bind, numbers_report, false_and, exists_false] at h
  · rename_i hloop
    obtain ⟨⟨⟩, rfl⟩ := numbers_pure.1 h
    cases hs'
    refine ⟨other, ?_, hlocals⟩
    beta_reduce
    unfold lowerStmt
    rw [if_neg hloop]
    exact numbers_pure.2 ⟨rfl, rfl⟩

end

section
variable (scopes : List Scope)

mutual

theorem expr_keeps : ∀ s : Source.Expr, Keeps (lowerExpr scopes) Writes s
  | .int _ _ | .float _ _ | .str _ _ | .bool _ _ | .null _ =>
    constant_keeps (fun _ => rfl) fun _ _ hs' => by cases hs'; rfl
  | .name _ _ => name_keeps
  | .index _ base position => index_keeps (expr_keeps base) (expr_keeps position)
  | .field _ base _ => field_keeps (expr_keeps base)
  | .call _ _ arguments => call_keeps (exprs_keep arguments)
  | .binary _ _ lhs rhs => binary_keeps (expr_keeps lhs) (expr_keeps rhs)
  | .list _ items => list_keeps (exprs_keep items)
  | .record _ fields => record_keeps (fields_keep [] fields)
  | .block _ body => block_keeps (blocks_keep false body)

theorem exprs_keep : ∀ ss : List Source.Expr, Keeps (lowerExprs scopes) WritesAll ss
  | [] => by
    intro locals other n es next h _ ss' hss'
    obtain ⟨rfl, rfl⟩ := numbers_pure.1 h
    cases hss'
    exact numbers_pure.2 ⟨rfl, rfl⟩
  | s :: ss => exprs_keep_cons (expr_keeps s) (exprs_keep ss)

theorem fields_keep (seen : List String) : ∀ fs : List (Source.Name × Source.Expr),
    Keeps (lowerRecord scopes · seen) WritesRecord fs
  | [] => by
    intro locals other n es next h _ fs' hfs'
    obtain ⟨rfl, rfl⟩ := numbers_pure.1 h
    cases hfs'
    exact numbers_pure.2 ⟨rfl, rfl⟩
  | (name, s) :: fs => record_keeps_cons (expr_keeps s) (fields_keep (name.text :: seen) fs)

theorem blocks_keep (inLoop : Bool) : ∀ b : Source.Block,
    Keeps (lowerBlock scopes · inLoop) WritesBlock b
  | .mk stmts result => block_keeps_mk (stmts_carry inLoop stmts) (result_keeps result)

theorem result_keeps : ∀ s : Option Source.Expr, Keeps (lowerResult scopes) WritesResult s
  | none => by
    intro locals other n e next h _ s' hs'
    obtain ⟨rfl, rfl⟩ := numbers_pure.1 h
    cases hs'
    exact numbers_pure.2 ⟨rfl, rfl⟩
  | some s => result_keeps_some (expr_keeps s)

theorem otherwise_keeps (inLoop : Bool) : ∀ b : Option Source.Block,
    Keeps (lowerOtherwise scopes · inLoop) WritesOtherwise b
  | none => by
    intro locals other n c next h _ b' hb'
    obtain ⟨rfl, rfl⟩ := numbers_pure.1 h
    cases hb'
    exact numbers_pure.2 ⟨rfl, rfl⟩
  | some b => otherwise_keeps_some (blocks_keep inLoop b)

theorem stmts_carry (inLoop : Bool) : ∀ ss : List Source.Stmt,
    Carries (lowerStmts scopes · inLoop) WritesStmts ss
  | [] => by
    intro locals other after n ts next h hlocals ss' hss'
    obtain ⟨⟨⟩, rfl⟩ := numbers_pure.1 h
    cases hss'
    exact ⟨other, numbers_pure.2 ⟨rfl, rfl⟩, hlocals⟩
  | s :: ss => stmts_carry_cons (stmt_carries inLoop s) (stmts_carry inLoop ss)

theorem stmt_carries (inLoop : Bool) : ∀ s : Source.Stmt,
    Carries (lowerStmt scopes · inLoop) WritesStmt s
  | .bind _ _ _ value => bind_carries (expr_keeps value)
  | .assign _ _ _ value => assign_carries (expr_keeps value)
  | .loop _ _ start stop body =>
    loop_carries (expr_keeps start) (expr_keeps stop) (blocks_keep true body)
  | .branch _ condition yes no =>
    branch_carries (expr_keeps condition) (blocks_keep inLoop yes) (otherwise_keeps inLoop no)
  | .leave _ => leave_carries

end

/-- The resolved body of an action is what each source body that writes it is resolved to. -/
theorem lowerAction_again {s s' : Source.Expr} {e : Expr} {locals : Nat}
    (h : Clean (lowerAction scopes s) (e, locals)) (hs' : Writes s' e) :
    Clean (lowerAction scopes s') (e, locals) :=
  expr_keeps scopes s h .nil s' hs'

end

end TextGrammar.Compile
