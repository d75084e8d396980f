import Mathlib.Order.Nat
import TextGrammar.Proofs.Action.Assignment
import TextGrammar.Proofs.Compile.Clean

/-! # Resolved actions are sound

Resolving an action numbers its locals upwards. When nothing is found, the captures that the
result names are bound names of the enclosing sequences, and its locals are declared before they
are used. -/

namespace TextGrammar.Compile
open TextGrammar.Action (SoundExpr SoundExprs SoundFields SoundResult SoundBlock SoundOtherwise
  SoundStmts SoundStmt declares declared)

/-- A capture is found in the innermost scope that has its name. -/
theorem lookupCapture_eq_capture {scopes : List Scope} {from_ depth slot : Nat} {name : String} :
    lookupCapture from_ name scopes = .capture depth slot ↔
      ∃ k scope, depth = from_ + k ∧ scopes[k]? = some scope ∧ scope.lookup name = some slot ∧
        ∀ j < k, ∀ inner, scopes[j]? = some inner → inner.lookup name = none := by
  induction scopes generalizing from_ with
  | nil => simp [lookupCapture]
  | cons scope outer ih =>
    unfold lookupCapture
    cases hslot : scope.lookup name with
    | some found =>
      simp only [Meaning.capture.injEq]
      constructor
      · rintro ⟨rfl, rfl⟩
        exact ⟨0, scope, rfl, rfl, hslot, nofun⟩
      · rintro ⟨k, other, rfl, hk, hfound, hinner⟩
        cases k with
        | zero =>
          cases hk
          rw [hslot] at hfound
          exact ⟨rfl, Option.some.inj hfound⟩
        | succ k =>
          have hnone := hinner 0 (Nat.succ_pos k) scope rfl
          rw [hslot] at hnone
          cases hnone
    | none =>
      simp only [ih]
      constructor
      · rintro ⟨k, other, rfl, hk, hfound, hinner⟩
        refine ⟨k + 1, other, by omega, hk, hfound, fun j hj inner hinner' => ?_⟩
        cases j with
        | zero =>
          cases hinner'
          exact hslot
        | succ j => exact hinner j (by omega) inner hinner'
      · rintro ⟨k, other, rfl, hk, hfound, hinner⟩
        cases k with
        | zero =>
          cases hk
          rw [hslot] at hfound
          cases hfound
        | succ k =>
          exact ⟨k, other, by omega, hk, hfound, fun j hj inner hinner' =>
            hinner (j + 1) (by omega) inner hinner'⟩

theorem lookupCapture_ne_variable {scopes : List Scope} {from_ : Nat} {name : String}
    {l : Local} : lookupCapture from_ name scopes ≠ .variable l := by
  induction scopes generalizing from_ with
  | nil => nofun
  | cons scope outer ih =>
    unfold lookupCapture
    split
    · nofun
    · exact ih

def Named (scopes : List Scope) (depth slot : Nat) : Prop :=
  ∃ scope name, scopes[depth]? = some scope ∧ scope.lookup name = some slot

def slots (locals : Locals) : List Nat := locals.map fun l => l.2.slot

theorem mem_slots_of_lookup {locals : Locals} {name : String} {l : Local}
    (h : locals.lookup name = some l) : l.slot ∈ slots locals := by
  induction locals with
  | nil => cases h
  | cons entry rest ih =>
    obtain ⟨other, m⟩ := entry
    rw [List.lookup_cons] at h
    split at h
    · cases h
      exact List.mem_cons_self
    · exact List.mem_cons_of_mem _ (ih h)

section
variable {scopes : List Scope} {locals : Locals} {n next : Nat}

/-- A name is read from the variable or the capture that it stands for. -/
theorem lowerName_numbers {span : Span} {name : String} {e : Expr} :
    Numbers (lowerName scopes locals span name) n e next ↔
      next = n ∧ ((∃ l, locals.lookup name = some l ∧ e = .fetch name l.slot) ∨
        (∃ depth slot, locals.lookup name = none ∧
          lookupCapture 0 name scopes = .capture depth slot ∧ e = .captured name depth slot)) := by
  unfold lowerName lookup
  cases hlocal : locals.lookup name with
  | some l =>
    simp only [numbers_pure]
    constructor
    · rintro ⟨rfl, rfl⟩
      exact ⟨rfl, .inl ⟨l, rfl, rfl⟩⟩
    · rintro ⟨rfl, ⟨_, ⟨⟩, rfl⟩ | ⟨_, _, ⟨⟩, -⟩⟩
      exact ⟨rfl, rfl⟩
  | none =>
    cases hcapture : lookupCapture 0 name scopes with
    | «variable» l => exact absurd hcapture lookupCapture_ne_variable
    | capture depth slot =>
      simp only [numbers_pure]
      constructor
      · rintro ⟨rfl, rfl⟩
        exact ⟨rfl, .inr ⟨depth, slot, trivial, rfl, rfl⟩⟩
      · rintro ⟨rfl, ⟨_, ⟨⟩, -⟩ | ⟨_, _, -, ⟨⟩, rfl⟩⟩
        exact ⟨rfl, rfl⟩
    | unbound =>
      simp only [numbers_bind, numbers_report, false_and, exists_false, false_iff]
      rintro ⟨-, ⟨_, ⟨⟩, -⟩ | ⟨_, _, -, ⟨⟩, -⟩⟩

/-- An assignment writes the mutable variable that its name stands for. -/
theorem assignedSlot_numbers {name : Source.Name} {slot : Nat} :
    Numbers (assignedSlot scopes locals name) n slot next ↔
      next = n ∧ ∃ l, locals.lookup name.text = some l ∧ l.mutable = true ∧ slot = l.slot := by
  unfold assignedSlot lookup
  cases hlocal : locals.lookup name.text with
  | some l =>
    cases hmutable : l.mutable with
    | true =>
      simp only [hmutable, if_true, numbers_pure]
      constructor
      · rintro ⟨rfl, rfl⟩
        exact ⟨rfl, l, rfl, hmutable, rfl⟩
      · rintro ⟨rfl, _, ⟨⟩, -, rfl⟩
        exact ⟨rfl, rfl⟩
    | false =>
      simp only [hmutable, Bool.false_eq_true, if_false, numbers_bind, numbers_report, false_and,
        exists_false, false_iff]
      rintro ⟨-, _, ⟨⟩, htrue, -⟩
      rw [hmutable] at htrue
      cases htrue
  | none =>
    cases hcapture : lookupCapture 0 name.text scopes with
    | «variable» l => exact absurd hcapture lookupCapture_ne_variable
    | capture depth slot =>
      simp only [numbers_bind, numbers_report, false_and, exists_false, false_iff]
      rintro ⟨-, _, ⟨⟩, -⟩
    | unbound =>
      simp only [numbers_bind, numbers_report, false_and, exists_false, false_iff]
      rintro ⟨-, _, ⟨⟩, -⟩

end

def Rises {α : Type} (m : Numbering α) : Prop :=
  ∀ ⦃n : Nat⦄ ⦃x : α⦄ ⦃next : Nat⦄, Numbers m n x next → n ≤ next

namespace Rises
variable {α β : Type}

theorem pure (x : α) : Rises (pure x) := by
  intro n y next h
  exact (numbers_pure.1 h).2.le

theorem report (span : Span) (problem : Problem) : Rises (report span problem) :=
  fun _ _ _ h => absurd h numbers_report

theorem bind {m : Numbering α} {f : α → Numbering β} (hm : Rises m) (hf : ∀ x, Rises (f x)) :
    Rises (m >>= f) := by
  intro n y next h
  obtain ⟨x, k, hx, hy⟩ := numbers_bind.1 h
  exact (hm hx).trans (hf x hy)

theorem declareLocal (locals : Locals) (name : String) (mutable : Bool) :
    Rises (declareLocal locals name mutable) := by
  rintro n ⟨slot, after⟩ next h
  obtain ⟨-, -, rfl⟩ := numbers_declareLocal.1 h
  exact n.le_succ

theorem lowerName (scopes : List Scope) (locals : Locals) (span : Span) (name : String) :
    Rises (lowerName scopes locals span name) :=
  fun _ _ _ h => (lowerName_numbers.1 h).1.ge

theorem assignedSlot (scopes : List Scope) (locals : Locals) (name : Source.Name) :
    Rises (assignedSlot scopes locals name) :=
  fun _ _ _ h => (assignedSlot_numbers.1 h).1.ge

end Rises

mutual

theorem lowerExpr_rises (scopes : List Scope) (locals : Locals) :
    ∀ e : Source.Expr, Rises (lowerExpr scopes locals e)
  | .int _ _ | .float _ _ | .str _ _ | .bool _ _ | .null _ => .pure _
  | .name span name => .lowerName scopes locals span name
  | .index _ base position =>
    .bind (lowerExpr_rises scopes locals base) fun _ =>
      .bind (lowerExpr_rises scopes locals position) fun _ => .pure _
  | .field _ base _ => .bind (lowerExpr_rises scopes locals base) fun _ => .pure _
  | .call _ _ arguments => .bind (lowerExprs_rises scopes locals arguments) fun _ => .pure _
  | .binary _ _ lhs rhs =>
    .bind (lowerExpr_rises scopes locals lhs) fun _ =>
      .bind (lowerExpr_rises scopes locals rhs) fun _ => .pure _
  | .list _ items => .bind (lowerExprs_rises scopes locals items) fun _ => .pure _
  | .record _ fields => .bind (lowerRecord_rises scopes locals [] fields) fun _ => .pure _
  | .block _ body => .bind (lowerBlock_rises scopes locals false body) fun _ => .pure _

theorem lowerExprs_rises (scopes : List Scope) (locals : Locals) :
    ∀ es : List Source.Expr, Rises (lowerExprs scopes locals es)
  | [] => .pure _
  | e :: es =>
    .bind (lowerExpr_rises scopes locals e) fun _ =>
      .bind (lowerExprs_rises scopes locals es) fun _ => .pure _

theorem lowerRecord_rises (scopes : List Scope) (locals : Locals) (seen : List String) :
    ∀ fields : List (Source.Name × Source.Expr), Rises (lowerRecord scopes locals seen fields)
  | [] => .pure _
  | (name, e) :: rest => by
    have hrest : Rises (do
        let e ← lowerExpr scopes locals e
        let rest ← lowerRecord scopes locals (name.text :: seen) rest
        return (name.text, e) :: rest) :=
      .bind (lowerExpr_rises scopes locals e) fun _ =>
        .bind (lowerRecord_rises scopes locals (name.text :: seen) rest) fun _ => .pure _
    unfold lowerRecord
    split
    · exact .bind (.report _ _) fun _ => hrest
    · exact hrest

theorem lowerBlock_rises (scopes : List Scope) (locals : Locals) (inLoop : Bool) :
    ∀ b : Source.Block, Rises (lowerBlock scopes locals inLoop b)
  | .mk stmts result =>
    .bind (lowerStmts_rises scopes locals inLoop stmts) fun lowered =>
      .bind (lowerResult_rises scopes lowered.2 result) fun _ => .pure _

theorem lowerResult_rises (scopes : List Scope) (locals : Locals) :
    ∀ e : Option Source.Expr, Rises (lowerResult scopes locals e)
  | none => .pure _
  | some e => .bind (lowerExpr_rises scopes locals e) fun _ => .pure _

theorem lowerOtherwise_rises (scopes : List Scope) (locals : Locals) (inLoop : Bool) :
    ∀ b : Option Source.Block, Rises (lowerOtherwise scopes locals inLoop b)
  | none => .pure _
  | some b => .bind (lowerBlock_rises scopes locals inLoop b) fun _ => .pure _

theorem lowerStmts_rises (scopes : List Scope) (locals : Locals) (inLoop : Bool) :
    ∀ stmts : List Source.Stmt, Rises (lowerStmts scopes locals inLoop stmts)
  | [] => .pure _
  | s :: rest =>
    .bind (lowerStmt_rises scopes locals inLoop s) fun lowered =>
      .bind (lowerStmts_rises scopes lowered.2 inLoop rest) fun _ => .pure _

theorem lowerStmt_rises (scopes : List Scope) (locals : Locals) (inLoop : Bool) :
    ∀ s : Source.Stmt, Rises (lowerStmt scopes locals inLoop s)
  | .bind _ name mutable value =>
    .bind (lowerExpr_rises scopes locals value) fun _ =>
      .bind (.declareLocal locals name.text mutable) fun _ => .pure _
  | .assign _ name _ value =>
    .bind (lowerExpr_rises scopes locals value) fun _ =>
      .bind (.assignedSlot scopes locals name) fun _ => .pure _
  | .loop _ name start stop body =>
    .bind (lowerExpr_rises scopes locals start) fun _ =>
      .bind (lowerExpr_rises scopes locals stop) fun _ =>
        .bind (.declareLocal locals name.text false) fun declared =>
          .bind (lowerBlock_rises scopes declared.2 true body) fun _ => .pure _
  | .branch _ condition yes no =>
    .bind (lowerExpr_rises scopes locals condition) fun _ =>
      .bind (lowerBlock_rises scopes locals inLoop yes) fun _ =>
        .bind (lowerOtherwise_rises scopes locals inLoop no) fun _ => .pure _
  | .leave span => by
    unfold lowerStmt
    split
    · exact .bind (.report _ _) fun _ => .pure _
    · exact .pure _

end

section
variable {total : Nat}

mutual

theorem lowerExpr_sound {scopes : List Scope} {locals : Locals} :
    ∀ {e : Source.Expr} {lowered : Expr} {n next : Nat},
      Numbers (lowerExpr scopes locals e) n lowered next → next ≤ total →
      SoundExpr (Named scopes) total (slots locals) lowered
  | .int _ _, _, _, _, h, _ | .float _ _, _, _, _, h, _ | .str _ _, _, _, _, h, _
  | .bool _ _, _, _, _, h, _ | .null _, _, _, _, h, _ => by
    obtain ⟨rfl, -⟩ := numbers_pure.1 h
    trivial
  | .name span name, _, _, _, h, _ => by
    obtain ⟨-, ⟨l, hl, rfl⟩ | ⟨depth, slot, -, hslot, rfl⟩⟩ := lowerName_numbers.1 h
    · exact mem_slots_of_lookup hl
    · obtain ⟨k, scope, rfl, hscope, hfound, -⟩ := lookupCapture_eq_capture.1 hslot
      exact ⟨scope, name, by rwa [Nat.zero_add], hfound⟩
  | .index _ base position, _, _, _, h, hle => by
    simp only [lowerExpr, numbers_bind, numbers_pure] at h
    obtain ⟨b, k, hb, p, _, hp, rfl, rfl⟩ := h
    exact ⟨lowerExpr_sound hb ((lowerExpr_rises _ _ _ hp).trans hle), lowerExpr_sound hp hle⟩
  | .field _ base _, _, _, _, h, hle => by
    simp only [lowerExpr, numbers_bind, numbers_pure] at h
    obtain ⟨b, _, hb, rfl, rfl⟩ := h
    exact (lowerExpr_sound hb hle :)
  | .call _ _ arguments, _, _, _, h, hle => by
    simp only [lowerExpr, numbers_bind, numbers_pure] at h
    obtain ⟨es, _, hes, rfl, rfl⟩ := h
    exact lowerExprs_sound hes hle
  | .binary _ _ lhs rhs, _, _, _, h, hle => by
    simp only [lowerExpr, numbers_bind, numbers_pure] at h
    obtain ⟨a, k, ha, b, _, hb, rfl, rfl⟩ := h
    exact ⟨lowerExpr_sound ha ((lowerExpr_rises _ _ _ hb).trans hle), lowerExpr_sound hb hle⟩
  | .list _ items, _, _, _, h, hle => by
    simp only [lowerExpr, numbers_bind, numbers_pure] at h
    obtain ⟨es, _, hes, rfl, rfl⟩ := h
    exact lowerExprs_sound hes hle
  | .record _ fields, _, _, _, h, hle => by
    simp only [lowerExpr, numbers_bind, numbers_pure] at h
    obtain ⟨es, _, hes, rfl, rfl⟩ := h
    exact lowerRecord_sound hes hle
  | .block _ body, _, _, _, h, hle => by
    simp only [lowerExpr, numbers_bind, numbers_pure] at h
    obtain ⟨b, _, hb, rfl, rfl⟩ := h
    exact lowerBlock_sound hb hle

theorem lowerExprs_sound {scopes : List Scope} {locals : Locals} :
    ∀ {es : List Source.Expr} {lowered : List Expr} {n next : Nat},
      Numbers (lowerExprs scopes locals es) n lowered next → next ≤ total →
      SoundExprs (Named scopes) total (slots locals) lowered
  | [], _, _, _, h, _ => by
    obtain ⟨rfl, -⟩ := numbers_pure.1 h
    trivial
  | e :: es, _, _, _, h, hle => by
    simp only [lowerExprs, numbers_bind, numbers_pure] at h
    obtain ⟨a, k, ha, rest, _, hrest, rfl, rfl⟩ := h
    exact ⟨lowerExpr_sound ha ((lowerExprs_rises _ _ _ hrest).trans hle),
      lowerExprs_sound hrest hle⟩

theorem lowerRecord_sound {scopes : List Scope} {locals : Locals} {seen : List String} :
    ∀ {fields : List (Source.Name × Source.Expr)} {lowered : List (String × Expr)}
      {n next : Nat}, Numbers (lowerRecord scopes locals seen fields) n lowered next →
      next ≤ total → SoundFields (Named scopes) total (slots locals) lowered
  | [], _, _, _, h, _ => by
    obtain ⟨rfl, -⟩ := numbers_pure.1 h
    trivial
  | (name, e) :: rest, _, _, _, h, hle => by
    unfold lowerRecord at h
    split at h
    · simp only [numbers_bind, numbers_report, false_and, exists_false] at h
    · simp only [numbers_bind, numbers_pure] at h
      obtain ⟨a, k, ha, more, _, hmore, rfl, rfl⟩ := h
      exact ⟨lowerExpr_sound ha ((lowerRecord_rises _ _ _ _ hmore).trans hle),
        lowerRecord_sound hmore hle⟩

theorem lowerBlock_sound {scopes : List Scope} {locals : Locals} {inLoop : Bool} :
    ∀ {b : Source.Block} {lowered : Block} {n next : Nat},
      Numbers (lowerBlock scopes locals inLoop b) n lowered next → next ≤ total →
      SoundBlock (Named scopes) total (slots locals) lowered
  | .mk stmts result, _, _, _, h, hle => by
    simp only [lowerBlock, numbers_bind, numbers_pure] at h
    obtain ⟨⟨ss, inner⟩, k, hss, r, _, hr, rfl, rfl⟩ := h
    obtain ⟨hsound, hslots⟩ :=
      lowerStmts_sound hss ((lowerResult_rises _ _ _ hr).trans hle)
    exact ⟨hsound, hslots ▸ lowerResult_sound hr hle⟩

theorem lowerResult_sound {scopes : List Scope} {locals : Locals} :
    ∀ {e : Option Source.Expr} {lowered : Option Expr} {n next : Nat},
      Numbers (lowerResult scopes locals e) n lowered next → next ≤ total →
      SoundResult (Named scopes) total (slots locals) lowered
  | none, _, _, _, h, _ => by
    obtain ⟨rfl, -⟩ := numbers_pure.1 h
    trivial
  | some e, _, _, _, h, hle => by
    simp only [lowerResult, numbers_bind, numbers_pure] at h
    obtain ⟨a, _, ha, rfl, rfl⟩ := h
    exact lowerExpr_sound ha hle

theorem lowerOtherwise_sound {scopes : List Scope} {locals : Locals} {inLoop : Bool} :
    ∀ {b : Option Source.Block} {lowered : Option Block} {n next : Nat},
      Numbers (lowerOtherwise scopes locals inLoop b) n lowered next → next ≤ total →
      SoundOtherwise (Named scopes) total (slots locals) lowered
  | none, _, _, _, h, _ => by
    obtain ⟨rfl, -⟩ := numbers_pure.1 h
    trivial
  | some b, _, _, _, h, hle => by
    simp only [lowerOtherwise, numbers_bind, numbers_pure] at h
    obtain ⟨a, _, ha, rfl, rfl⟩ := h
    exact lowerBlock_sound ha hle

theorem lowerStmts_sound {scopes : List Scope} {inLoop : Bool} :
    ∀ {stmts : List Source.Stmt} {locals after : Locals} {lowered : List Stmt} {n next : Nat},
      Numbers (lowerStmts scopes locals inLoop stmts) n (lowered, after) next → next ≤ total →
      SoundStmts (Named scopes) total (slots locals) lowered ∧
        declared (slots locals) lowered = slots after
  | [], _, _, _, _, _, h, _ => by
    obtain ⟨⟨⟩, -⟩ := numbers_pure.1 h
    exact ⟨trivial, rfl⟩
  | s :: rest, _, _, _, _, _, h, hle => by
    simp only [lowerStmts, numbers_bind, numbers_pure, Prod.mk.injEq] at h
    obtain ⟨⟨a, inner⟩, k, ha, ⟨more, after⟩, _, hmore, ⟨rfl, rfl⟩, rfl⟩ := h
    obtain ⟨hs, hinner⟩ := lowerStmt_sound ha ((lowerStmts_rises _ _ _ _ hmore).trans hle)
    obtain ⟨hrest, hafter⟩ := lowerStmts_sound hmore hle
    rw [← hinner] at hrest hafter
    exact ⟨⟨hs, hrest⟩, hafter⟩

theorem lowerStmt_sound {scopes : List Scope} {inLoop : Bool} :
    ∀ {s : Source.Stmt} {locals after : Locals} {lowered : Stmt} {n next : Nat},
      Numbers (lowerStmt scopes locals inLoop s) n (lowered, after) next → next ≤ total →
      SoundStmt (Named scopes) total (slots locals) lowered ∧
        declares lowered ++ slots locals = slots after
  | .bind _ name mutable value, locals, _, _, _, _, h, hle => by
    simp only [lowerStmt, numbers_bind, numbers_pure, Prod.mk.injEq] at h
    obtain ⟨a, k, ha, ⟨slot, inner⟩, _, hdeclare, ⟨rfl, rfl⟩, rfl⟩ := h
    obtain ⟨rfl, rfl, rfl⟩ := numbers_declareLocal.1 hdeclare
    exact ⟨⟨hle, lowerExpr_sound ha (slot.le_succ.trans hle)⟩, rfl⟩
  | .assign _ name mode value, locals, _, _, _, _, h, hle => by
    simp only [lowerStmt, numbers_bind, numbers_pure, Prod.mk.injEq] at h
    obtain ⟨a, k, ha, slot, _, hslot, ⟨rfl, rfl⟩, rfl⟩ := h
    obtain ⟨rfl, l, hl, -, rfl⟩ := assignedSlot_numbers.1 hslot
    exact ⟨⟨mem_slots_of_lookup hl, lowerExpr_sound ha hle⟩, rfl⟩
  | .loop _ name start stop body, locals, _, _, _, _, h, hle => by
    simp only [lowerStmt, numbers_bind, numbers_pure, Prod.mk.injEq] at h
    obtain ⟨a, k, ha, b, m, hb, ⟨slot, inner⟩, _, hdeclare, c, _, hc, ⟨rfl, rfl⟩, rfl⟩ := h
    obtain ⟨rfl, rfl, rfl⟩ := numbers_declareLocal.1 hdeclare
    have hslot := (lowerBlock_rises _ _ _ _ hc).trans hle
    have hstop := slot.le_succ.trans hslot
    exact ⟨⟨hslot, lowerExpr_sound ha ((lowerExpr_rises _ _ _ hb).trans hstop),
      lowerExpr_sound hb hstop, lowerBlock_sound hc hle⟩, rfl⟩
  | .branch _ condition yes no, locals, _, _, _, _, h, hle => by
    simp only [lowerStmt, numbers_bind, numbers_pure, Prod.mk.injEq] at h
    obtain ⟨a, k, ha, b, m, hb, c, _, hc, ⟨rfl, rfl⟩, rfl⟩ := h
    have hyes := (lowerOtherwise_rises _ _ _ _ hc).trans hle
    exact ⟨⟨lowerExpr_sound ha ((lowerBlock_rises _ _ _ _ hb).trans hyes),
      lowerBlock_sound hb hyes, lowerOtherwise_sound hc hle⟩, rfl⟩
  | .leave span, locals, _, _, _, _, h, _ => by
    unfold lowerStmt at h
    split at h
    · simp only [numbers_bind, numbers_report, false_and, exists_false] at h
    · obtain ⟨⟨⟩, -⟩ := numbers_pure.1 h
      exact ⟨trivial, rfl⟩

end

/-- The resolved body of an action is sound for the slots that were numbered. -/
theorem lowerAction_sound {scopes : List Scope} {body : Source.Expr} {lowered : Expr}
    {locals : Nat} (h : Clean (lowerAction scopes body) (lowered, locals)) :
    SoundExpr (Named scopes) locals [] lowered := by
  have hsound : SoundExpr (Named scopes) locals (slots []) lowered := lowerExpr_sound h le_rfl
  exact hsound

end

end TextGrammar.Compile
