import TextGrammar.Proofs.Action.Writes

/-! # What code may write

Which slots some code can write, and how, is seen from the code alone: by its declarations, its
loops and its assignments. Whatever the code comes to when it runs writes nothing else. -/

namespace TextGrammar.Action

section
variable (allowed : Nat → Option AssignMode → Prop)

mutual

def LimitedExpr : Expr → Prop
  | .literal _ | .captured _ _ _ | .fetch _ _ => True
  | .index base position => LimitedExpr base ∧ LimitedExpr position
  | .field base _ => LimitedExpr base
  | .call _ arguments => LimitedExprs arguments
  | .binary _ lhs rhs => LimitedExpr lhs ∧ LimitedExpr rhs
  | .list items => LimitedExprs items
  | .record fields => LimitedFields fields
  | .block body => LimitedBlock body

def LimitedExprs : List Expr → Prop
  | [] => True
  | e :: es => LimitedExpr e ∧ LimitedExprs es

def LimitedFields : List (String × Expr) → Prop
  | [] => True
  | (_, e) :: rest => LimitedExpr e ∧ LimitedFields rest

def LimitedResult : Option Expr → Prop
  | none => True
  | some e => LimitedExpr e

def LimitedBlock : Block → Prop
  | .mk stmts result => LimitedStmts stmts ∧ LimitedResult result

def LimitedOtherwise : Option Block → Prop
  | none => True
  | some b => LimitedBlock b

def LimitedStmts : List Stmt → Prop
  | [] => True
  | s :: rest => LimitedStmt s ∧ LimitedStmts rest

def LimitedStmt : Stmt → Prop
  | .bind _ slot value => allowed slot none ∧ LimitedExpr value
  | .assign _ slot mode value => allowed slot (some mode) ∧ LimitedExpr value
  | .loop _ slot start stop body =>
    allowed slot none ∧ LimitedExpr start ∧ LimitedExpr stop ∧ LimitedBlock body
  | .branch condition yes no =>
    LimitedExpr condition ∧ LimitedBlock yes ∧ LimitedOtherwise no
  | .leave => True

end

def LimitedPart : Part → Prop
  | .expr e => LimitedExpr allowed e
  | .exprs es => LimitedExprs allowed es
  | .fields fields => LimitedFields allowed fields
  | .result e => LimitedResult allowed e
  | .all stmts | .stmts stmts => LimitedStmts allowed stmts
  | .block b => LimitedBlock allowed b
  | .otherwise b => LimitedOtherwise allowed b
  | .stmt s => LimitedStmt allowed s
  | .rounds _ slot body _ _ => allowed slot none ∧ LimitedBlock allowed body
  | .store _ slot mode _ => allowed slot (some mode)

end

section
variable {allowed : Nat → Option AssignMode → Prop} {frames : List Frame} {v w : Visit}

theorem Leads.limited (h : Leads frames v w) (hv : LimitedPart allowed v.1) :
    LimitedPart allowed w.1 := by
  cases h with
  | field | list | record | result | otherwise | nextRound => exact hv
  | argument | lhs | all | item | member | eachStmt | stmt | block | condition | base | store =>
    exact hv.1
  | position | rhs | allResult | items | members | eachRest | stmts | blockResult | initial
  | assigned | round => exact hv.2
  | start | yes => exact hv.2.1
  | stop => exact hv.2.2.1
  | rounds => exact ⟨hv.1, hv.2.2.2⟩
  | no => exact hv.2.2

theorem visits_limited (h : Visits frames v w) (hv : LimitedPart allowed v.1) :
    LimitedPart allowed w.1 := by
  induction h with
  | refl => exact hv
  | tail _ hlead ih => exact hlead.limited ih

/-- Whatever limited code comes to writes what is allowed. -/
theorem writes_allowed (h : Visits frames v w) (hv : LimitedPart allowed v.1) {slot : Nat}
    {mode : Option AssignMode} (hw : Writes w.1 slot mode) : allowed slot mode := by
  have hlimited := visits_limited h hv
  obtain ⟨part, L⟩ := w
  cases hw with
  | bind | round => exact hlimited.1
  | store => exact hlimited

end

end TextGrammar.Action
