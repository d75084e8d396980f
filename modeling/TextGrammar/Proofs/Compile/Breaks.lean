import TextGrammar.Proofs.Action.Breaks
import TextGrammar.Proofs.Compile.Clean

/-! # Resolved actions are contained

A break outside of loops is a finding. The value of an expression is computed outside of the loops
around the expression, and the bounds of a loop are evaluated outside of it. So when nothing is
found, every break of the resolved action stands in a loop. -/

namespace TextGrammar.Compile
open TextGrammar.Action (ContainedExpr ContainedExprs ContainedFields ContainedResult ContainedBlock
  ContainedOtherwise ContainedStmts ContainedStmt)

/-- A name is a variable or a capture. -/
theorem lowerName_contained {scopes : List Scope} {locals : Locals} {span : Span} {name : String}
    {e : Expr} {n next : Nat} (h : Numbers (lowerName scopes locals span name) n e next) :
    ContainedExpr e := by
  unfold lowerName at h
  split at h
  · obtain ⟨rfl, -⟩ := numbers_pure.1 h
    trivial
  · obtain ⟨rfl, -⟩ := numbers_pure.1 h
    trivial
  · simp only [numbers_bind, numbers_report, false_and, exists_false] at h

mutual

theorem lowerExpr_contained {scopes : List Scope} {locals : Locals} :
    ∀ {e : Source.Expr} {lowered : Expr} {n next : Nat},
      Numbers (lowerExpr scopes locals e) n lowered next → ContainedExpr lowered
  | .int _ _, _, _, _, h | .float _ _, _, _, _, h | .str _ _, _, _, _, h
  | .bool _ _, _, _, _, h | .null _, _, _, _, h => by
    obtain ⟨rfl, -⟩ := numbers_pure.1 h
    trivial
  | .name _ _, _, _, _, h => lowerName_contained h
  | .index _ base position, _, _, _, h => by
    simp only [lowerExpr, numbers_bind, numbers_pure] at h
    obtain ⟨b, _, hb, p, _, hp, rfl, rfl⟩ := h
    exact ⟨lowerExpr_contained hb, lowerExpr_contained hp⟩
  | .field _ base _, _, _, _, h => by
    simp only [lowerExpr, numbers_bind, numbers_pure] at h
    obtain ⟨b, _, hb, rfl, rfl⟩ := h
    exact (lowerExpr_contained hb :)
  | .call _ _ arguments, _, _, _, h => by
    simp only [lowerExpr, numbers_bind, numbers_pure] at h
    obtain ⟨es, _, hes, rfl, rfl⟩ := h
    exact lowerExprs_contained hes
  | .binary _ _ lhs rhs, _, _, _, h => by
    simp only [lowerExpr, numbers_bind, numbers_pure] at h
    obtain ⟨a, _, ha, b, _, hb, rfl, rfl⟩ := h
    exact ⟨lowerExpr_contained ha, lowerExpr_contained hb⟩
  | .list _ items, _, _, _, h => by
    simp only [lowerExpr, numbers_bind, numbers_pure] at h
    obtain ⟨es, _, hes, rfl, rfl⟩ := h
    exact lowerExprs_contained hes
  | .record _ fields, _, _, _, h => by
    simp only [lowerExpr, numbers_bind, numbers_pure] at h
    obtain ⟨es, _, hes, rfl, rfl⟩ := h
    exact lowerRecord_contained hes
  | .block _ body, _, _, _, h => by
    simp only [lowerExpr, numbers_bind, numbers_pure] at h
    obtain ⟨b, _, hb, rfl, rfl⟩ := h
    exact lowerBlock_contained hb

theorem lowerExprs_contained {scopes : List Scope} {locals : Locals} :
    ∀ {es : List Source.Expr} {lowered : List Expr} {n next : Nat},
      Numbers (lowerExprs scopes locals es) n lowered next → ContainedExprs lowered
  | [], _, _, _, h => by
    obtain ⟨rfl, -⟩ := numbers_pure.1 h
    trivial
  | e :: es, _, _, _, h => by
    simp only [lowerExprs, numbers_bind, numbers_pure] at h
    obtain ⟨a, _, ha, rest, _, hrest, rfl, rfl⟩ := h
    exact ⟨lowerExpr_contained ha, lowerExprs_contained hrest⟩

theorem lowerRecord_contained {scopes : List Scope} {locals : Locals} {seen : List String} :
    ∀ {fields : List (Source.Name × Source.Expr)} {lowered : List (String × Expr)}
      {n next : Nat}, Numbers (lowerRecord scopes locals seen fields) n lowered next →
      ContainedFields lowered
  | [], _, _, _, h => by
    obtain ⟨rfl, -⟩ := numbers_pure.1 h
    trivial
  | (name, e) :: rest, _, _, _, h => by
    unfold lowerRecord at h
    split at h
    · simp only [numbers_bind, numbers_report, false_and, exists_false] at h
    · simp only [numbers_bind, numbers_pure] at h
      obtain ⟨a, _, ha, more, _, hmore, rfl, rfl⟩ := h
      exact ⟨lowerExpr_contained ha, lowerRecord_contained hmore⟩

theorem lowerBlock_contained {scopes : List Scope} {locals : Locals} {inLoop : Bool} :
    ∀ {b : Source.Block} {lowered : Block} {n next : Nat},
      Numbers (lowerBlock scopes locals inLoop b) n lowered next → ContainedBlock inLoop lowered
  | .mk stmts result, _, _, _, h => by
    simp only [lowerBlock, numbers_bind, numbers_pure] at h
    obtain ⟨⟨ss, inner⟩, _, hss, r, _, hr, rfl, rfl⟩ := h
    exact ⟨lowerStmts_contained hss, lowerResult_contained hr⟩

theorem lowerResult_contained {scopes : List Scope} {locals : Locals} :
    ∀ {e : Option Source.Expr} {lowered : Option Expr} {n next : Nat},
      Numbers (lowerResult scopes locals e) n lowered next → ContainedResult lowered
  | none, _, _, _, h => by
    obtain ⟨rfl, -⟩ := numbers_pure.1 h
    trivial
  | some e, _, _, _, h => by
    simp only [lowerResult, numbers_bind, numbers_pure] at h
    obtain ⟨a, _, ha, rfl, rfl⟩ := h
    exact lowerExpr_contained ha

theorem lowerOtherwise_contained {scopes : List Scope} {locals : Locals} {inLoop : Bool} :
    ∀ {b : Option Source.Block} {lowered : Option Block} {n next : Nat},
      Numbers (lowerOtherwise scopes locals inLoop b) n lowered next →
      ContainedOtherwise inLoop lowered
  | none, _, _, _, h => by
    obtain ⟨rfl, -⟩ := numbers_pure.1 h
    trivial
  | some b, _, _, _, h => by
    simp only [lowerOtherwise, numbers_bind, numbers_pure] at h
    obtain ⟨a, _, ha, rfl, rfl⟩ := h
    exact lowerBlock_contained ha

theorem lowerStmts_contained {scopes : List Scope} {inLoop : Bool} :
    ∀ {stmts : List Source.Stmt} {locals after : Locals} {lowered : List Stmt} {n next : Nat},
      Numbers (lowerStmts scopes locals inLoop stmts) n (lowered, after) next →
      ContainedStmts inLoop lowered
  | [], _, _, _, _, _, h => by
    obtain ⟨⟨⟩, -⟩ := numbers_pure.1 h
    trivial
  | s :: rest, _, _, _, _, _, h => by
    simp only [lowerStmts, numbers_bind, numbers_pure, Prod.mk.injEq] at h
    obtain ⟨⟨a, inner⟩, _, ha, ⟨more, after⟩, _, hmore, ⟨rfl, rfl⟩, rfl⟩ := h
    exact ⟨lowerStmt_contained ha, lowerStmts_contained hmore⟩

theorem lowerStmt_contained {scopes : List Scope} {inLoop : Bool} :
    ∀ {s : Source.Stmt} {locals after : Locals} {lowered : Stmt} {n next : Nat},
      Numbers (lowerStmt scopes locals inLoop s) n (lowered, after) next →
      ContainedStmt inLoop lowered
  | .bind _ name mutable value, _, _, _, _, _, h => by
    simp only [lowerStmt, numbers_bind, numbers_pure, Prod.mk.injEq] at h
    obtain ⟨a, _, ha, ⟨slot, inner⟩, _, -, ⟨rfl, rfl⟩, rfl⟩ := h
    exact (lowerExpr_contained ha :)
  | .assign _ name mode value, _, _, _, _, _, h => by
    simp only [lowerStmt, numbers_bind, numbers_pure, Prod.mk.injEq] at h
    obtain ⟨a, _, ha, slot, _, -, ⟨rfl, rfl⟩, rfl⟩ := h
    exact (lowerExpr_contained ha :)
  | .loop _ name start stop body, _, _, _, _, _, h => by
    simp only [lowerStmt, numbers_bind, numbers_pure, Prod.mk.injEq] at h
    obtain ⟨a, _, ha, b, _, hb, ⟨slot, inner⟩, _, -, c, _, hc, ⟨rfl, rfl⟩, rfl⟩ := h
    exact ⟨lowerExpr_contained ha, lowerExpr_contained hb, lowerBlock_contained hc⟩
  | .branch _ condition yes no, _, _, _, _, _, h => by
    simp only [lowerStmt, numbers_bind, numbers_pure, Prod.mk.injEq] at h
    obtain ⟨a, _, ha, b, _, hb, c, _, hc, ⟨rfl, rfl⟩, rfl⟩ := h
    exact ⟨lowerExpr_contained ha, lowerBlock_contained hb, lowerOtherwise_contained hc⟩
  | .leave span, _, _, _, _, _, h => by
    cases inLoop with
    | false => simp only [lowerStmt, Bool.not_false, if_true, numbers_bind, numbers_report,
        false_and, exists_false] at h
    | true =>
      obtain ⟨⟨⟩, -⟩ := numbers_pure.1 h
      rfl

end

/-- The resolved body of an action is contained. -/
theorem lowerAction_contained {scopes : List Scope} {body : Source.Expr} {lowered : Expr}
    {locals : Nat} (h : Clean (lowerAction scopes body) (lowered, locals)) :
    ContainedExpr lowered := by
  have hcontained : Numbers (lowerExpr scopes [] body) 0 lowered locals := h
  exact lowerExpr_contained hcontained

end TextGrammar.Compile
