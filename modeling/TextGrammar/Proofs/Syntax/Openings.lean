import TextGrammar.Proofs.Display.Statements
import TextGrammar.Proofs.Syntax.Spelling

/-! # First marks of spellings

The first marks of an expression, a statement and a block tell them apart from one another, from
the fields of a record, and from the end of a list. -/

namespace TextGrammar.Source.Parser
open Token (Kind)
variable {n : Nat} {ws : List Mark}

/-- Marks start like an expression does. If that is a name, nothing stands behind it that would
make a statement or a field of a record of it, unless it stands behind the whole expression. -/
def OpensExpr (ws : List Mark) : Prop :=
  ∃ m ws', ws = m :: ws' ∧ m.kind ∈ openers ∧
    (m.kind = .identifier → ∀ rest, frontKind rest ∉ namers → frontKind (ws' ++ rest) ∉ namers)

namespace OpensExpr

theorem of_ne_name {m : Mark} (h : m.kind ∈ openers) (hname : m.kind ≠ .identifier) :
    OpensExpr (m :: ws) :=
  ⟨m, ws, rfl, h, fun heq => absurd heq hname⟩

theorem append_cons (h : OpensExpr ws) {m : Mark} (hm : some m.kind ∉ namers) (ws' : List Mark) :
    OpensExpr (ws ++ m :: ws') := by
  obtain ⟨first, front, rfl, hfirst, hname⟩ := h
  refine ⟨first, front ++ m :: ws', rfl, hfirst, fun heq rest _ => ?_⟩
  rw [List.append_assoc]
  exact hname heq _ hm

theorem front_ne (h : OpensExpr ws) {kind : Kind} (hkind : kind ∉ openers) :
    ∃ m ws', ws = m :: ws' ∧ m.kind ≠ kind := by
  obtain ⟨m, ws', rfl, hm, -⟩ := h
  exact ⟨m, ws', rfl, fun heq => hkind (heq ▸ hm)⟩

end OpensExpr

theorem operator_notMem_namers (op : Operator) : some (Mark.sign op.kind).kind ∉ namers := by
  cases op <;> decide

/-- Phrases of expressions and blocks start like an expression does. -/
theorem spells_opens {phrase : Phrase} (h : Spells n phrase ws) :
    match phrase with
    | .expr _ | .sum _ _ | .product _ _ | .operand _ _ | .atom _ | .block _ => OpensExpr ws
    | _ => True := by
  induction h with
  | sumAlone _ ih | productAlone _ ih | operandAlone _ ih | atomAlone _ ih => exact ih
  | blockValue _ _ ih => exact ih
  | comparison _ _ _ ih _ | sum _ _ _ _ ih _ | product _ _ _ _ ih _ =>
    exact ih.append_cons (operator_notMem_namers _) _
  | index _ _ _ ih _ | field _ _ ih => exact ih.append_cons (by decide) _
  | @number _ negative =>
    cases negative
    · exact .of_ne_name (by simp [openers, Mark.kind]) nofun
    · exact .of_ne_name (by decide) nofun
  | name => exact ⟨_, _, rfl, by simp [openers, Mark.kind], fun _ rest h => h⟩
  | call =>
    exact ⟨_, _, rfl, by simp [openers, Mark.kind], fun _ _ _ => by simp [namers, Mark.kind]⟩
  | str => exact .of_ne_name (by simp [openers, Mark.kind]) nofun
  | _ => first | trivial | exact .of_ne_name (by decide) nofun

theorem opensExpr {e : Expr} (h : Spells n (.expr e) ws) : OpensExpr ws := spells_opens h

def stmtOpeners : List Kind :=
  [.keyword .letBinding, .keyword .forLoop, .keyword .ifThen, .keyword .breakLoop]

def assigners : List Kind := [.symbol .assign, .symbol .plusAssign]

def OpensStmt (ws : List Mark) : Prop :=
  ∃ m ws', ws = m :: ws' ∧ (m.kind ∈ stmtOpeners ∨
    m.kind = .identifier ∧ ∃ m' ws'', ws' = m' :: ws'' ∧ m'.kind ∈ assigners)

theorem OpensStmt.append (h : OpensStmt ws) (ws' : List Mark) : OpensStmt (ws ++ ws') := by
  obtain ⟨m, front, rfl, hm | ⟨hname, m', front', rfl, hm'⟩⟩ := h
  · exact ⟨m, _, rfl, .inl hm⟩
  · exact ⟨m, _, rfl, .inr ⟨hname, m', _, rfl, hm'⟩⟩

theorem opensStmt {last : Bool} {s : Stmt} (h : Spells n (.stmt last s) ws) : OpensStmt ws := by
  cases h with
  | @assign _ _ _ _ mode => exact ⟨_, _, rfl, .inr ⟨rfl, _, _, rfl, by cases mode <;> decide⟩⟩
  | _ => exact ⟨_, _, rfl, .inl (by decide)⟩

theorem opensStmts {last : Bool} {s : Stmt} {ss : List Stmt}
    (h : Spells n (.stmts last (s :: ss)) ws) : OpensStmt ws := by
  cases h with
  | stmt hs _ => exact (opensStmt hs).append _

theorem opensStmts_or_nil {last : Bool} {ss : List Stmt} (h : Spells n (.stmts last ss) ws) :
    ss = [] ∧ ws = [] ∨ ss ≠ [] ∧ OpensStmt ws := by
  cases ss with
  | nil =>
    cases h
    exact .inl ⟨rfl, rfl⟩
  | cons s ss => exact .inr ⟨List.cons_ne_nil _ _, opensStmts h⟩

theorem opensEntry {f : Name × Expr} (h : Spells n (.entry f) ws) :
    ∃ text ws', ws = .name text :: .symbol .colon :: ws' := by
  cases h
  exact ⟨_, _, rfl⟩

/-- Marks behind a brace start neither like the fields of a record do nor with the other brace,
whatever stands behind them. -/
def OpensBody (ws : List Mark) : Prop :=
  ∃ m ws', ws = m :: ws' ∧ m.kind ≠ .symbol .rightBrace ∧
    (m.kind = .identifier → ∀ rest, frontKind (ws' ++ rest) ≠ some (.symbol .colon))

theorem OpensBody.append (h : OpensBody ws) (ws' : List Mark) : OpensBody (ws ++ ws') := by
  obtain ⟨m, front, rfl, hm, hname⟩ := h
  refine ⟨m, front ++ ws', rfl, hm, fun heq rest => ?_⟩
  rw [List.append_assoc]
  exact hname heq _

theorem OpensStmt.body (h : OpensStmt ws) : OpensBody ws := by
  obtain ⟨m, front, rfl, hm | ⟨hname, m', front', rfl, hm'⟩⟩ := h
  · refine ⟨m, front, rfl, ?_, fun hname => ?_⟩
    · rintro heq
      rw [heq] at hm
      exact absurd hm (by decide)
    · rw [hname] at hm
      exact absurd hm (by decide)
  · refine ⟨m, _, rfl, by rw [hname]; nofun, fun _ rest heq => ?_⟩
    rw [Option.some.inj heq] at hm'
    exact absurd hm' (by decide)

theorem OpensExpr.body (h : OpensExpr ws) : OpensBody (ws ++ [.symbol .rightBrace]) := by
  obtain ⟨m, front, rfl, hm, hname⟩ := h
  refine ⟨m, front ++ [.symbol .rightBrace], rfl, ?_, fun heq rest hcolon => ?_⟩
  · rintro heq
    rw [heq] at hm
    exact absurd hm (by decide)
  · have hnot := hname heq (.symbol .rightBrace :: rest) (by simp [namers, Mark.kind])
    rw [List.append_assoc, List.singleton_append] at hcolon
    rw [hcolon] at hnot
    exact hnot (by decide)

/-- A block starts with a brace. -/
def OpensBlock (ws : List Mark) : Prop := ∃ ws', ws = .symbol .leftBrace :: ws'

theorem opensBlock {b : Block} (h : Spells n (.block b) ws) : OpensBlock ws := by
  cases h <;> exact ⟨_, rfl⟩

/-- A block that is not empty is told from a record. -/
theorem opensBody {b : Block} (h : Spells n (.block b) ws) (hne : b ≠ .mk [] none) :
    ∃ ws', ws = .symbol .leftBrace :: ws' ∧ OpensBody ws' := by
  cases h with
  | @body _ ss _ hstmts =>
    refine ⟨_, rfl, ?_⟩
    cases ss with
    | nil => exact absurd rfl hne
    | cons s ss => exact ((opensStmts hstmts).append _).body
  | @bodyValue _ ss _ ws ws' hstmts hvalue =>
    refine ⟨_, rfl, ?_⟩
    cases ss with
    | nil =>
      cases hstmts
      exact (opensExpr hvalue).body
    | cons s ss => exact ((opensStmts hstmts).append _).body

end TextGrammar.Source.Parser
