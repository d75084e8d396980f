import TextGrammar.Proofs.Spans.Expressions
import TextGrammar.Proofs.Syntax.Statements

/-! # Spans of parsed statements

A statement starts where the cursor is and ends with the token read last, which may be a semicolon.
The arms of a branch are put into one another after all of them have been read, so each ends behind
the arms in it. -/

namespace TextGrammar.Source.Parser
open Token (Kind)
open Piece

section
variable {c d : Cursor} {expr : Parser Expr} {block : Parser Block}

theorem semicolon_passed {u : Unit} (h : Yields semicolon c u d) :
    ∃ ended, Passed c (signIf ended (.symbol .semicolon)) d := by
  obtain ⟨b, c₁, hb, h⟩ := yields_bind.1 h
  have hpassed := accept_passed Mark.eq_symbol hb
  cases b with
  | true =>
    obtain ⟨rfl, rfl⟩ := yields_pure.1 h
    exact ⟨_, hpassed⟩
  | false =>
    obtain ⟨b, c₂, hb, h⟩ := yields_bind.1 h
    obtain ⟨rfl, -⟩ := at_yields hb
    split at h
    · obtain ⟨rfl, rfl⟩ := yields_pure.1 h
      exact ⟨_, hpassed⟩
    · cases h

theorem declaration_passed (hexpr : PassesExpr expr)
    (hfront : frontKind c.marks = some (.keyword .letBinding)) {s : Stmt}
    (h : Yields (declaration expr) c s d) : Passed c [part (.stmt s)] d := by
  obtain ⟨start, c₁, hstart, h⟩ := yields_bind.1 h
  obtain ⟨rfl, rfl⟩ := here_place hstart
  obtain ⟨u, c₂, hu, h⟩ := yields_bind.1 h
  obtain ⟨mutable, c₃, hmutable, h⟩ := yields_bind.1 h
  obtain ⟨name, c₄, hname, h⟩ := yields_bind.1 h
  obtain ⟨t, c₅, ht, h⟩ := yields_bind.1 h
  obtain ⟨value, c₆, hvalue, h⟩ := yields_bind.1 h
  obtain ⟨u', c₇, hu', h⟩ := yields_bind.1 h
  obtain ⟨rfl, rfl⟩ := spanned_place h
  have hlet := advance_passed Mark.eq_keyword hu hfront
  have hmut := accept_passed Mark.eq_keyword hmutable
  have hassign := expect_passed Mark.eq_symbol ht
  obtain ⟨_, rfl, hpassed⟩ := hexpr hvalue
  obtain ⟨ended, hend⟩ := semicolon_passed hu'
  have hback := (identifier_named hname).cons (hassign.cons (hpassed.trans hend))
  exact (hlet.cons (hmut.trans hback)).spanned .bind rfl

theorem assignment_passed (hexpr : PassesExpr expr) {s : Stmt}
    (h : Yields (assignment expr) c s d) : Passed c [part (.stmt s)] d := by
  obtain ⟨start, c₁, hstart, h⟩ := yields_bind.1 h
  obtain ⟨rfl, rfl⟩ := here_place hstart
  obtain ⟨name, c₂, hname, h⟩ := yields_bind.1 h
  obtain ⟨b, c₃, hb, h⟩ := yields_bind.1 h
  have hend : ∀ (mode : AssignMode) {e : Cursor}, Passed c₂ [sign (.sign (assignKind mode))] e →
      Yields (do
        let value ← expr
        semicolon
        return Stmt.assign (← spanFrom c.here) name mode value) e s d →
      Passed c [part (.stmt s)] d := by
    intro mode e hmode h
    obtain ⟨value, c₄, hvalue, h⟩ := yields_bind.1 h
    obtain ⟨u, c₅, hu, h⟩ := yields_bind.1 h
    obtain ⟨rfl, rfl⟩ := spanned_place h
    obtain ⟨_, rfl, hpassed⟩ := hexpr hvalue
    obtain ⟨ended, hend⟩ := semicolon_passed hu
    have hback := hmode.cons (hpassed.trans hend)
    exact ((identifier_named hname).cons hback).spanned .assign rfl
  have hplus := accept_passed Mark.eq_symbol hb
  cases b with
  | true =>
    obtain ⟨mode, c₄, hmode, h⟩ := yields_bind.1 h
    obtain ⟨rfl, rfl⟩ := yields_pure.1 hmode
    exact hend .append hplus h
  | false =>
    obtain ⟨t, c₄, ht, h⟩ := yields_bind.1 h
    obtain ⟨mode, c₅, hmode, h⟩ := yields_bind.1 h
    obtain ⟨rfl, rfl⟩ := yields_pure.1 hmode
    exact hend .set (hplus.trans (expect_passed Mark.eq_symbol ht)) h

theorem loop_passed (hexpr : PassesExpr expr) (hblock : PassesBlock block)
    (hfront : frontKind c.marks = some (.keyword .forLoop)) {s : Stmt}
    (h : Yields (loop expr block) c s d) : Passed c [part (.stmt s)] d := by
  obtain ⟨first, c₁, hfirst, h⟩ := yields_bind.1 h
  obtain ⟨rfl, rfl⟩ := here_place hfirst
  obtain ⟨u, c₂, hu, h⟩ := yields_bind.1 h
  obtain ⟨name, c₃, hname, h⟩ := yields_bind.1 h
  obtain ⟨t, c₄, ht, h⟩ := yields_bind.1 h
  obtain ⟨start, c₅, hstart, h⟩ := yields_bind.1 h
  obtain ⟨t', c₆, ht', h⟩ := yields_bind.1 h
  obtain ⟨stop, c₇, hstop, h⟩ := yields_bind.1 h
  obtain ⟨body, c₈, hbody, h⟩ := yields_bind.1 h
  obtain ⟨ended, c₉, hended, h⟩ := yields_bind.1 h
  obtain ⟨rfl, rfl⟩ := spanned_place h
  have hfor := advance_passed Mark.eq_keyword hu hfront
  have hin := expect_passed Mark.eq_keyword ht
  obtain ⟨_, rfl, hstarts⟩ := hexpr hstart
  have hdots := expect_passed Mark.eq_symbol ht'
  obtain ⟨_, rfl, hstops⟩ := hexpr hstop
  obtain ⟨_, rfl, hbodies⟩ := hblock hbody
  have hrange := hin.cons (hstarts.trans (hdots.cons hstops))
  have hback := hbodies.trans (accept_passed Mark.eq_symbol hended)
  exact (hfor.cons ((identifier_named hname).cons (hrange.trans hback))).spanned .loop rfl

/-- The pieces of an arm: the word `if`, the condition and the block. -/
def armPieces (a : Arm) : List Piece :=
  keyword .ifThen :: part (.expr a.condition) :: blockPieces a.body

/-- An arm starts with the word `if`. -/
theorem arm_passed (hexpr : PassesExpr expr) (hblock : PassesBlock block) {a : Arm}
    (hfront : frontKind c.marks = some (.keyword .ifThen)) (h : Yields (arm expr block) c a d) :
    c.here = a.start ∧ Passed c (armPieces a) d := by
  obtain ⟨start, c₁, hstart, h⟩ := yields_bind.1 h
  obtain ⟨rfl, rfl⟩ := here_place hstart
  obtain ⟨u, c₂, hu, h⟩ := yields_bind.1 h
  obtain ⟨condition, c₃, hcondition, h⟩ := yields_bind.1 h
  obtain ⟨body, c₄, hbody, h⟩ := yields_bind.1 h
  obtain ⟨rfl, rfl⟩ := yields_pure.1 h
  have hif := advance_passed Mark.eq_keyword hu hfront
  obtain ⟨_, rfl, hpassed⟩ := hexpr hcondition
  obtain ⟨_, rfl, hpassed'⟩ := hblock hbody
  exact ⟨rfl, hif.cons (hpassed.trans hpassed')⟩

/-- An arm with the other branch behind it and a semicolon or none is a branching statement. -/
theorem branch_of_arm {a : Arm} {no : Option Block} {ps : List Piece} {b : Bool} {e f : Cursor}
    (hstart : c.here = a.start) (harm : Passed c (armPieces a) e) (hlaid : LaidElse no ps)
    (hno : Passed e ps f) (hb : Yields (accept (.symbol .semicolon)) f b d) :
    Passed c [part (.stmt (.branch (a.start.join d.last) a.condition a.body no))] d := by
  have hback := hno.trans (accept_passed Mark.eq_symbol hb)
  exact (harm.trans hback).spanned (.branch hlaid) (by rw [hstart]; rfl)

theorem nextArm_passed (hexpr : PassesExpr expr) (hblock : PassesBlock block) {o : Option Arm}
    (h : Yields (nextArm expr block) c o d) :
    (o = none ∧ c = d) ∨ ∃ a e, o = some a ∧ Passed c [keyword .otherwise] e ∧
      e.here = a.start ∧ Passed e (armPieces a) d := by
  obtain ⟨b, c₁, hb, h⟩ := yields_bind.1 h
  obtain ⟨rfl, rfl⟩ := at_yields hb
  obtain ⟨k, c₂, hk, h⟩ := yields_bind.1 h
  obtain ⟨rfl, rfl⟩ := peekAt_yields hk
  split at h
  · rename_i hfront
    obtain ⟨hfirst, hsecond⟩ := (Bool.and_eq_true _ _).mp hfront
    obtain ⟨u, c₃, hu, h⟩ := yields_bind.1 h
    obtain ⟨a, c₄, ha, h⟩ := yields_bind.1 h
    obtain ⟨rfl, rfl⟩ := yields_pure.1 h
    have hif : frontKind c₃.marks = some (.keyword .ifThen) := by
      rw [← eq_of_beq hsecond, (advance_keyword hu (eq_of_beq hfirst)).marks, frontKind,
        List.head?_eq_getElem?]
      rfl
    obtain ⟨hstart, hpassed⟩ := arm_passed hexpr hblock hif ha
    exact .inr ⟨a, c₃, rfl, advance_passed Mark.eq_keyword hu (eq_of_beq hfirst), hstart, hpassed⟩
  · obtain ⟨rfl, rfl⟩ := yields_pure.1 h
    exact .inl ⟨rfl, rfl⟩

/-- Arms that are read one after the other and then put into one another are the other branch, each
of them with the ones behind it inside. -/
theorem repeated_nextArm_passed (hexpr : PassesExpr expr) (hblock : PassesBlock block)
    {arms : List Arm} (h : Repeated (nextArm expr block) c arms d) :
    ∀ {no inner : Option Block} {ps : List Piece} {e f : Cursor}, LaidElse no ps →
      Passed d ps e → Yields (nestArms no arms) e inner f →
      ∃ qs, LaidElse inner qs ∧ Passed c qs f := by
  induction h with
  | stop h =>
    intro no inner ps e f hlaid hno hnest
    obtain ⟨-, rfl⟩ | ⟨_, _, ⟨⟩, -⟩ := nextArm_passed hexpr hblock h
    obtain ⟨rfl, rfl⟩ := yields_pure.1 hnest
    exact ⟨ps, hlaid, hno⟩
  | @more c e₀ d a arms h _ ih =>
    intro no inner ps e f hlaid hno hnest
    obtain ⟨⟨⟩, -⟩ | ⟨_, c', ⟨⟩, helse, hstart, harm⟩ := nextArm_passed hexpr hblock h
    obtain ⟨inner', c₁, hinner, h⟩ := yields_bind.1 hnest
    obtain ⟨b, c₂, hb, h⟩ := yields_bind.1 h
    obtain ⟨rfl, rfl⟩ := spanned_place
      (f := fun span => some (Block.mk [.branch span a.condition a.body inner'] none)) h
    obtain ⟨qs, hqs, hpassed⟩ := ih hlaid hno hinner
    exact ⟨_, .arm, helse.cons (branch_of_arm hstart harm hqs hpassed hb)⟩

theorem branch_passed (hexpr : PassesExpr expr) (hblock : PassesBlock block)
    (hfront : frontKind c.marks = some (.keyword .ifThen)) {s : Stmt}
    (h : Yields (branch expr block) c s d) : Passed c [part (.stmt s)] d := by
  have hshortens : Shortens (nextArm expr block) := by
    intro c x d h
    obtain ⟨⟨⟩, -⟩ | ⟨_, _, -, helse, -, harm⟩ := nextArm_passed hexpr hblock h
    exact (helse.cons harm).length_lt (by simp)
  obtain ⟨a, c₁, ha, h⟩ := yields_bind.1 h
  obtain ⟨arms, c₂, harms, h⟩ := yields_bind.1 h
  obtain ⟨hstart, harm⟩ := arm_passed hexpr hblock hfront ha
  have hend : ∀ {no : Option Block} {ps : List Piece} {e : Cursor}, LaidElse no ps →
      Passed c₂ ps e → Yields (do
        let no ← nestArms no arms
        let _ ← accept (.symbol .semicolon)
        return Stmt.branch (← spanFrom a.start) a.condition a.body no) e s d →
      Passed c [part (.stmt s)] d := by
    intro no ps e hlaid hno h
    obtain ⟨inner, c₄, hinner, h⟩ := yields_bind.1 h
    obtain ⟨b, c₅, hb, h⟩ := yields_bind.1 h
    obtain ⟨rfl, rfl⟩ := spanned_place h
    obtain ⟨qs, hqs, hpassed⟩ :=
      repeated_nextArm_passed hexpr hblock (many_yields hshortens harms) hlaid hno hinner
    exact branch_of_arm hstart harm hqs hpassed hb
  obtain ⟨b, c₃, hb, h⟩ := yields_bind.1 h
  have helse := accept_passed Mark.eq_keyword hb
  cases b with
  | true =>
    obtain ⟨no, c₄, hno, h⟩ := yields_bind.1 h
    obtain ⟨body, hbody, rfl⟩ := yields_map.1 hno
    obtain ⟨_, rfl, hpassed⟩ := hblock hbody
    exact hend .block (helse.trans hpassed) h
  | false =>
    obtain ⟨no, c₄, hno, h⟩ := yields_bind.1 h
    obtain ⟨rfl, rfl⟩ := yields_pure.1 hno
    exact hend .absent helse h

def stmtPieces (s : Stmt) : List Piece := [part (.stmt s)]

theorem stmt?_passed (hexpr : PassesExpr expr) (hblock : PassesBlock block) :
    PassesStep (stmt? expr block) fun s ps => ps = stmtPieces s := by
  intro c o d h
  -- A statement is read after its first token has been seen.
  have hsome : ∀ {p : Parser Stmt}, (∀ {s : Stmt}, Yields p c s d → Passed c [part (.stmt s)] d) →
      Yields (some <$> p) c o d →
      ∃ s ps, o = some s ∧ ps = stmtPieces s ∧ ps ≠ [] ∧ Passed c ps d := by
    intro p hp h
    obtain ⟨s, hs, rfl⟩ := yields_map.1 h
    exact ⟨s, _, rfl, rfl, nofun, hp hs⟩
  obtain ⟨k, c₁, hk, h⟩ := yields_bind.1 h
  obtain ⟨rfl, hfront⟩ := peek_yields hk
  split at h
  case h_1 => exact .inr (hsome (declaration_passed hexpr hfront) h)
  case h_2 => exact .inr (hsome (loop_passed hexpr hblock hfront) h)
  case h_3 => exact .inr (hsome (branch_passed hexpr hblock hfront) h)
  case h_4 =>
    obtain ⟨start, c₂, hstart, h⟩ := yields_bind.1 h
    obtain ⟨rfl, rfl⟩ := here_place hstart
    obtain ⟨u, c₃, hu, h⟩ := yields_bind.1 h
    obtain ⟨u', c₄, hu', h⟩ := yields_bind.1 h
    obtain ⟨rfl, rfl⟩ := spanned_place (f := fun span => some (Stmt.leave span)) h
    obtain ⟨ended, hend⟩ := semicolon_passed hu'
    have hbreak := (advance_passed Mark.eq_keyword hu hfront).cons hend
    exact .inr ⟨_, _, rfl, rfl, nofun, hbreak.spanned .leave rfl⟩
  case h_5 =>
    obtain ⟨k, c₂, hk, h⟩ := yields_bind.1 h
    obtain ⟨rfl, -⟩ := peekAt_yields hk
    split at h
    · exact .inr (hsome (assignment_passed hexpr) h)
    · exact .inr (hsome (assignment_passed hexpr) h)
    · obtain ⟨rfl, rfl⟩ := yields_pure.1 h
      exact .inl ⟨rfl, .refl _⟩
  case h_6 =>
    obtain ⟨rfl, rfl⟩ := yields_pure.1 h
    exact .inl ⟨rfl, .refl _⟩

theorem blockPieces_mk (ss : List Stmt) (result : Option Expr) :
    blockPieces (.mk ss result) = symbol .leftBrace ::
      (ss.flatMap stmtPieces ++ (result.toList.flatMap exprPieces ++ [symbol .rightBrace])) := by
  have hparts : ∀ {α : Type} (f : α → Construct) (xs : List α),
      (xs.map f).map part = xs.flatMap fun x => [part (f x)] := by
    intro α f xs
    rw [List.map_map]
    exact List.map_eq_flatMap
  rw [blockPieces, Construct.ofBlock, List.map_append, hparts, hparts, List.append_assoc]
  rfl

theorem blockBody_passed (hexpr : PassesExpr expr) (hblock : PassesBlock block) {b : Block}
    (h : Yields (blockBody expr block) c b d) : Passed c (blockPieces b) d := by
  obtain ⟨t, c₁, ht, h⟩ := yields_bind.1 h
  obtain ⟨ss, c₂, hss, h⟩ := yields_bind.1 h
  have hopen := expect_passed Mark.eq_symbol ht
  have hstmts := (stmt?_passed hexpr hblock).repeated_flatMap hss
  have hend : ∀ (result : Option Expr) {e : Cursor},
      Passed c₂ (result.toList.flatMap exprPieces) e → Yields (do
        let _ ← expect (.symbol .rightBrace)
        return Block.mk ss result) e b d → Passed c (blockPieces b) d := by
    intro result e hresult h
    obtain ⟨t', c₅, ht', h⟩ := yields_bind.1 h
    obtain ⟨rfl, rfl⟩ := yields_pure.1 h
    rw [blockPieces_mk]
    exact hopen.cons (hstmts.trans (hresult.trans (expect_passed Mark.eq_symbol ht')))
  obtain ⟨atEnd, c₃, hatEnd, h⟩ := yields_bind.1 h
  obtain ⟨rfl, -⟩ := at_yields hatEnd
  split at h
  · obtain ⟨result, c₄, hresult, h⟩ := yields_bind.1 h
    obtain ⟨rfl, rfl⟩ := yields_pure.1 hresult
    exact hend none (.refl _) h
  · obtain ⟨result, c₄, hresult, h⟩ := yields_bind.1 h
    obtain ⟨e, he, rfl⟩ := yields_map.1 hresult
    obtain ⟨_, rfl, hvalue⟩ := hexpr he
    exact hend (some e) hvalue h

end

/-- Expressions and blocks pass their tokens, however deep they are nested. -/
theorem expr_block_passed (n : Nat) : PassesExpr (expr n) ∧ PassesBlock (block n) := by
  induction n with
  | zero => exact ⟨nofun, nofun⟩
  | succ n ih =>
    obtain ⟨hexpr, hblock⟩ := ih
    constructor
    · refine comparison_passed (fun c e d h => ?_) hexpr
      obtain ⟨c', d', hatom, hpassed⟩ := nested_passed h
      exact ⟨_, rfl, hpassed (atom_passed hexpr hblock hatom)⟩
    · intro c b d h
      obtain ⟨c', d', hbody, hpassed⟩ := nested_passed h
      exact ⟨_, rfl, hpassed (blockBody_passed hexpr hblock hbody)⟩

end TextGrammar.Source.Parser
