import TextGrammar.Proofs.Source.Alike

/-! # Calls of the parser

The parsers of expressions, blocks and patterns call one another. A call for an expression or for
a pattern is made behind a token that the caller has read, and at least one level deeper; a call for
a block may also be made in front of the first token, and the block then reads that one. -/

namespace TextGrammar.Source.Parser
open Token (Kind)
variable {c : Cursor} {g : Nat}

section
variable {expr expr' : Parser Expr} {block block' : Parser Block}

theorem agree_recordField (hexpr : Agree c 1 g expr expr') :
    Agree c 1 g (recordField expr) (recordField expr') :=
  move_identifier.agree.bind fun _ => move_expect.agree.bind fun _ => hexpr.bind fun _ =>
    agree_pure

theorem seen_startsRecord {k : Option Kind} :
    Alike (Seen c g k) startsRecord startsRecord fun _ => Seen c g k :=
  (seen_peekAt 1).bind fun _ => (seen_peekAt 2).bind fun _ => .pure fun _ hd => hd

/-- An atom is told by its first token, which is read before anything but a block is called for. -/
theorem move_atom (hexpr : Agree c 1 g expr expr') (hblock : Move c g block block') :
    Move c g (atom expr block) (atom expr' block') := by
  refine agree_here.bind fun start => alike_peek.bind fun k => ?_
  split
  · exact (Seen.alike move_expect).bind fun _ => agree_number
  · exact (Seen.alike move_string).bind fun _ => agree_spanned
  · exact move_seen.bind fun _ => agree_spanned
  · exact move_seen.bind fun _ => agree_spanned
  · exact move_seen.bind fun _ => agree_spanned
  · exact (Seen.alike move_identifier).bind fun _ => agree_accept.bind fun _ =>
      .ite ((agree_listUntil hexpr).bind fun _ => agree_spanned) agree_spanned
  · exact move_seen.bind fun _ => hexpr.bind fun _ => move_expect.agree.bind fun _ => agree_spanned
  · exact move_seen.bind fun _ => (agree_listUntil hexpr).bind fun _ => agree_spanned
  · exact seen_startsRecord.bind fun _ => .ite (move_seen.bind fun _ =>
      (agree_listUntil (agree_recordField hexpr)).bind fun _ => agree_spanned)
      ((Seen.alike hblock).bind fun _ => agree_spanned)
  · exact (seen_peekAt 1).bind fun _ => .ite (move_seen.bind fun _ =>
      move_expect.agree.bind fun _ => agree_number) (.of_faults fun _ _ _ => nofun)
  · exact .of_faults fun _ _ _ => nofun

theorem move_chain (operator? : Option Kind → Option Operator) {operand operand' : Parser Expr}
    (h : Move c g operand operand') :
    Move c g (chain operator? operand) (chain operator? operand') := by
  have hstep : Agree c 1 g (link? operator? operand) (link? operator? operand') := by
    refine agree_peek.bind fun _ => ?_
    split
    · exact agree_advance.bind fun _ => agree_descend.bind fun _ => h.agree.bind fun _ =>
        agree_pure
    · exact agree_pure
  exact alike_keepDepth (h.bind fun _ => (agree_many hstep).bind fun _ => agree_pure)

/-- An index is called for behind its bracket and one level deeper. -/
theorem move_postfixed {atom atom' : Parser Expr} (hatom : Move c g atom atom')
    (hexpr : Agree c 1 (g + 1) expr expr') :
    Move c g (postfixed atom expr) (postfixed atom' expr') := by
  have hdeeper : ∀ {α : Type} {p q : Parser α}, Agree c 1 (g + 1) p q →
      Alike (Reached c 1 (g + 1)) p q fun _ => Reached c 1 g :=
    fun h => h.mono (fun _ hd => hd) fun _ _ hd => hd.shallower
  have hfield : Agree c 1 g (do
      if ← at? (.symbol .dot) then
        descend
        advance
        let name ← identifier
        return some (Suffix.field name (← last))
      else return none) (do
      if ← at? (.symbol .dot) then
        descend
        advance
        let name ← identifier
        return some (Suffix.field name (← last))
      else return none) :=
    agree_at.bind fun _ => .ite (agree_descend.bind fun _ => agree_advance.bind fun _ =>
      move_identifier.agree.bind fun _ => agree_last.bind fun _ => agree_pure) agree_pure
  have hstep : Agree c 1 g (suffix? expr) (suffix? expr') :=
    agree_at.bind fun _ => .ite (alike_descend.bind fun _ => agree_advance.bind fun _ =>
      hexpr.bind fun _ => move_expect.agree.bind fun _ => hdeeper (agree_last.bind fun _ =>
        agree_pure)) hfield
  exact alike_keepDepth (hatom.bind fun _ => (agree_many hstep).bind fun _ => agree_pure)

theorem move_comparison {atom atom' : Parser Expr} (hatom : Move c g atom atom')
    (hexpr : Agree c 1 (g + 1) expr expr') :
    Move c g (comparison atom expr) (comparison atom' expr') := by
  have hsum := move_chain sum? (move_chain product? (move_postfixed hatom hexpr))
  refine hsum.bind fun _ => agree_peek.bind fun _ => ?_
  split
  · exact agree_advance.bind fun _ => hsum.agree.bind fun _ => agree_pure
  · exact agree_pure

theorem agree_semicolon : Agree c 1 g semicolon semicolon :=
  agree_accept.bind fun _ => .ite agree_pure (agree_at.bind fun _ =>
    .ite agree_pure (agree_unexpected _))

variable (hexpr : Agree c 1 g expr expr') (hblock : Agree c 1 g block block')
include hexpr

theorem agree_declaration : Agree c 1 g (declaration expr) (declaration expr') :=
  agree_here.bind fun _ => agree_advance.bind fun _ => agree_accept.bind fun _ =>
    move_identifier.agree.bind fun _ => move_expect.agree.bind fun _ => hexpr.bind fun _ =>
      agree_semicolon.bind fun _ => agree_spanned

theorem agree_assignment : Agree c 1 g (assignment expr) (assignment expr') := by
  refine agree_here.bind fun start => move_identifier.agree.bind fun name =>
    agree_accept.bind fun _ => ?_
  have hend : ∀ mode : AssignMode, Agree c 1 g (do
      let value ← expr
      semicolon
      return Stmt.assign (← spanFrom start) name mode value) (do
      let value ← expr'
      semicolon
      return Stmt.assign (← spanFrom start) name mode value) :=
    fun mode => hexpr.bind fun _ => agree_semicolon.bind fun _ => agree_spanned
  exact .ite (agree_pure.bind hend) (move_expect.agree.bind fun _ => agree_pure.bind hend)

include hblock

theorem agree_arm : Agree c 1 g (arm expr block) (arm expr' block') :=
  agree_here.bind fun _ => agree_advance.bind fun _ => hexpr.bind fun _ => hblock.bind fun _ =>
    agree_pure

theorem agree_branch : Agree c 1 g (branch expr block) (branch expr' block') := by
  have hstep : Agree c 1 g (nextArm expr block) (nextArm expr' block') :=
    agree_at.bind fun _ => (agree_peekAt 1).bind fun _ =>
      .ite (agree_advance.bind fun _ => (agree_arm hexpr hblock).bind fun _ => agree_pure)
        agree_pure
  have hnest : ∀ no arms, Agree c 1 g (nestArms no arms) (nestArms no arms) := by
    intro no arms
    induction arms with
    | nil => exact agree_pure
    | cons a arms ih =>
      exact ih.bind fun _ => agree_accept.bind fun _ => agree_spanned
  refine (agree_arm hexpr hblock).bind fun first => (agree_many hstep).bind fun arms =>
    agree_accept.bind fun _ => ?_
  have hend : ∀ no : Option Block, Agree c 1 g (do
      let no ← nestArms no arms
      let _ ← accept (.symbol .semicolon)
      return Stmt.branch (← spanFrom first.start) first.condition first.body no) (do
      let no ← nestArms no arms
      let _ ← accept (.symbol .semicolon)
      return Stmt.branch (← spanFrom first.start) first.condition first.body no) :=
    fun no => (hnest no arms).bind fun _ => agree_accept.bind fun _ => agree_spanned
  exact .ite ((hblock.map).bind hend) (agree_pure.bind hend)

theorem agree_loop : Agree c 1 g (loop expr block) (loop expr' block') :=
  agree_here.bind fun _ => agree_advance.bind fun _ => move_identifier.agree.bind fun _ =>
    move_expect.agree.bind fun _ => hexpr.bind fun _ => move_expect.agree.bind fun _ => hexpr.bind
      fun _ => hblock.bind fun _ => agree_accept.bind fun _ => agree_spanned

theorem agree_stmt : Agree c 1 g (stmt? expr block) (stmt? expr' block') := by
  refine agree_peek.bind fun _ => ?_
  split
  · exact (agree_declaration hexpr).map
  · exact (agree_loop hexpr hblock).map
  · exact (agree_branch hexpr hblock).map
  · exact agree_here.bind fun _ => agree_advance.bind fun _ => agree_semicolon.bind fun _ =>
      agree_spanned
  · refine (agree_peekAt 1).bind fun _ => ?_
    split
    · exact (agree_assignment hexpr).map
    · exact (agree_assignment hexpr).map
    · exact agree_pure
  · exact agree_pure

/-- A block reads its brace before it calls for anything. -/
theorem move_blockBody : Move c g (blockBody expr block) (blockBody expr' block') := by
  refine move_expect.bind fun _ => (agree_many (agree_stmt hexpr hblock)).bind fun stmts =>
    agree_at.bind fun _ => ?_
  have hend : ∀ result : Option Expr, Agree c 1 g (do
      let _ ← expect (.symbol .rightBrace)
      return Block.mk stmts result) (do
      let _ ← expect (.symbol .rightBrace)
      return Block.mk stmts result) :=
    fun result => move_expect.agree.bind fun _ => agree_pure
  exact .ite (agree_pure.bind hend) ((hexpr.map).bind hend)

end

section
variable {unary unary' : Parser Pattern} {expr expr' : Parser Expr}

theorem agree_choice (h : Agree c 1 g unary unary') :
    Agree c 1 g (choice unary) (choice unary') := by
  have hstep : Agree c 1 g (alternative? unary) (alternative? unary') :=
    agree_accept.bind fun _ => .ite (h.map) agree_pure
  exact h.bind fun _ => (agree_many hstep).bind fun _ => .ite agree_pure
    (agree_spanned)

theorem agree_startsLabel : Agree c 1 g startsLabel startsLabel := by
  refine agree_at.bind fun _ => .ite ((agree_peekAt 1).bind fun _ => ?_) agree_pure
  split
  · exact (agree_peekAt 2).bind fun _ => agree_pure
  · exact agree_pure
  · exact agree_pure

theorem agree_field (h : Agree c 1 g unary unary') : Agree c 1 g (field unary) (field unary') :=
  agree_startsLabel.bind fun _ => .ite (move_identifier.agree.bind fun _ =>
    agree_advance.bind fun _ => (agree_choice h).bind fun _ => agree_pure)
    ((agree_choice h).bind fun _ => agree_pure)

theorem move_primary (h : Agree c 1 g unary unary') (hexpr : Agree c 1 g expr expr') :
    Move c g (primary unary expr) (primary unary' expr') := by
  refine agree_here.bind fun start => alike_peek.bind fun _ => ?_
  split
  · exact (Seen.alike move_identifier).bind fun _ => agree_spanned
  · exact (Seen.alike move_string).bind fun _ => agree_spanned
  · exact move_seen.bind fun _ => (agree_choice h).bind fun _ =>
      move_expect.agree.bind fun _ => agree_spanned
  · exact move_seen.bind fun _ => (agree_listUntil (agree_field h)).bind fun _ =>
      agree_accept.bind fun _ => .ite ((hexpr.map).bind fun _ => agree_spanned)
        (agree_pure.bind fun _ => agree_spanned)
  · exact .of_faults fun _ _ _ => nofun

/-- A pattern reads a token before it calls for anything. -/
theorem move_unaryBody (h : Agree c 1 g unary unary') (hexpr : Agree c 1 g expr expr') :
    Move c g (unaryBody unary expr) (unaryBody unary' expr') := by
  refine agree_here.bind fun start => move_accept.bind fun b => ?_
  cases b with
  | true => exact h.bind fun _ => agree_spanned
  | false =>
    refine move_accept.bind fun b => ?_
    cases b with
    | true => exact h.bind fun _ => agree_spanned
    | false =>
      exact (move_primary h hexpr).bind fun _ => agree_at.bind fun _ =>
        (agree_peekAt 1).bind fun _ => .ite (agree_advance.bind fun _ =>
          move_string.agree.bind fun _ => agree_spanned) agree_pure

end

end TextGrammar.Source.Parser
