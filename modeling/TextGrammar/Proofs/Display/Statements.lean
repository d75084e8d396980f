import TextGrammar.Proofs.Display.Operators

/-! # Statements read back

A statement is known by its first word, an assignment by its first two. The value of a block
starts like no statement does. -/

namespace TextGrammar.Source.Parser
open Token (Word Kind)
variable {ws mid more rest : List Word} {t₁ t₂ t₃ t₄ : List Char} {expr : Parser Expr}
  {block : Parser Block} {P : Expr → Prop}

theorem reads_semicolon : Reads semicolon ((.symbol .semicolon, t₁) :: ws) ws fun _ => True := by
  refine reads_accept.bind ?_
  rintro _ rfl
  exact .pure trivial

theorem steps_declaration {name : String}
    (hvalue : Reads expr ws ((.symbol .semicolon, t₁) :: rest) P) :
    Steps (stmt? expr block)
      ((.keyword .letBinding, t₂) :: (.keyword .mutable, t₃) :: (.identifier, name.toList) ::
        (.symbol .assign, t₄) :: ws) rest fun s =>
      ∃ span n value, s = .bind span n true value ∧ n.text = name ∧ P value := by
  refine reads_peek.bind ?_
  rintro _ rfl
  refine steps_some (reads_here.bind fun start _ => reads_advance.bind fun _ _ => .length_lt ?_)
  refine reads_accept.bind ?_
  rintro _ rfl
  refine (reads_name name).bind fun n hn => reads_expect.bind fun _ _ => ?_
  refine hvalue.bind fun value hP => reads_semicolon.bind fun _ _ => ?_
  exact (reads_spanFrom start).bind fun span _ => .pure ⟨span, n, value, rfl, hn, hP⟩

def assignKind : AssignMode → Kind
  | .set => .symbol .assign
  | .append => .symbol .plusAssign

theorem words_assignMode (mode : AssignMode) (cs : List Char) :
    Token.words (mode.symbol.toList ++ ' ' :: cs) =
      (assignKind mode, mode.symbol.toList) :: Token.words cs := by
  cases mode
  · exact Token.words_assign cs
  · exact (Token.words_plusAssign _).trans (congrArg _ (Token.words_space cs))

theorem steps_assignment {name : String} {mode : AssignMode}
    (hvalue : Reads expr ws ((.symbol .semicolon, t₁) :: rest) P) :
    Steps (stmt? expr block) ((.identifier, name.toList) :: (assignKind mode, t₂) :: ws) rest
      fun s => ∃ span n value, s = .assign span n mode value ∧ n.text = name ∧ P value := by
  have hstmt : Steps (some <$> assignment expr)
      ((.identifier, name.toList) :: (assignKind mode, t₂) :: ws) rest
      fun s => ∃ span n value, s = .assign span n mode value ∧ n.text = name ∧ P value := by
    refine steps_some (reads_here.bind fun start _ => (reads_name name).bind fun n hn =>
      .length_lt ?_)
    have hend : Reads (do
        let value ← expr
        semicolon
        return Stmt.assign (← spanFrom start) n mode value) ws rest
        fun s => ∃ span n value, s = .assign span n mode value ∧ n.text = name ∧ P value := by
      refine hvalue.bind fun value hP => reads_semicolon.bind fun _ _ => ?_
      exact (reads_spanFrom start).bind fun span _ => .pure ⟨span, n, value, rfl, hn, hP⟩
    cases mode with
    | set =>
      refine (reads_accept_other (by simp [assignKind])).bind ?_
      rintro _ rfl
      exact reads_expect.bind fun _ _ => .pure_bind hend
    | append =>
      refine reads_accept.bind ?_
      rintro _ rfl
      exact .pure_bind hend
  refine reads_peek.bind ?_
  rintro _ rfl
  refine (reads_peekAt 1).bind ?_
  rintro _ rfl
  cases mode with
  | set => exact hstmt
  | append => exact hstmt

theorem steps_leave :
    Steps (stmt? expr block) ((.keyword .breakLoop, t₁) :: (.symbol .semicolon, t₂) :: ws) ws
      fun s => ∃ span, s = .leave span := by
  refine reads_peek.bind ?_
  rintro _ rfl
  refine reads_here.bind fun start _ => reads_advance.bind fun _ _ =>
    reads_semicolon.bind fun _ _ => (reads_spanFrom start).bind fun span _ => ?_
  rw [List.length_cons, List.length_cons]
  exact .pure ⟨_, rfl, ⟨span, rfl⟩, by omega⟩

theorem steps_loop {name : String} {Q : Expr → Prop} {R : Block → Prop}
    (hstart : Reads expr ws ((.symbol .dotDot, t₁) :: mid) P) (hstop : Reads expr mid more Q)
    (hbody : Reads block more rest R) (hrest : headKind rest ≠ some (.symbol .semicolon)) :
    Steps (stmt? expr block)
      ((.keyword .forLoop, t₂) :: (.identifier, name.toList) :: (.keyword .inRange, t₃) :: ws) rest
      fun s => ∃ span n start stop body, s = .loop span n start stop body ∧
        n.text = name ∧ P start ∧ Q stop ∧ R body := by
  refine reads_peek.bind ?_
  rintro _ rfl
  refine steps_some (reads_here.bind fun first _ => reads_advance.bind fun _ _ => .length_lt ?_)
  refine (reads_name name).bind fun n hn => reads_expect.bind fun _ _ => ?_
  refine hstart.bind fun start hP => reads_expect.bind fun _ _ => ?_
  refine hstop.bind fun stop hQ => hbody.bind fun body hR => ?_
  refine (reads_accept_other hrest).bind fun _ _ => ?_
  exact (reads_spanFrom first).bind fun span _ =>
    .pure ⟨span, n, start, stop, body, rfl, hn, hP, hQ, hR⟩

theorem reads_arm {Q : Block → Prop} (hcondition : Reads expr ws mid P)
    (hyes : Reads block mid rest Q) :
    Reads (arm expr block) ((.keyword .ifThen, t₁) :: ws) rest fun a =>
      (P a.condition ∧ Q a.body) ∧
        rest.length < ((.keyword .ifThen, t₁) :: ws : List Word).length := by
  refine reads_here.bind fun start _ => reads_advance.bind fun _ _ => .length_lt ?_
  refine hcondition.bind fun condition hP => hyes.bind fun yes hQ => ?_
  exact .pure ⟨hP, hQ⟩

theorem repeats_noArm (h : headKind ws ≠ some (.keyword .otherwise) ∨
      headKind ws.tail ≠ some (.keyword .ifThen)) :
    Repeats (nextArm expr block) ws ws fun arms => arms = [] := by
  refine .stop (reads_at.bind ?_) rfl
  rintro _ rfl
  refine (reads_peekAt 1).bind ?_
  rintro _ rfl
  have hno : (headKind ws == some (.keyword .otherwise) &&
      ws[1]?.map Prod.fst == some (.keyword .ifThen)) = false := by
    rw [Bool.and_eq_false_iff, beq_eq_false_iff_ne, beq_eq_false_iff_ne]
    refine h.imp_right fun h => ?_
    rw [← List.head?_tail]
    exact h
  rw [hno]
  exact .pure rfl

section
variable {Q : Block → Prop}

theorem steps_branch (hcondition : Reads expr ws mid P) (hyes : Reads block mid rest Q)
    (hrest : headKind rest ≠ some (.symbol .semicolon))
    (hrest' : headKind rest ≠ some (.keyword .otherwise)) :
    Steps (stmt? expr block) ((.keyword .ifThen, t₁) :: ws) rest
      fun s => ∃ span condition yes, s = .branch span condition yes none ∧
        P condition ∧ Q yes := by
  refine reads_peek.bind ?_
  rintro _ rfl
  refine steps_some ((reads_arm hcondition hyes).bind ?_)
  rintro a ⟨⟨hP, hQ⟩, hlt⟩
  refine (reads_many (repeats_noArm (.inl hrest'))).bind ?_
  rintro _ rfl
  refine (reads_accept_other hrest').bind ?_
  rintro _ rfl
  refine .pure_bind (.pure_bind ((reads_accept_other hrest).bind fun _ _ => ?_))
  exact (reads_spanFrom a.start).bind fun span _ => .pure ⟨⟨span, _, _, rfl, hP, hQ⟩, hlt⟩

theorem steps_branchElse {R : Block → Prop} (hcondition : Reads expr ws mid P)
    (hyes : Reads block mid ((.keyword .otherwise, t₁) :: more) Q) (hno : Reads block more rest R)
    (hmore : headKind more ≠ some (.keyword .ifThen))
    (hrest : headKind rest ≠ some (.symbol .semicolon)) :
    Steps (stmt? expr block) ((.keyword .ifThen, t₂) :: ws) rest
      fun s => ∃ span condition yes no, s = .branch span condition yes (some no) ∧
        P condition ∧ Q yes ∧ R no := by
  have hnone : Repeats (nextArm expr block) ((.keyword .otherwise, t₁) :: more)
      ((.keyword .otherwise, t₁) :: more) fun arms => arms = [] := repeats_noArm (.inr hmore)
  refine reads_peek.bind ?_
  rintro _ rfl
  refine steps_some ((reads_arm hcondition hyes).bind ?_)
  rintro a ⟨⟨hP, hQ⟩, hlt⟩
  refine (reads_many hnone).bind ?_
  rintro _ rfl
  refine reads_accept.bind ?_
  rintro _ rfl
  refine (hno.length_le.map (R := fun o => ∃ no, o = some no ∧ R no ∧ rest.length ≤ more.length)
    fun no hR => ⟨no, rfl, hR⟩).bind ?_
  rintro _ ⟨no, rfl, hR, hle⟩
  refine .pure_bind ((reads_accept_other hrest).bind fun _ _ => ?_)
  rw [List.length_cons] at hlt
  exact (reads_spanFrom a.start).bind fun span _ =>
    .pure ⟨⟨span, _, _, no, rfl, hP, hQ, hR⟩, by omega⟩

end

def openers : List Kind :=
  [.identifier, .string, .number, .keyword .trueValue, .keyword .falseValue, .keyword .nullValue,
    .symbol .leftParen, .symbol .leftBracket, .symbol .leftBrace, .symbol .minus]

def namers : List (Option Kind) :=
  [some (.symbol .assign), some (.symbol .plusAssign), some (.symbol .colon)]

theorem Ends.not_namer {ws : List Word} (h : Ends ws) : headKind ws ∉ namers := by
  obtain ⟨kind, hkind, hws⟩ := h
  have hall : ∀ k ∈ enders, some k ∉ namers := by decide
  rw [hws]
  exact hall kind hkind

/-- Words start like an expression does: a statement or a field of a record starts otherwise. -/
def Opens (ws : List Word) : Prop :=
  (∃ kind ∈ openers, headKind ws = some kind) ∧
    (headKind ws = some .identifier → headKind ws.tail ∉ namers)

theorem opens_cons {kind : Kind} (h : kind ∈ openers) (hname : kind ≠ .identifier)
    (text : List Char) (ws : List Word) : Opens ((kind, text) :: ws) :=
  ⟨⟨kind, h, rfl⟩, fun h => absurd (Option.some.inj h) hname⟩

theorem opens_name {ws : List Word} (h : headKind ws ∉ namers) (name : List Char) :
    Opens ((.identifier, name) :: ws) :=
  ⟨⟨.identifier, by decide, rfl⟩, fun _ => h⟩

theorem Opens.ne {ws : List Word} {kind : Kind} (h : Opens ws) (hkind : kind ∉ openers) :
    headKind ws ≠ some kind := by
  obtain ⟨⟨other, hother, hws⟩, -⟩ := h
  rw [hws]
  rintro ⟨⟩
  exact hkind hother

/-- The value of a block is no statement. -/
theorem reads_noStmt (h : Opens ws ∨ headKind ws = some (.symbol .rightBrace)) :
    Reads (stmt? expr block) ws ws fun o => o = none := by
  refine reads_peek.bind ?_
  rintro _ rfl
  rcases h with ⟨⟨kind, hkind, hws⟩, hname⟩ | hws
  · rw [hws]
    cases kind with
    | identifier =>
      refine (reads_peekAt 1).bind ?_
      rintro _ rfl
      have htail : ws[1]?.map Prod.fst ∉ namers := by
        rw [← List.head?_tail]
        exact hname hws
      split
      · exact absurd (by rw [‹ws[1]?.map Prod.fst = _›]; decide) htail
      · exact absurd (by rw [‹ws[1]?.map Prod.fst = _›]; decide) htail
      · exact .pure rfl
    | keyword k =>
      cases k with
      | letBinding | forLoop | ifThen | breakLoop => exact absurd hkind (by decide)
      | _ => exact .pure rfl
    | _ => exact .pure rfl
  · rw [hws]
    exact .pure rfl

section
variable {Q : List Stmt → Prop}

theorem reads_blockBody
    (hstmts : Repeats (stmt? expr block) ws ((.symbol .rightBrace, t₁) :: rest) Q) :
    Reads (blockBody expr block) ((.symbol .leftBrace, t₂) :: ws) rest
      fun b => ∃ stmts, b = .mk stmts none ∧ Q stmts := by
  refine reads_expect.bind fun _ _ => (reads_many hstmts).bind fun stmts hQ => reads_at.bind ?_
  rintro _ rfl
  exact .pure_bind (reads_expect.bind fun _ _ => .pure ⟨stmts, rfl, hQ⟩)

theorem reads_blockValue (hstmts : Repeats (stmt? expr block) ws mid Q)
    (hvalue : Reads expr mid ((.symbol .rightBrace, t₁) :: rest) P) (hmid : Opens mid) :
    Reads (blockBody expr block) ((.symbol .leftBrace, t₂) :: ws) rest
      fun b => ∃ stmts value, b = .mk stmts (some value) ∧ Q stmts ∧ P value := by
  refine reads_expect.bind fun _ _ => (reads_many hstmts).bind fun stmts hQ => reads_at.bind ?_
  rintro _ rfl
  rw [beq_eq_false_iff_ne.2 (hmid.ne (by decide))]
  refine (hvalue.map (R := fun r => ∃ value, r = some value ∧ P value)
    fun value hP => ⟨value, rfl, hP⟩).bind ?_
  rintro _ ⟨value, rfl, hP⟩
  exact reads_expect.bind fun _ _ => .pure ⟨stmts, value, rfl, hQ, hP⟩

end

end TextGrammar.Source.Parser
