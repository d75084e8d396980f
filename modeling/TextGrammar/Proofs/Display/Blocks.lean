import TextGrammar.Proofs.Display.Expressions

/-! # Blocks read back

The text of every legible statement and block is read as one that writes it. Together with the
expressions they are settled by induction over all parts of an expression. -/

namespace TextGrammar

namespace Stmt
variable (level : Nat) (name : String) (slot : Nat) (cs : List Char)

theorem text_bind (value : Expr) :
    (bind name slot value).text level ++ cs =
      Keyword.letBinding.text.toList ++ ' ' :: (Keyword.mutable.text.toList ++ ' ' ::
        (name.toList ++ ' ' :: '=' :: ' ' :: (value.text level ++ ';' :: cs))) := by
  change "let mut ".toList ++ name.toList ++ " = ".toList ++ value.text level ++ [';'] ++ cs = _
  simp [Keyword.text]

theorem text_assign (mode : AssignMode) (value : Expr) :
    (assign name slot mode value).text level ++ cs =
      name.toList ++ ' ' :: (mode.symbol.toList ++ ' ' :: (value.text level ++ ';' :: cs)) := by
  change name.toList ++ ' ' :: (mode.symbol.toList ++ ' ' :: value.text level) ++ [';'] ++ cs = _
  simp

theorem text_loop (start stop : Expr) (body : Block) :
    (loop name slot start stop body).text level ++ cs =
      Keyword.forLoop.text.toList ++ ' ' :: (name.toList ++ ' ' :: (Keyword.inRange.text.toList ++
        ' ' :: (start.text level ++ '.' :: '.' :: (stop.text level ++ ' ' ::
          (body.text level ++ cs))))) := by
  change "for ".toList ++ name.toList ++ " in ".toList ++ start.text level ++ "..".toList ++
    stop.text level ++ ' ' :: body.text level ++ cs = _
  simp [Keyword.text]

theorem text_branch (condition : Expr) (yes : Block) (no : Option Block) :
    (branch condition yes no).text level ++ cs =
      Keyword.ifThen.text.toList ++ ' ' :: (condition.text level ++ ' ' ::
        (yes.text level ++ (otherwiseText level no ++ cs))) := by
  change "if ".toList ++ condition.text level ++ ' ' :: yes.text level ++
    otherwiseText level no ++ cs = _
  simp [Keyword.text]

theorem text_otherwise (b : Block) :
    otherwiseText level (some b) ++ cs =
      ' ' :: (Keyword.otherwise.text.toList ++ ' ' :: (b.text level ++ cs)) := by
  change " else ".toList ++ b.text level ++ cs = _
  simp [Keyword.text]

theorem text_leave : leave.text level ++ cs = Keyword.breakLoop.text.toList ++ ';' :: cs := by
  change "break;".toList ++ cs = _
  simp [Keyword.text]

end Stmt

namespace Source.Parser
open Token (words Apart)

theorem words_indent (level : Nat) (cs : List Char) : words (indent level ++ cs) = words cs :=
  Token.words_spaces _ cs

theorem headKind_block (b : TextGrammar.Block) (level : Nat) (cs : List Char) :
    headKind (words (b.text level ++ cs)) = some (.symbol .leftBrace) := by
  rcases b with ⟨stmts, result⟩
  rw [TextGrammar.Block.text, List.cons_append, Token.words_leftBrace, headKind_cons]

/-- The body of a loop or of a branch ends the expression before it. -/
theorem ends_block (b : TextGrammar.Block) (level : Nat) (cs : List Char) :
    Ends (words (' ' :: (b.text level ++ cs))) := by
  rw [Token.words_space]
  exact ⟨_, by decide, headKind_block b level cs⟩

theorem ends_semicolon (cs : List Char) : Ends (words (';' :: cs)) := by
  rw [Token.words_semicolon]
  exact ends_cons (by decide) _ _

section
variable {name : String} (hname : Token.isName name.toList = true) (slot : Nat)
  {value : TextGrammar.Expr}
include hname

theorem stmt_bind (hvalue : ReadsExpr value) : ReadsStmt (.bind name slot value) := by
  intro level cs n _ _
  have hread := hvalue level (';' :: cs) n rfl (ends_semicolon cs)
  rw [Token.words_semicolon] at hread
  rw [TextGrammar.Stmt.text_bind, Token.words_keyword .letBinding rfl, Token.words_space,
    Token.words_keyword .mutable rfl, Token.words_space, Token.words_name hname rfl,
    Token.words_space, Token.words_assign]
  refine Reads.weaken (steps_declaration hread) ?_
  rintro _ ⟨_, rfl, ⟨span, n', value', rfl, rfl, hs⟩, hlt⟩
  exact ⟨_, rfl, .bind hs, hlt⟩

theorem stmt_assign (mode : AssignMode) (hvalue : ReadsExpr value) :
    ReadsStmt (.assign name slot mode value) := by
  intro level cs n _ _
  have hread := hvalue level (';' :: cs) n rfl (ends_semicolon cs)
  rw [Token.words_semicolon] at hread
  rw [TextGrammar.Stmt.text_assign, Token.words_name hname rfl, Token.words_space,
    words_assignMode]
  refine Reads.weaken (steps_assignment hread) ?_
  rintro _ ⟨_, rfl, ⟨span, n', value', rfl, rfl, hs⟩, hlt⟩
  exact ⟨_, rfl, .assign hs, hlt⟩

theorem stmt_loop {start stop : TextGrammar.Expr} {body : TextGrammar.Block}
    (hstart : ReadsExpr start) (hstop : ReadsExpr stop) (hbody : ReadsBlock body) :
    ReadsStmt (.loop name slot start stop body) := by
  intro level cs n hrest _
  have hdots :
      Ends (words ('.' :: '.' :: (stop.text level ++ ' ' :: (body.text level ++ cs)))) := by
    rw [Token.words_dotDot]
    exact ends_cons (by decide) _ _
  have hfirst := hstart level _ n rfl hdots
  have hsecond := hstop level _ n rfl (ends_block body level cs)
  rw [Token.words_dotDot] at hfirst
  rw [Token.words_space (body.text level ++ cs)] at hsecond
  rw [TextGrammar.Stmt.text_loop, Token.words_keyword .forLoop rfl, Token.words_space,
    Token.words_name hname rfl, Token.words_space, Token.words_keyword .inRange rfl,
    Token.words_space]
  refine Reads.weaken (steps_loop hfirst hsecond (hbody level cs n) hrest) ?_
  rintro _ ⟨_, rfl, ⟨span, n', start', stop', body', rfl, rfl, hs, ht, hb⟩, hlt⟩
  exact ⟨_, rfl, .loop hs ht hb, hlt⟩

end

theorem stmt_branch {condition : TextGrammar.Expr} {yes : TextGrammar.Block}
    {no : Option TextGrammar.Block} (hcondition : ReadsExpr condition) (hyes : ReadsBlock yes)
    (hno : ∀ b ∈ no, ReadsBlock b) : ReadsStmt (.branch condition yes no) := by
  intro level cs n hrest hrest'
  have hfirst := hcondition level _ n rfl
    (ends_block yes level (TextGrammar.Stmt.otherwiseText level no ++ cs))
  have hsecond := hyes level (TextGrammar.Stmt.otherwiseText level no ++ cs) n
  rw [Token.words_space] at hfirst
  rw [TextGrammar.Stmt.text_branch, Token.words_keyword .ifThen rfl, Token.words_space]
  cases no with
  | none =>
    refine Reads.weaken (steps_branch hfirst hsecond hrest hrest') ?_
    rintro _ ⟨_, rfl, ⟨span, condition', yes', rfl, hs, hb⟩, hlt⟩
    exact ⟨_, rfl, .branch hs hb .none, hlt⟩
  | some b =>
    have hmore : headKind (words (b.text level ++ cs)) ≠ some (.keyword .ifThen) := by
      rw [headKind_block]
      decide
    rw [TextGrammar.Stmt.text_otherwise, Token.words_space,
      Token.words_keyword .otherwise rfl, Token.words_space] at hsecond
    refine Reads.weaken (steps_branchElse hfirst hsecond (hno b rfl level cs n) hmore hrest) ?_
    rintro _ ⟨_, rfl, ⟨span, condition', yes', no', rfl, hs, hb, hc⟩, hlt⟩
    exact ⟨_, rfl, .branch hs hb (.some hc), hlt⟩

theorem stmt_leave : ReadsStmt .leave := by
  intro level cs n _ _
  rw [TextGrammar.Stmt.text_leave, Token.words_keyword .breakLoop rfl, Token.words_semicolon]
  refine Reads.weaken steps_leave ?_
  rintro _ ⟨_, rfl, ⟨span, rfl⟩, hlt⟩
  exact ⟨_, rfl, .leave, hlt⟩

def Continues (ws : List Token.Word) : Prop :=
  headKind ws ≠ some (.symbol .semicolon) ∧ headKind ws ≠ some (.keyword .otherwise)

theorem continues_cons {kind : Token.Kind} (text : List Char) (ws : List Token.Word)
    (h : kind ≠ .symbol .semicolon ∧ kind ≠ .keyword .otherwise) :
    Continues ((kind, text) :: ws) :=
  ⟨fun heq => h.1 (Option.some.inj heq), fun heq => h.2 (Option.some.inj heq)⟩

theorem continues_stmt {t : TextGrammar.Stmt} (ht : t.IsLegible) (level : Nat) (cs : List Char) :
    Continues (words (t.text level ++ cs)) := by
  cases t with
  | bind name slot value =>
    rw [TextGrammar.Stmt.text_bind, Token.words_keyword .letBinding rfl]
    exact continues_cons _ _ (by decide)
  | assign name slot mode value =>
    rw [TextGrammar.Stmt.text_assign, Token.words_name ht.1 rfl]
    exact continues_cons _ _ (by decide)
  | loop name slot start stop body =>
    rw [TextGrammar.Stmt.text_loop, Token.words_keyword .forLoop rfl]
    exact continues_cons _ _ (by decide)
  | branch condition yes no =>
    rw [TextGrammar.Stmt.text_branch, Token.words_keyword .ifThen rfl]
    exact continues_cons _ _ (by decide)
  | leave =>
    rw [TextGrammar.Stmt.text_leave, Token.words_keyword .breakLoop rfl]
    exact continues_cons _ _ (by decide)

theorem words_line (t : TextGrammar.Stmt) (ts : List TextGrammar.Stmt) (level : Nat)
    (tail : List Char) :
    words (TextGrammar.Stmt.lines level (t :: ts) ++ tail) =
      words (t.text level ++ '\n' :: (TextGrammar.Stmt.lines level ts ++ tail)) := by
  rw [TextGrammar.Stmt.lines, List.append_assoc, List.append_assoc, words_indent,
    List.cons_append]

theorem continues_lines {ts : List TextGrammar.Stmt} (hts : TextGrammar.Stmt.AreLegible ts)
    (level : Nat) {tail : List Char} (htail : Continues (words tail)) :
    Continues (words (TextGrammar.Stmt.lines level ts ++ tail)) := by
  cases ts with
  | nil => exact htail
  | cons t ts =>
    rw [words_line]
    exact continues_stmt hts.1 level _

/-- The lines of statements are read as statements, up to the value or the end of their block. -/
theorem repeats_stmts {ts : List TextGrammar.Stmt} (hts : TextGrammar.Stmt.AreLegible ts)
    (hread : ∀ t ∈ ts, ReadsStmt t) (level n : Nat) {tail : List Char}
    (htail : Opens (words tail) ∨ headKind (words tail) = some (.symbol .rightBrace)) :
    Repeats (stmt? (expr n) (block n)) (words (TextGrammar.Stmt.lines level ts ++ tail))
      (words tail) fun ss => WritesStmts ss ts := by
  have hcontinues : Continues (words tail) := by
    rcases htail with htail | htail
    · exact ⟨htail.ne (by decide), htail.ne (by decide)⟩
    · rw [Continues, htail]
      decide
  induction ts with
  | nil => exact .stop (reads_noStmt htail) .nil
  | cons t ts ih =>
    obtain ⟨hsemicolon, hotherwise⟩ := continues_lines hts.2 level hcontinues
    have hfirst := hread t List.mem_cons_self level
      ('\n' :: (TextGrammar.Stmt.lines level ts ++ tail)) n
    rw [Token.words_lineFeed] at hfirst
    rw [words_line]
    exact .more (hfirst hsemicolon hotherwise) fun s hs =>
      (ih hts.2 fun t ht => hread t (List.mem_cons_of_mem _ ht)).weaken fun ss hss => .cons hs hss

theorem reads_blockText {ts : List TextGrammar.Stmt} {result : Option TextGrammar.Expr}
    (hts : TextGrammar.Stmt.AreLegible ts) (hread : ∀ t ∈ ts, ReadsStmt t)
    (hresult : ∀ e ∈ result, e.IsLegible ∧ ReadsExpr e) : ReadsBlock (.mk ts result) := by
  intro level cs n
  cases n with
  | zero => exact .tooDeep
  | succ n =>
    have hclose : words (indent level ++ '\x7d' :: cs) =
        (.symbol .rightBrace, ['\x7d']) :: words cs :=
      (words_indent level _).trans (Token.words_rightBrace cs)
    cases result with
    | none =>
      have htext : (TextGrammar.Block.mk ts none).text level ++ cs =
          '\x7b' :: '\n' :: (TextGrammar.Stmt.lines (level + 1) ts ++
            (indent level ++ '\x7d' :: cs)) := by
        simp [TextGrammar.Block.text, TextGrammar.Block.resultLine]
      have hend : headKind (words (indent level ++ '\x7d' :: cs)) = some (.symbol .rightBrace) := by
        rw [hclose, headKind_cons]
      have hstmts := repeats_stmts hts hread (level + 1) n (.inr hend)
      rw [hclose] at hstmts
      rw [htext, Token.words_leftBrace, Token.words_lineFeed]
      refine reads_nested ((reads_blockBody hstmts).weaken ?_)
      rintro _ ⟨ss, rfl, hss⟩
      exact .mk hss .none
    | some e =>
      obtain ⟨he, hvalue⟩ := hresult e rfl
      have htext : (TextGrammar.Block.mk ts (some e)).text level ++ cs =
          '\x7b' :: '\n' :: (TextGrammar.Stmt.lines (level + 1) ts ++
            (indent (level + 1) ++
              (e.text (level + 1) ++ '\n' :: (indent level ++ '\x7d' :: cs)))) := by
        simp [TextGrammar.Block.text, TextGrammar.Block.resultLine]
      have hends : Ends (words ('\n' :: (indent level ++ '\x7d' :: cs))) := by
        rw [Token.words_lineFeed, hclose]
        exact ends_cons (by decide) _ _
      have hopens := opens_text e he (level + 1) _ rfl hends.not_namer
      have hlast := hvalue (level + 1) _ n rfl hends
      have hstmts := repeats_stmts hts hread (level + 1) n
        (.inl ((words_indent (level + 1) _).symm ▸ hopens))
      rw [words_indent (level + 1)] at hstmts
      rw [Token.words_lineFeed, hclose] at hlast
      rw [htext, Token.words_leftBrace, Token.words_lineFeed]
      refine reads_nested ((reads_blockValue hstmts hlast hopens).weaken ?_)
      rintro _ ⟨ss, s, rfl, hss, hs⟩
      exact .mk hss (.some hs)

theorem noRecord_cons {kind : Token.Kind} (text : List Char) (ws : List Token.Word)
    (h : kind ≠ .symbol .rightBrace ∧ kind ≠ .identifier) : ¬OpensRecord ((kind, text) :: ws) := by
  rintro (heq | ⟨heq, -⟩)
  · exact h.1 (Option.some.inj heq)
  · exact h.2 (Option.some.inj heq)

theorem Opens.noRecord {ws : List Token.Word} (h : Opens ws) : ¬OpensRecord ws := by
  rintro (hbrace | ⟨hname, hcolon⟩)
  · exact h.ne (by decide) hbrace
  · have htail := h.2 hname
    rw [hcolon] at htail
    exact htail (by decide)

theorem noRecord_stmt {t : TextGrammar.Stmt} (ht : t.IsLegible) (level : Nat) (cs : List Char) :
    ¬OpensRecord (words (t.text level ++ cs)) := by
  cases t with
  | bind name slot value =>
    rw [TextGrammar.Stmt.text_bind, Token.words_keyword .letBinding rfl]
    exact noRecord_cons _ _ (by decide)
  | assign name slot mode value =>
    rw [TextGrammar.Stmt.text_assign, Token.words_name ht.1 rfl, Token.words_space,
      words_assignMode]
    rintro (heq | ⟨-, heq⟩)
    · cases heq
    · cases mode <;> cases heq
  | loop name slot start stop body =>
    rw [TextGrammar.Stmt.text_loop, Token.words_keyword .forLoop rfl]
    exact noRecord_cons _ _ (by decide)
  | branch condition yes no =>
    rw [TextGrammar.Stmt.text_branch, Token.words_keyword .ifThen rfl]
    exact noRecord_cons _ _ (by decide)
  | leave =>
    rw [TextGrammar.Stmt.text_leave, Token.words_keyword .breakLoop rfl]
    exact noRecord_cons _ _ (by decide)

/-- Braces with something in them that is no field are a block. -/
theorem spine_block {b : TextGrammar.Block} (hne : b ≠ .mk [] none) (hb : b.IsLegible)
    (hread : ReadsBlock b) : ReadsSpine (.block b) := by
  refine .of_atom fun level cs n hcs _ => ?_
  have hblock := hread level cs n
  rcases b with ⟨ts, result⟩
  have htext : (TextGrammar.Block.mk ts result).text level ++ cs =
      '\x7b' :: '\n' :: (TextGrammar.Stmt.lines (level + 1) ts ++
        (TextGrammar.Block.resultLine (level + 1) result ++ (indent level ++ '\x7d' :: cs))) := by
    simp [TextGrammar.Block.text]
  have hopens : ¬OpensRecord (words (TextGrammar.Stmt.lines (level + 1) ts ++
      (TextGrammar.Block.resultLine (level + 1) result ++ (indent level ++ '\x7d' :: cs)))) := by
    cases ts with
    | cons t ts =>
      rw [words_line]
      exact noRecord_stmt hb.1.1 _ _
    | nil =>
      cases result with
      | none => exact absurd rfl hne
      | some e =>
        have hclose : words ('\n' :: (indent level ++ '\x7d' :: cs)) =
            (.symbol .rightBrace, ['\x7d']) :: words cs := by
          rw [Token.words_lineFeed, words_indent, Token.words_rightBrace]
        have hfirst := opens_text e hb.2 (level + 1) ('\n' :: (indent level ++ '\x7d' :: cs)) rfl
          (by rw [hclose, headKind_cons]; decide)
        have hline : TextGrammar.Stmt.lines (level + 1) [] ++
            (TextGrammar.Block.resultLine (level + 1) (some e) ++ (indent level ++ '\x7d' :: cs)) =
            indent (level + 1) ++
              (e.text (level + 1) ++ '\n' :: (indent level ++ '\x7d' :: cs)) := by
          simp [TextGrammar.Stmt.lines, TextGrammar.Block.resultLine]
        rw [hline, words_indent]
        exact hfirst.noRecord
  rw [htext, Token.words_leftBrace, Token.words_lineFeed] at hblock
  rw [TextGrammar.Expr.text, htext, Token.words_leftBrace, Token.words_lineFeed]
  refine (reads_block hopens hblock).weaken ?_
  rintro _ ⟨span, b, rfl, hb⟩
  exact .block hb

mutual

/-- The text of a legible expression is read as a source expression that writes it. -/
theorem expr_reads : ∀ (e : TextGrammar.Expr), e.IsLegible → ReadsSpine e
  | .literal _, h => spine_literal h
  | .captured _ _ _, h => spine_name h (fun _ => rfl) fun _ => .captured
  | .fetch _ _, h => spine_name h (fun _ => rfl) fun _ => .fetch
  | .index base position, h =>
    spine_index (expr_reads base h.1) (expr_reads position h.2).expr
  | .field base _, h => spine_field (expr_reads base h.1) h.2
  | .call _ arguments, h => spine_call h.1 (exprs_read arguments h.2)
  | .binary _ lhs rhs, h => spine_binary (expr_reads lhs h.1) (expr_reads rhs h.2)
  | .list items, h => spine_list (exprs_read items h)
  | .record fields, h => spine_record (fields_read fields h)
  | .block body, h => spine_block h.1 h.2 (block_reads body h.2)

theorem exprs_read : ∀ (es : List TextGrammar.Expr), TextGrammar.Expr.AreLegible es →
    ∀ e ∈ es, e.IsLegible ∧ ReadsExpr e
  | [], _ => nofun
  | e :: es, h => List.forall_mem_cons.2 ⟨⟨h.1, (expr_reads e h.1).expr⟩, exprs_read es h.2⟩

theorem fields_read : ∀ (es : List (String × TextGrammar.Expr)),
    TextGrammar.Expr.FieldsLegible es → ∀ e ∈ es, Token.isName e.1.toList = true ∧ ReadsExpr e.2
  | [], _ => nofun
  | (_, e) :: es, h =>
    List.forall_mem_cons.2 ⟨⟨h.1, (expr_reads e h.2.1).expr⟩, fields_read es h.2.2⟩

/-- The text of a legible block is read as a source block that writes it. -/
theorem block_reads : ∀ (b : TextGrammar.Block), b.IsLegible → ReadsBlock b
  | .mk stmts result, h =>
    reads_blockText h.1 (stmts_read stmts h.1) (result_reads result h.2)

theorem result_reads : ∀ (r : Option TextGrammar.Expr), TextGrammar.Expr.ResultLegible r →
    ∀ e ∈ r, e.IsLegible ∧ ReadsExpr e
  | none, _ => nofun
  | some e, h => by
    rintro _ ⟨⟩
    exact ⟨h, (expr_reads e h).expr⟩

theorem otherwise_reads : ∀ (no : Option TextGrammar.Block), TextGrammar.Block.OtherwiseLegible no →
    ∀ b ∈ no, ReadsBlock b
  | none, _ => nofun
  | some b, h => by
    rintro _ ⟨⟩
    exact block_reads b h

theorem stmts_read : ∀ (ts : List TextGrammar.Stmt), TextGrammar.Stmt.AreLegible ts →
    ∀ t ∈ ts, ReadsStmt t
  | [], _ => nofun
  | t :: ts, h => List.forall_mem_cons.2 ⟨stmt_reads t h.1, stmts_read ts h.2⟩

theorem stmt_reads : ∀ (t : TextGrammar.Stmt), t.IsLegible → ReadsStmt t
  | .bind _ slot value, h => stmt_bind h.1 slot (expr_reads value h.2).expr
  | .assign _ slot mode value, h => stmt_assign h.1 slot mode (expr_reads value h.2).expr
  | .loop _ slot start stop body, h =>
    stmt_loop h.1 slot (expr_reads start h.2.1).expr (expr_reads stop h.2.2.1).expr
      (block_reads body h.2.2.2)
  | .branch condition yes no, h =>
    stmt_branch (expr_reads condition h.1).expr (block_reads yes h.2.1) (otherwise_reads no h.2.2)
  | .leave, _ => stmt_leave

end

end Source.Parser

end TextGrammar
