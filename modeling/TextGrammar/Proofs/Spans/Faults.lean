import TextGrammar.Proofs.Display.Sources
import TextGrammar.Proofs.StringLiterals
import TextGrammar.Proofs.Syntax.Spelling

/-! # Where faults are

A parser finds faults at tokens, at the end of the source, or at a character of a string literal.
All of these are between characters of the source. -/

namespace TextGrammar.Source
open Text (byteLength)
variable {source : List Char} {α β : Type}

/-- A span within a source starts and ends between two of its characters. -/
def OnBoundaries (source : List Char) (s : Span) : Prop :=
  ∃ front mid back, source = front ++ (mid ++ back) ∧
    s = ⟨byteLength front, byteLength front + byteLength mid⟩

theorem OnBoundaries.of_mem_lex {t : Token} (ht : t ∈ Token.lex source) :
    OnBoundaries source t.span := by
  obtain ⟨front, back, hstands⟩ := Token.exists_standsBehind_of_mem_lex ht
  exact ⟨front, t.text, back, hstands.text_eq, hstands.span_eq⟩

theorem OnBoundaries.point {front back : List Char} (h : source = front ++ back) :
    OnBoundaries source (.point (byteLength front)) :=
  ⟨front, [], back, h, rfl⟩

/-- Between two characters of a token the source can be pointed at. -/
theorem OnBoundaries.within_token {t : Token} (ht : t ∈ Token.lex source) {front back : List Char}
    (h : t.text = front ++ back) :
    OnBoundaries source (.point (t.span.start + byteLength front)) := by
  obtain ⟨ahead, behind, hstands⟩ := Token.exists_standsBehind_of_mem_lex ht
  have hsplit : source = (ahead ++ front) ++ (back ++ behind) := by
    rw [hstands.text_eq, h]
    simp
  rw [hstands.span_eq, ← Text.byteLength_append]
  exact .point hsplit

/-- A cursor stands in a source if the tokens in front of it are tokens of the source. -/
structure Cursor.InSource (source : List Char) (c : Cursor) : Prop where
  tokens : c.rest ⊆ Token.lex source
  stop : c.stop = byteLength source

theorem Cursor.InSource.here {c : Cursor} (h : c.InSource source) :
    OnBoundaries source c.here := by
  obtain ⟨ts, last, stop, depth⟩ := c
  cases ts with
  | nil =>
    have hpoint := OnBoundaries.point (List.append_nil source).symm
    rwa [← h.stop] at hpoint
  | cons t ts => exact .of_mem_lex (h.tokens List.mem_cons_self)

/-- A parser that starts in a source stays in it, and the faults that it finds are between its
characters. -/
structure Confined (source : List Char) (p : Parser α) : Prop where
  yields : ∀ ⦃c d : Cursor⦄ ⦃x : α⦄, c.InSource source → Yields p c x d → d.InSource source
  faults : ∀ ⦃c : Cursor⦄ ⦃fault : Fault⦄, c.InSource source → Faults p c fault →
    OnBoundaries source fault.span

namespace Confined
variable {p q : Parser α}

theorem pure (x : α) : Confined source (pure x) where
  yields c d y hc hy := by
    obtain ⟨-, rfl⟩ := yields_pure.1 hy
    exact hc
  faults c fault _ h := absurd h faults_pure

theorem bind {f : α → Parser β} (hp : Confined source p) (hf : ∀ x, Confined source (f x)) :
    Confined source (p >>= f) where
  yields c e y hc hy := by
    obtain ⟨x, d, hx, hy⟩ := yields_bind.1 hy
    exact (hf x).yields (hp.yields hc hx) hy
  faults c fault hc h := by
    obtain h | ⟨x, d, hx, h⟩ := faults_bind.1 h
    · exact hp.faults hc h
    · exact (hf x).faults (hp.yields hc hx) h

theorem map {f : α → β} (hp : Confined source p) : Confined source (f <$> p) := by
  rw [map_eq_pure_bind]
  exact hp.bind fun x => .pure (f x)

theorem ite {b : Prop} [Decidable b] (hp : Confined source p) (hq : Confined source q) :
    Confined source (if b then p else q) := by
  split
  · exact hp
  · exact hq

/-- A parser that finds a fault at the next token. -/
theorem of_here (h : ∀ c, ∃ cause, Faults p c ⟨c.here, cause⟩) : Confined source p where
  yields c d x _ hx := by
    obtain ⟨cause, hfault⟩ := h c
    rw [Faults] at hfault
    rw [Yields, hfault] at hx
    cases hx
  faults c fault hc hfault := by
    obtain ⟨cause, hhere⟩ := h c
    rw [Faults] at hhere hfault
    obtain rfl := Except.error.inj (hhere.symm.trans hfault)
    exact hc.here

/-- A parser that finds no fault and leaves tokens of the source behind it. -/
theorem of_run (h : ∀ c, ∃ x d, Yields p c x d ∧ d.rest ⊆ c.rest ∧ d.stop = c.stop) :
    Confined source p where
  yields c d y hc hy := by
    obtain ⟨x, e, hx, hrest, hstop⟩ := h c
    rw [Yields] at hx hy
    obtain ⟨-, rfl⟩ := Prod.mk.inj (Except.ok.inj (hx.symm.trans hy))
    exact ⟨List.Subset.trans hrest hc.tokens, hstop.trans hc.stop⟩
  faults c fault hc hfault := by
    obtain ⟨x, e, hx, -⟩ := h c
    rw [Yields] at hx
    rw [Faults, hx] at hfault
    cases hfault

end Confined

namespace Parser

section
variable {p : Parser α}

theorem confined_fail (cause : Cause) : Confined source (fail cause : Parser α) :=
  .of_here fun _ => ⟨cause, rfl⟩

theorem confined_unexpected (expected : Expected) :
    Confined source (unexpected expected : Parser α) :=
  .of_here fun _ => ⟨_, rfl⟩

theorem confined_throw {fault : Fault} (h : OnBoundaries source fault.span) :
    Confined source (throw fault : Parser α) where
  yields c d x _ hx := absurd hx yields_throw
  faults c fault' _ h' := by
    obtain rfl := faults_throw.1 h'
    exact h

theorem confined_get : Confined source (get : Parser Cursor) :=
  .of_run fun c => ⟨c, c, rfl, List.Subset.refl _, rfl⟩

theorem confined_here : Confined source here := confined_get.bind fun _ => .pure _

theorem confined_last : Confined source last := confined_get.bind fun _ => .pure _

theorem confined_spanFrom (start : Span) : Confined source (spanFrom start) :=
  confined_last.bind fun _ => .pure _

theorem confined_peekAt (n : Nat) : Confined source (peekAt n) := confined_get.bind fun _ => .pure _

theorem confined_peek : Confined source peek := confined_peekAt 0

theorem confined_at (kind : Token.Kind) : Confined source (at? kind) :=
  confined_peek.bind fun _ => .pure _

theorem confined_advance : Confined source advance := by
  refine .of_run fun c => ⟨(), _, yields_modify.2 rfl, ?_⟩
  obtain ⟨ts, last, stop, depth⟩ := c
  cases ts with
  | nil => exact ⟨List.Subset.refl _, rfl⟩
  | cons t ts => exact ⟨List.subset_cons_self _ _, rfl⟩

theorem confined_accept (kind : Token.Kind) : Confined source (accept kind) :=
  (confined_at kind).bind fun _ => .ite (confined_advance.bind fun _ => .pure _) (.pure _)

theorem confined_descend : Confined source descend where
  yields c d u hc h := by
    obtain ⟨-, rfl⟩ := yields_descend.1 h
    exact ⟨hc.tokens, hc.stop⟩
  faults c fault hc h := by
    rw [faults_descend h]
    exact hc.here

/-- A token that is expected is one of the source. -/
theorem expect_mem {kind : Token.Kind} {c d : Cursor} {t : Token} (hc : c.InSource source)
    (h : Yields (expect kind) c t d) :
    t.kind = kind ∧ t ∈ Token.lex source ∧ d.InSource source := by
  obtain ⟨hkind, ts, hrest, rfl⟩ := yields_expect.1 h
  obtain ⟨hmem, hsub⟩ := List.cons_subset.1 (hrest ▸ hc.tokens)
  exact ⟨hkind, hmem, hsub, hc.stop⟩

/-- What is done with an expected token may rely on it. -/
theorem confined_expect {kind : Token.Kind} {f : Token → Parser α}
    (hf : ∀ t ∈ Token.lex source, t.kind = kind → Confined source (f t)) :
    Confined source (expect kind >>= f) where
  yields c e x hc hx := by
    obtain ⟨t, d, ht, hx⟩ := yields_bind.1 hx
    obtain ⟨hkind, hmem, hd⟩ := expect_mem hc ht
    exact (hf t hmem hkind).yields hd hx
  faults c fault hc h := by
    obtain h | ⟨t, d, ht, h⟩ := faults_bind.1 h
    · rw [faults_expect h]
      exact hc.here
    · obtain ⟨hkind, hmem, hd⟩ := expect_mem hc ht
      exact (hf t hmem hkind).faults hd h

theorem confined_keepDepth (hp : Confined source p) : Confined source (keepDepth p) := by
  have hset : ∀ depth, Confined source (modify fun c => { c with depth } : Parser Unit) :=
    fun depth => .of_run fun c => ⟨(), { c with depth }, rfl, List.Subset.refl _, rfl⟩
  exact confined_get.bind fun c => hp.bind fun x => (hset c.depth).bind fun _ => .pure x

theorem confined_nested (hp : Confined source p) : Confined source (nested p) :=
  confined_keepDepth (confined_descend.bind fun _ => hp)

theorem confined_manyUpTo {step : Parser (Option α)} (h : Confined source step) (n : Nat) :
    Confined source (manyUpTo step n) := by
  induction n with
  | zero => exact .pure _
  | succ n ih =>
    refine h.bind fun o => ?_
    cases o with
    | none => exact .pure _
    | some x => exact ih.bind fun _ => .pure _

theorem confined_many {step : Parser (Option α)} (h : Confined source step) :
    Confined source (many step) :=
  confined_get.bind fun _ => confined_manyUpTo h _

theorem confined_listUntil {close : Token.Kind} {item : Parser α} (h : Confined source item) :
    Confined source (listUntil close item) := by
  have hend : ∀ xs : List α, Confined source (do
      let _ ← expect close
      return xs) :=
    fun xs => confined_expect fun _ _ _ => .pure xs
  have hnext : Confined source (nextItem close item) :=
    (confined_accept _).bind fun _ => .ite ((confined_at close).bind fun _ =>
      .ite (.pure _) (h.bind fun _ => .pure _)) (.pure _)
  refine (confined_at close).bind fun _ => .ite ((Confined.pure []).bind hend) ?_
  exact h.bind fun x => (confined_many hnext).bind fun xs => (Confined.pure (x :: xs)).bind hend

end

theorem confined_identifier : Confined source identifier := confined_expect fun _ _ _ => .pure _

/-- A fault in a string literal is behind a backslash in it. -/
theorem confined_string : Confined source string := by
  refine confined_expect fun t ht hkind => ?_
  obtain ⟨body, htext, hbody⟩ := (Token.lex_tokenized source).enclosed t ht hkind
  have hjudged : Literal.Judged t.text 0 (Literal.decode t.text) := by
    rw [htext, Literal.decode_enclosed]
    exact Literal.judged_enclosed hbody
  cases hdecode : Literal.decode t.text with
  | ok text => exact .pure _
  | error found =>
    rw [hdecode] at hjudged
    cases hjudged with
    | @error front c hfirst =>
      obtain ⟨back, htext⟩ := hfirst.text_eq
      have hsplit : t.text = (front ++ ['\\']) ++ c :: back := by simpa using htext
      rw [Nat.zero_add]
      exact confined_throw (.within_token ht hsplit)

theorem confined_number {t : Token} (ht : t ∈ Token.lex source) (negative : Bool) (span : Span) :
    Confined source (number t negative span) := by
  have hfault : Confined source (throw ⟨t.span, .integerOutOfRange⟩ : Parser Expr) :=
    confined_throw (.of_mem_lex ht)
  unfold number
  dsimp only
  refine .ite ?_ ?_
  · split
    · exact .pure _
    · exact hfault
  · split
    · exact .pure _
    · exact hfault

section
variable {expr : Parser Expr} {block : Parser Block}

theorem confined_recordField (hexpr : Confined source expr) :
    Confined source (recordField expr) :=
  confined_identifier.bind fun _ => confined_expect fun _ _ _ => hexpr.bind fun _ => .pure _

theorem confined_startsRecord : Confined source startsRecord :=
  (confined_peekAt 1).bind fun _ => (confined_peekAt 2).bind fun _ => .pure _

theorem confined_atom (hexpr : Confined source expr) (hblock : Confined source block) :
    Confined source (atom expr block) := by
  refine confined_here.bind fun start => confined_peek.bind fun k => ?_
  have hend : ∀ {f : Span → Expr}, Confined source (do return f (← spanFrom start)) :=
    (confined_spanFrom start).bind fun _ => .pure _
  split
  · exact confined_expect fun t ht _ => confined_number ht false _
  · exact confined_string.bind fun _ => hend
  · exact confined_advance.bind fun _ => hend
  · exact confined_advance.bind fun _ => hend
  · exact confined_advance.bind fun _ => hend
  · exact confined_identifier.bind fun _ => (confined_accept _).bind fun _ =>
      .ite ((confined_listUntil hexpr).bind fun _ => hend) hend
  · exact confined_advance.bind fun _ => hexpr.bind fun _ => confined_expect fun _ _ _ => hend
  · exact confined_advance.bind fun _ => (confined_listUntil hexpr).bind fun _ => hend
  · exact confined_startsRecord.bind fun _ => .ite (confined_advance.bind fun _ =>
      (confined_listUntil (confined_recordField hexpr)).bind fun _ => hend)
      (hblock.bind fun _ => hend)
  · exact (confined_peekAt 1).bind fun _ => .ite (confined_advance.bind fun _ =>
      confined_expect fun t ht _ => confined_number ht true _) (confined_unexpected _)
  · exact confined_unexpected _

theorem confined_chain (operator? : Option Token.Kind → Option Operator) {operand : Parser Expr}
    (h : Confined source operand) : Confined source (chain operator? operand) := by
  have hstep : Confined source (link? operator? operand) := by
    refine confined_peek.bind fun _ => ?_
    split
    · exact confined_advance.bind fun _ => confined_descend.bind fun _ => h.bind fun _ => .pure _
    · exact .pure _
  exact confined_keepDepth (h.bind fun _ => (confined_many hstep).bind fun _ => .pure _)

theorem confined_postfixed {atom : Parser Expr} (hatom : Confined source atom)
    (hexpr : Confined source expr) : Confined source (postfixed atom expr) := by
  have hfield : Confined source (do
      if ← at? (.symbol .dot) then
        descend
        advance
        let name ← identifier
        return some (Suffix.field name (← last))
      else return none) :=
    (confined_at _).bind fun _ => .ite (confined_descend.bind fun _ => confined_advance.bind
      fun _ => confined_identifier.bind fun _ => confined_last.bind fun _ => .pure _) (.pure _)
  have hstep : Confined source (suffix? expr) :=
    (confined_at _).bind fun _ => .ite (confined_descend.bind fun _ => confined_advance.bind
      fun _ => hexpr.bind fun _ => confined_expect fun _ _ _ => confined_last.bind fun _ => .pure _)
      hfield
  exact confined_keepDepth (hatom.bind fun _ => (confined_many hstep).bind fun _ => .pure _)

theorem confined_comparison {atom : Parser Expr} (hatom : Confined source atom)
    (hexpr : Confined source expr) : Confined source (comparison atom expr) := by
  have hsum := confined_chain sum? (confined_chain product? (confined_postfixed hatom hexpr))
  refine hsum.bind fun _ => confined_peek.bind fun _ => ?_
  split
  · exact confined_advance.bind fun _ => hsum.bind fun _ => .pure _
  · exact .pure _

theorem confined_semicolon : Confined source semicolon :=
  (confined_accept _).bind fun _ => .ite (.pure _) ((confined_at _).bind fun _ =>
    .ite (.pure _) (confined_unexpected _))

theorem confined_arm (hexpr : Confined source expr) (hblock : Confined source block) :
    Confined source (arm expr block) :=
  confined_here.bind fun _ => confined_advance.bind fun _ => hexpr.bind fun _ => hblock.bind
    fun _ => .pure _

theorem confined_nestArms (no : Option Block) (arms : List Arm) :
    Confined source (nestArms no arms) := by
  induction arms with
  | nil => exact .pure _
  | cons a arms ih =>
    exact ih.bind fun _ => (confined_accept _).bind fun _ => (confined_spanFrom _).bind
      fun _ => .pure _

theorem confined_branch (hexpr : Confined source expr) (hblock : Confined source block) :
    Confined source (branch expr block) := by
  have hstep : Confined source (nextArm expr block) :=
    (confined_at _).bind fun _ => (confined_peekAt 1).bind fun _ =>
      .ite (confined_advance.bind fun _ => (confined_arm hexpr hblock).bind fun _ => .pure _)
        (.pure _)
  refine (confined_arm hexpr hblock).bind fun first => (confined_many hstep).bind
    fun arms => (confined_accept _).bind fun _ => ?_
  have hend : ∀ no : Option Block, Confined source (do
      let no ← nestArms no arms
      let _ ← accept (.symbol .semicolon)
      return Stmt.branch (← spanFrom first.start) first.condition first.body no) :=
    fun no => (confined_nestArms no arms).bind fun _ => (confined_accept _).bind fun _ =>
      (confined_spanFrom _).bind fun _ => .pure _
  exact .ite (hblock.map.bind hend) ((Confined.pure none).bind hend)

theorem confined_loop (hexpr : Confined source expr) (hblock : Confined source block) :
    Confined source (loop expr block) :=
  confined_here.bind fun _ => confined_advance.bind fun _ => confined_identifier.bind fun _ =>
    confined_expect fun _ _ _ => hexpr.bind fun _ => confined_expect fun _ _ _ => hexpr.bind
      fun _ => hblock.bind fun _ => (confined_accept _).bind fun _ => (confined_spanFrom _).bind
        fun _ => .pure _

theorem confined_declaration (hexpr : Confined source expr) :
    Confined source (declaration expr) :=
  confined_here.bind fun _ => confined_advance.bind fun _ => (confined_accept _).bind fun _ =>
    confined_identifier.bind fun _ => confined_expect fun _ _ _ => hexpr.bind fun _ =>
      confined_semicolon.bind fun _ => (confined_spanFrom _).bind fun _ => .pure _

theorem confined_assignment (hexpr : Confined source expr) :
    Confined source (assignment expr) := by
  refine confined_here.bind fun start => confined_identifier.bind fun name =>
    (confined_accept _).bind fun _ => ?_
  have hend : ∀ mode : AssignMode, Confined source (do
      let value ← expr
      semicolon
      return Stmt.assign (← spanFrom start) name mode value) :=
    fun mode => hexpr.bind fun _ => confined_semicolon.bind fun _ => (confined_spanFrom _).bind
      fun _ => .pure _
  exact .ite ((Confined.pure _).bind hend)
    (confined_expect fun _ _ _ => (Confined.pure _).bind hend)

theorem confined_stmt (hexpr : Confined source expr) (hblock : Confined source block) :
    Confined source (stmt? expr block) := by
  refine confined_peek.bind fun _ => ?_
  split
  · exact (confined_declaration hexpr).map
  · exact (confined_loop hexpr hblock).map
  · exact (confined_branch hexpr hblock).map
  · exact confined_here.bind fun _ => confined_advance.bind fun _ => confined_semicolon.bind
      fun _ => (confined_spanFrom _).bind fun _ => .pure _
  · refine (confined_peekAt 1).bind fun _ => ?_
    split
    · exact (confined_assignment hexpr).map
    · exact (confined_assignment hexpr).map
    · exact .pure _
  · exact .pure _

theorem confined_blockBody (hexpr : Confined source expr) (hblock : Confined source block) :
    Confined source (blockBody expr block) := by
  refine confined_expect fun _ _ _ => (confined_many (confined_stmt hexpr hblock)).bind
    fun stmts => (confined_at _).bind fun _ => ?_
  have hend : ∀ result : Option Expr, Confined source (do
      let _ ← expect (.symbol .rightBrace)
      return Block.mk stmts result) :=
    fun result => confined_expect fun _ _ _ => .pure _
  exact .ite ((Confined.pure none).bind hend) (hexpr.map.bind hend)

end

theorem confined_expr_block (n : Nat) :
    Confined source (expr n) ∧ Confined source (block n) := by
  induction n with
  | zero => exact ⟨confined_fail _, confined_fail _⟩
  | succ n ih =>
    obtain ⟨hexpr, hblock⟩ := ih
    exact ⟨confined_comparison (confined_nested (confined_atom hexpr hblock)) hexpr,
      confined_nested (confined_blockBody hexpr hblock)⟩

section
variable {unary : Parser Pattern} {expr : Parser Expr}

theorem confined_choice (h : Confined source unary) : Confined source (choice unary) := by
  have hstep : Confined source (alternative? unary) :=
    (confined_accept _).bind fun _ => .ite h.map (.pure _)
  exact h.bind fun _ => (confined_many hstep).bind fun _ => .ite (.pure _)
    ((confined_spanFrom _).bind fun _ => .pure _)

theorem confined_startsLabel : Confined source startsLabel := by
  refine (confined_at _).bind fun _ => .ite ((confined_peekAt 1).bind fun _ => ?_) (.pure _)
  split
  · exact (confined_peekAt 2).bind fun _ => .pure _
  · exact .pure _
  · exact .pure _

theorem confined_field (h : Confined source unary) : Confined source (field unary) :=
  confined_startsLabel.bind fun _ => .ite (confined_identifier.bind fun _ =>
    confined_advance.bind fun _ => (confined_choice h).bind fun _ => .pure _)
    ((confined_choice h).bind fun _ => .pure _)

theorem confined_primary (h : Confined source unary) (hexpr : Confined source expr) :
    Confined source (primary unary expr) := by
  refine confined_here.bind fun start => confined_peek.bind fun _ => ?_
  have hend : ∀ {f : Span → Pattern}, Confined source (do return f (← spanFrom start)) :=
    (confined_spanFrom start).bind fun _ => .pure _
  split
  · exact confined_identifier.bind fun _ => hend
  · exact confined_string.bind fun _ => hend
  · exact confined_advance.bind fun _ => (confined_choice h).bind fun _ =>
      confined_expect fun _ _ _ => hend
  · exact confined_advance.bind fun _ => (confined_listUntil (confined_field h)).bind fun _ =>
      (confined_accept _).bind fun _ => .ite (hexpr.map.bind fun _ => hend)
        ((Confined.pure none).bind fun _ => hend)
  · exact confined_unexpected _

theorem confined_unaryBody (h : Confined source unary) (hexpr : Confined source expr) :
    Confined source (unaryBody unary expr) := by
  refine confined_here.bind fun start => (confined_accept _).bind fun _ => ?_
  have hend : ∀ {f : Span → Pattern}, Confined source (do return f (← spanFrom start)) :=
    (confined_spanFrom start).bind fun _ => .pure _
  refine .ite (h.bind fun _ => hend) ((confined_accept _).bind fun _ =>
    .ite (h.bind fun _ => hend) ?_)
  exact (confined_primary h hexpr).bind fun _ => (confined_at _).bind fun _ =>
    (confined_peekAt 1).bind fun _ => .ite (confined_advance.bind fun _ =>
      confined_string.bind fun _ => hend) (.pure _)

end

theorem confined_unary (n : Nat) : Confined source (unary n) := by
  induction n with
  | zero => exact confined_fail _
  | succ n ih => exact confined_nested (confined_unaryBody ih (confined_expr_block n).1)

theorem confined_startsRule : Confined source startsRule :=
  (confined_at _).bind fun _ => (confined_peekAt 1).bind fun _ => .pure _

theorem confined_rule : Confined source rule :=
  confined_identifier.bind fun _ => confined_expect fun _ _ _ =>
    (confined_choice (confined_unary _)).bind fun _ => confined_expect fun _ _ _ => .pure _

theorem confined_startPattern : Confined source startPattern :=
  (confined_choice (confined_unary _)).bind fun _ => (confined_accept _).bind fun _ =>
    .ite (.pure _) ((confined_accept _).bind fun _ => .pure _)

theorem confined_item : Confined source item? :=
  (confined_at _).bind fun _ => .ite (.pure _) ((confined_at _).bind fun _ =>
    .ite (confined_here.bind fun _ => confined_advance.bind fun _ => .pure _)
      (confined_startsRule.bind fun _ => .ite (confined_rule.bind fun _ => .pure _)
        (confined_startPattern.bind fun _ => .pure _)))

theorem confined_file : Confined source file := by
  have hnext : Confined source nextRule :=
    confined_startsRule.bind fun _ => .ite confined_rule.map (.pure _)
  refine confined_expect fun _ _ _ => confined_expect fun _ _ _ => (confined_many hnext).bind
    fun rules => (confined_at _).bind fun _ => (confined_at _).bind fun _ => ?_
  have hend : ∀ items : List Item, Confined (α := File) source (do
      let close ← expect (.symbol .rightBrace)
      if (← peek).isSome then unexpected .endOfInput
      else
        return {
          rules := rules ++ items.filterMap Item.rule?
          separators := items.filterMap Item.separator?
          starts := items.filterMap Item.start?
          close := close.span }) :=
    fun items => confined_expect fun _ _ _ => confined_peek.bind fun _ =>
      .ite (confined_unexpected _) (.pure _)
  exact .ite ((confined_many confined_item).bind hend)
    (.ite ((Confined.pure []).bind hend) ((confined_unexpected _).bind hend))

end Parser

/-- A source is refused at a place in it. -/
theorem parseFile_fault {fault : Fault} (h : parseFile source = .error fault) :
    OnBoundaries source fault.span :=
  Parser.confined_file.faults ⟨List.Subset.refl _, rfl⟩ (parseWith_eq_error.1 h)

end TextGrammar.Source
