import TextGrammar.Proofs.Display.Statements

/-! # Expressions read back

The text of a legible expression is read as a source expression that writes it, and so are the
texts of its statements and blocks. The induction is on the expression: an index or a field
extends the text of its base at the end, so what is proved of a base leaves open which suffixes
follow it. -/

namespace TextGrammar.Source.Parser
open Token (words Apart)
variable {cs : List Char}

/-- An expression is read as an atom with suffixes, whatever suffixes follow it. -/
def ReadsSpine (e : TextGrammar.Expr) : Prop :=
  ∀ (level : Nat) (cs : List Char) (n : Nat) (rest : List Token.Word) (Q : Expr → Prop),
    Apart cs = true → headKind (words cs) ≠ some (.symbol .leftParen) →
    Repeats (suffix? (expr n)) (words cs) rest
      (fun suffixes => ∀ s, Writes s e → Q (suffixes.foldl Suffix.apply s)) →
    Reads (postfixed (nested (atom (expr n) (block n))) (expr n)) (words (e.text level ++ cs))
      rest Q

def ReadsExpr (e : TextGrammar.Expr) : Prop :=
  ∀ (level : Nat) (cs : List Char) (n : Nat), Apart cs = true → Ends (words cs) →
    Reads (expr n) (words (e.text level ++ cs)) (words cs) fun s => Writes s e

def ReadsBlock (b : TextGrammar.Block) : Prop :=
  ∀ (level : Nat) (cs : List Char) (n : Nat),
    Reads (block n) (words (b.text level ++ cs)) (words cs) fun c => WritesBlock c b

def ReadsStmt (t : TextGrammar.Stmt) : Prop :=
  ∀ (level : Nat) (cs : List Char) (n : Nat), headKind (words cs) ≠ some (.symbol .semicolon) →
    headKind (words cs) ≠ some (.keyword .otherwise) →
    Steps (stmt? (expr n) (block n)) (words (t.text level ++ cs)) (words cs)
      fun s => WritesStmt s t

theorem ReadsSpine.of_atom {e : TextGrammar.Expr}
    (h : ∀ (level : Nat) (cs : List Char) (n : Nat), Apart cs = true →
      headKind (words cs) ≠ some (.symbol .leftParen) →
      Reads (atom (expr n) (block n)) (words (e.text level ++ cs)) (words cs) fun s => Writes s e) :
    ReadsSpine e :=
  fun level cs n _ _ hcs hparen hmore =>
    reads_postfixed (reads_nested (h level cs n hcs hparen)) hmore

theorem ReadsSpine.operand {e : TextGrammar.Expr} (h : ReadsSpine e) (level n : Nat)
    (hcs : Apart cs = true) (hparen : headKind (words cs) ≠ some (.symbol .leftParen))
    (hbracket : headKind (words cs) ≠ some (.symbol .leftBracket))
    (hdot : headKind (words cs) ≠ some (.symbol .dot)) :
    Reads (postfixed (nested (atom (expr n) (block n))) (expr n)) (words (e.text level ++ cs))
      (words cs) fun s => Writes s e :=
  h level cs n _ _ hcs hparen (repeats_noSuffix hbracket hdot fun _ hs => hs)

theorem ReadsSpine.expr {e : TextGrammar.Expr} (h : ReadsSpine e) : ReadsExpr e := by
  intro level cs n hcs hends
  cases n with
  | zero => exact .tooDeep
  | succ n =>
    obtain ⟨-, -, -, hbracket, hdot, hparen⟩ := hends.none
    exact reads_comparison (h.operand level n hcs hparen hbracket hdot) hends

/-- The text of an expression starts like no statement and no field of a record does. -/
theorem opens_text : ∀ (e : TextGrammar.Expr), e.IsLegible → ∀ (level : Nat) (cs : List Char),
    Apart cs = true → headKind (words cs) ∉ namers → Opens (words (e.text level ++ cs))
  | .literal v, h, level, cs, hcs, _ => by
    rw [TextGrammar.Expr.text]
    cases v with
    | null =>
      have hwords : words (Value.null.text ++ cs) = _ := Token.words_keyword .nullValue hcs
      rw [hwords]
      exact opens_cons (by decide) (by decide) _ _
    | bool b =>
      cases b with
      | false =>
        have hwords : words ((Value.bool false).text ++ cs) = _ :=
          Token.words_keyword .falseValue hcs
        rw [hwords]
        exact opens_cons (by decide) (by decide) _ _
      | true =>
        have hwords : words ((Value.bool true).text ++ cs) = _ := Token.words_keyword .trueValue hcs
        rw [hwords]
        exact opens_cons (by decide) (by decide) _ _
    | int n =>
      rw [Value.text, Number.words_integer n hcs]
      split <;> exact opens_cons (by decide) (by decide) _ _
    | float x =>
      obtain ⟨-, negative, whole, fraction, hdecimal⟩ := h
      rw [Value.text, hdecimal.words_eq hcs]
      cases negative <;> exact opens_cons (by decide) (by decide) _ _
    | str t =>
      rw [Value.text, Token.words_quoted]
      exact opens_cons (by decide) (by decide) _ _
    | list items => exact h.elim
    | record fields => exact h.elim
  | .captured name _ _, h, level, cs, hcs, hnamers | .fetch name _, h, level, cs, hcs, hnamers => by
    rw [TextGrammar.Expr.text, Token.words_name h hcs]
    exact opens_name hnamers _
  | .index base position, h, level, cs, hcs, hnamers => by
    rw [TextGrammar.Expr.text, List.append_assoc]
    refine opens_text base h.1 level _ rfl ?_
    rw [List.cons_append, Token.words_leftBracket, headKind_cons]
    decide
  | .field base name, h, level, cs, hcs, hnamers => by
    rw [TextGrammar.Expr.text, List.append_assoc, List.cons_append]
    refine opens_text base h.1 level _ (Token.apart_dot h.2 cs) ?_
    rw [Token.words_dot h.2, headKind_cons]
    decide
  | .call callee arguments, h, level, cs, hcs, hnamers => by
    rw [TextGrammar.Expr.text, List.append_assoc, Token.words_name h.1 rfl, List.cons_append,
      Token.words_leftParen]
    exact opens_name (by rw [headKind_cons]; decide) _
  | .binary op lhs rhs, h, level, cs, hcs, hnamers => by
    rw [TextGrammar.Expr.text, List.cons_append, Token.words_leftParen]
    exact opens_cons (by decide) (by decide) _ _
  | .list items, h, level, cs, hcs, hnamers => by
    rw [TextGrammar.Expr.text, List.cons_append, Token.words_leftBracket]
    exact opens_cons (by decide) (by decide) _ _
  | .record fields, h, level, cs, hcs, hnamers => by
    rw [TextGrammar.Expr.text, List.cons_append, Token.words_leftBrace]
    exact opens_cons (by decide) (by decide) _ _
  | .block (.mk stmts result), h, level, cs, hcs, hnamers => by
    rw [TextGrammar.Expr.text, TextGrammar.Block.text, List.cons_append, Token.words_leftBrace]
    exact opens_cons (by decide) (by decide) _ _

theorem reads_int (n : Int64) {expr : Parser Expr} {block : Parser Block} (hcs : Apart cs = true) :
    Reads (atom expr block) (words ((toString n.toInt).toList ++ cs)) (words cs)
      fun s => Writes s (.literal (.int n)) := by
  rw [Number.words_integer n hcs]
  exact reads_number fun t span ht => ⟨_, number_integer ht span, .int⟩

theorem reads_float {x : Float} (hx : Number.IsLegible x) {expr : Parser Expr}
    {block : Parser Block} (hcs : Apart cs = true) :
    Reads (atom expr block) (words ((Number.valueLayout.text x).toList ++ cs)) (words cs)
      fun s => Writes s (.literal (.float x)) := by
  obtain ⟨hreads, negative, whole, fraction, hdecimal⟩ := hx
  rw [hdecimal.text_eq] at hreads
  rw [hdecimal.words_eq hcs]
  refine reads_number fun t span ht => ⟨_, number_float ht ?_ span, .float⟩
  rw [ht]
  cases negative <;> exact hreads

theorem spine_literal {v : Value} (hv : v.IsLegible) : ReadsSpine (.literal v) := by
  refine .of_atom fun level cs n hcs _ => ?_
  rw [TextGrammar.Expr.text_literal]
  cases v with
  | null =>
    have hwords : words (Value.null.text ++ cs) = _ := Token.words_keyword .nullValue hcs
    rw [hwords]
    exact reads_null.weaken fun s ⟨span, hs⟩ => hs ▸ .null
  | bool b =>
    cases b with
    | false =>
      have hwords : words ((Value.bool false).text ++ cs) = _ :=
        Token.words_keyword .falseValue hcs
      rw [hwords]
      exact reads_false.weaken fun s ⟨span, hs⟩ => hs ▸ .bool
    | true =>
      have hwords : words ((Value.bool true).text ++ cs) = _ := Token.words_keyword .trueValue hcs
      rw [hwords]
      exact reads_true.weaken fun s ⟨span, hs⟩ => hs ▸ .bool
  | int m => exact reads_int m hcs
  | float x => exact reads_float hv hcs
  | str t =>
    rw [Value.text, Token.words_quoted]
    exact (reads_str hv).weaken fun s ⟨span, hs⟩ => hs ▸ .str
  | list items => exact hv.elim
  | record fields => exact hv.elim

theorem spine_name {e : TextGrammar.Expr} {name : String} (hname : Token.isName name.toList = true)
    (htext : ∀ level, e.text level = name.toList) (hwrites : ∀ span, Writes (.name span name) e) :
    ReadsSpine e := by
  refine .of_atom fun level cs n hcs hparen => ?_
  rw [htext, Token.words_name hname hcs]
  exact (reads_nameAtom name hparen).weaken fun s ⟨span, hs⟩ => hs ▸ hwrites span

theorem spine_index {base position : TextGrammar.Expr} (hbase : ReadsSpine base)
    (hposition : ReadsExpr position) : ReadsSpine (.index base position) := by
  intro level cs n rest Q hcs hparen hmore
  rw [TextGrammar.Expr.text_index_append]
  refine hbase level _ n rest Q rfl (by simp) ?_
  have hends : Ends (words (']' :: cs)) := by
    rw [Token.words_rightBracket]
    exact ends_cons (by decide) _ _
  have hread := hposition level (']' :: cs) n rfl hends
  rw [Token.words_rightBracket] at hread
  rw [Token.words_leftBracket]
  refine repeats_index hread fun position' stop hP => hmore.weaken ?_
  intro suffixes hQ s hs
  exact hQ _ (.index hs hP)

theorem spine_field {base : TextGrammar.Expr} {name : String} (hbase : ReadsSpine base)
    (hname : Token.isName name.toList = true) : ReadsSpine (.field base name) := by
  intro level cs n rest Q hcs hparen hmore
  have hwords := Token.words_dot hname cs
  rw [TextGrammar.Expr.text_field_append]
  refine hbase level _ n rest Q (Token.apart_dot hname cs) (by simp [hwords]) ?_
  rw [hwords, Token.words_name hname hcs]
  refine repeats_field name fun n' stop hn => hmore.weaken ?_
  intro suffixes hQ s hs
  exact hQ _ (hn ▸ .field hs)

section
variable {close : Token.Kind} {text : List Char} {ws : List Token.Word} {tail : List Char}

/-- The text of an item of a list is read in front of a comma or of the end of the list. -/
theorem readsItem_expr {e : TextGrammar.Expr} (he : e.IsLegible) (h : ReadsExpr e)
    (htail : Ends (words tail)) (hapart : Apart tail = true) (hclose : close ∉ openers)
    (level n : Nat) :
    ReadsItem close (expr n) [',', ' '] tail (e.text level) fun s => Writes s e := by
  have hends : ∀ cs, Apart cs = true → Ends (words cs) →
      headKind (words (e.text level ++ cs)) ≠ some close ∧
        Reads (expr n) (words (e.text level ++ cs)) (words cs) fun s => Writes s e :=
    fun cs hcs hends =>
      ⟨(opens_text e he level cs hcs hends.not_namer).ne hclose, h level cs n hcs hends⟩
  rintro cs (⟨more, rfl⟩ | rfl)
  · refine hends _ rfl ?_
    rw [List.cons_append, Token.words_comma]
    exact ends_cons (by decide) _ _
  · exact hends _ hapart htail

theorem texts_eq_map (level : Nat) (es : List TextGrammar.Expr) :
    TextGrammar.Expr.texts level es = es.map (TextGrammar.Expr.text level) := by
  induction es with
  | nil => rfl
  | cons e es ih => rw [TextGrammar.Expr.texts, ih, List.map_cons]

theorem reads_exprs {es : List TextGrammar.Expr} (hes : ∀ e ∈ es, e.IsLegible ∧ ReadsExpr e)
    (htail : words tail = (close, text) :: ws) (hclose : close ∈ enders) (hopen : close ∉ openers)
    (hcomma : close ≠ .symbol .comma) (hapart : Apart tail = true) (level n : Nat) :
    Reads (listUntil close (expr n))
      (words (commaSeparated (TextGrammar.Expr.texts level es) ++ tail)) ws
      fun ss => WritesAll ss es := by
  have hends : Ends (words tail) := by
    rw [htail]
    exact ends_cons hclose _ _
  rw [commaSeparated, texts_eq_map]
  refine (reads_listUntil (fun cs => ?_) htail hcomma fun e he => ?_).weaken
    fun ss hss => writesAll_of_forall₂ hss
  · simp
  · exact readsItem_expr (hes e he).1 (hes e he).2 hends hapart hopen level n

end

theorem spine_call {callee : String} {es : List TextGrammar.Expr}
    (hcallee : Token.isName callee.toList = true) (hes : ∀ e ∈ es, e.IsLegible ∧ ReadsExpr e) :
    ReadsSpine (.call callee es) := by
  refine .of_atom fun level cs n hcs _ => ?_
  have hread := reads_exprs hes (Token.words_rightParen cs) (by decide) (by decide) (by decide) rfl
    level n
  rw [TextGrammar.Expr.text, List.append_assoc, Token.words_name hcallee rfl, List.cons_append,
    Token.words_leftParen, List.append_assoc]
  refine (reads_call hread).weaken ?_
  rintro _ ⟨span, name, ss, rfl, rfl, hss⟩
  exact .call hss

theorem spine_list {es : List TextGrammar.Expr} (hes : ∀ e ∈ es, e.IsLegible ∧ ReadsExpr e) :
    ReadsSpine (.list es) := by
  refine .of_atom fun level cs n hcs _ => ?_
  have hread := reads_exprs hes (Token.words_rightBracket cs) (by decide) (by decide) (by decide)
    rfl level n
  rw [TextGrammar.Expr.text, List.cons_append, Token.words_leftBracket, List.append_assoc]
  refine (reads_list hread).weaken ?_
  rintro _ ⟨span, ss, rfl, hss⟩
  exact .list hss

theorem spine_binary {op : Operator} {lhs rhs : TextGrammar.Expr} (hlhs : ReadsSpine lhs)
    (hrhs : ReadsSpine rhs) : ReadsSpine (.binary op lhs rhs) := by
  refine .of_atom fun level cs n hcs _ => ?_
  have hinner : Reads (expr n)
      (words (lhs.text level ++ ' ' :: (op.symbol.toList ++ ' ' :: (rhs.text level ++ ')' :: cs))))
      ((.symbol .rightParen, [')']) :: words cs) fun s => Writes s (.binary op lhs rhs) := by
    cases n with
    | zero => exact .tooDeep
    | succ n =>
      have hwords := (Token.words_space _).trans (op.words_symbol (rhs.text level ++ ')' :: cs))
      have hclose := Token.words_rightParen cs
      obtain ⟨hparen, hbracket, hdot⟩ := op.kind_ne
      have hblank : Apart (' ' :: (op.symbol.toList ++ ' ' :: (rhs.text level ++ ')' :: cs))) =
        true := rfl
      have hparens : Apart (')' :: cs) = true := rfl
      have hleft := hlhs.operand level n hblank (by simpa [hwords] using hparen)
        (by simpa [hwords] using hbracket) (by simpa [hwords] using hdot)
      have hright := hrhs.operand level n hparens (by simp) (by simp) (by simp)
      rw [hwords] at hleft
      rw [hclose] at hright
      refine (reads_binary hleft hright (ends_cons (by decide) _ _)).weaken ?_
      rintro _ ⟨span, l, r, rfl, hl, hr⟩
      exact .binary hl hr
  rw [TextGrammar.Expr.text_binary_append, Token.words_leftParen]
  refine (reads_parens hinner).weaken ?_
  rintro _ ⟨span, inner, rfl, hs⟩
  exact hs.withSpan span

def fieldText (level : Nat) (e : String × TextGrammar.Expr) : List Char :=
  ' ' :: (e.1.toList ++ ':' :: ' ' :: e.2.text level)

theorem fieldTexts_eq_map (level : Nat) (es : List (String × TextGrammar.Expr)) :
    TextGrammar.Expr.fieldTexts level es = es.map (fieldText level) := by
  induction es with
  | nil => rfl
  | cons e es ih =>
    rcases e with ⟨name, e⟩
    rw [TextGrammar.Expr.fieldTexts, ih, List.map_cons, fieldText]

theorem words_fieldText {e : String × TextGrammar.Expr} (hname : Token.isName e.1.toList = true)
    (level : Nat) (cs : List Char) :
    words (fieldText level e ++ cs) =
      (.identifier, e.1.toList) :: (.symbol .colon, [':']) :: words (e.2.text level ++ cs) := by
  rw [fieldText, List.cons_append, Token.words_space, List.append_assoc,
    Token.words_name hname rfl, List.cons_append, List.cons_append, Token.words_colon_space]

theorem reads_recordField {name : String} {expr : Parser Expr} {ws rest : List Token.Word}
    {text : List Char} {Q : Expr → Prop} (h : Reads expr ws rest Q) :
    Reads (recordField expr) ((.identifier, name.toList) :: (.symbol .colon, text) :: ws) rest
      fun s => s.1.text = name ∧ Q s.2 :=
  (reads_name name).bind fun _ hn => reads_expect.bind fun _ _ => h.bind fun _ hs => .pure ⟨hn, hs⟩

theorem spine_record {es : List (String × TextGrammar.Expr)}
    (hes : ∀ e ∈ es, Token.isName e.1.toList = true ∧ ReadsExpr e.2) : ReadsSpine (.record es) := by
  refine .of_atom fun level cs n hcs _ => ?_
  have htail : words (' ' :: '\x7d' :: cs) = (.symbol .rightBrace, ['\x7d']) :: words cs := by simp
  have hitem : ∀ e ∈ es, ReadsItem (.symbol .rightBrace) (recordField (expr n)) [',']
      (' ' :: '\x7d' :: cs) (fieldText level e) fun s => s.1.text = e.1 ∧ Writes s.2 e.2 := by
    intro e he more hmore
    obtain ⟨hname, hvalue⟩ := hes e he
    have hends : Apart more = true ∧ Ends (words more) := by
      rcases hmore with ⟨more, rfl⟩ | rfl
      · rw [List.cons_append, Token.words_comma]
        exact ⟨rfl, ends_cons (by decide) _ _⟩
      · rw [htail]
        exact ⟨rfl, ends_cons (by decide) _ _⟩
    rw [words_fieldText hname, headKind_cons]
    exact ⟨by decide, reads_recordField (hvalue level more n hends.1 hends.2)⟩
  have hread := (reads_listUntil (fun cs => by simp) htail (by decide) hitem).weaken
    fun ss hss => writesRecord_of_forall₂ hss
  have hopens : OpensRecord
      (words ([','].intercalate (es.map (fieldText level)) ++ ' ' :: '\x7d' :: cs)) := by
    cases es with
    | nil => exact .inl (congrArg headKind htail)
    | cons e es =>
      rw [List.map_cons, intercalate_cons, List.append_assoc,
        words_fieldText (hes e List.mem_cons_self).1]
      exact .inr ⟨rfl, rfl⟩
  have htext : (TextGrammar.Expr.record es).text level ++ cs =
      '\x7b' :: ([','].intercalate (es.map (fieldText level)) ++ ' ' :: '\x7d' :: cs) := by
    simp [TextGrammar.Expr.text, fieldTexts_eq_map]
  rw [htext, Token.words_leftBrace]
  refine (reads_record hopens hread).weaken ?_
  rintro _ ⟨span, ss, rfl, hss⟩
  exact .record hss

end TextGrammar.Source.Parser
