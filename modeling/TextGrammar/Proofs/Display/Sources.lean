import TextGrammar.Proofs.Display.Rules

/-! # Displayed grammars read back

The text of a grammar is a line for each rule, the separator and the name of the start rule. It
is read rule by rule up to the dashes, and the name behind them is the only start pattern. -/

namespace TextGrammar

/-- The text of a grammar reads back: its rules are named by identifiers, and their patterns read
back. -/
def Grammar.IsLegible (g : Grammar) : Prop :=
  ∀ r ∈ g.rules, Token.isName r.name.toList = true ∧ r.body.IsLegible g.nameOf

theorem Grammar.IsLegible.isName_start {g : Grammar} (h : g.IsLegible) :
    Token.isName (g.nameOf g.start).toList = true := by
  have hname : g.nameOf g.start = (g.rules.get ⟨g.start, g.start_lt⟩).name := by
    simp [Grammar.nameOf, Grammar.nameIn, g.start_lt]
  rw [hname]
  exact (h _ (List.get_mem g.rules ⟨g.start, g.start_lt⟩)).1

namespace Token

/-- The separator of a displayed grammar. -/
theorem words_dashes (cs : List Char) :
    words ('-' :: '-' :: '-' :: '\n' :: cs) = (.dashes, ['-', '-', '-']) :: words cs :=
  (words_of_lexeme '-' ['-', '-'] ('\n' :: cs) rfl).trans (congrArg _ (words_lineFeed cs))

end Token

namespace Source

def WritesRule (nameOf : Nat → String) (r : TextGrammar.Rule) (source : Rule) : Prop :=
  source.name.text = r.name ∧ WritesPattern nameOf source.body r.body

/-- A source writes a compiled grammar: it has the rules of the grammar, one separator, and the
name of the start rule as its start pattern. -/
structure WritesGrammar (g : Grammar) (file : File) : Prop where
  rules : List.Forall₂ (WritesRule g.nameOf) g.rules file.rules
  separators : ∃ span, file.separators = [span]
  starts : ∃ span, file.starts = [.name span (g.nameOf g.start)]

namespace Parser
open Token (words Apart Word Kind)
variable {nameOf : Nat → String}

def OpensRule (ws : List Word) : Prop :=
  headKind ws = some .identifier ∧ headKind ws.tail = some (.symbol .define)

theorem reads_startsRule {ws : List Word} (h : ¬OpensRule ws) :
    Reads startsRule ws ws fun b => b = false := by
  refine reads_at.bind ?_
  rintro _ rfl
  refine (reads_peekAt 1).bind ?_
  rintro _ rfl
  refine .pure ?_
  have htail : ws[1]?.map Prod.fst = headKind ws.tail := by rw [← List.head?_tail]; rfl
  rw [htail, Bool.and_eq_false_iff, beq_eq_false_iff_ne, beq_eq_false_iff_ne]
  by_cases hname : headKind ws = some .identifier
  · exact .inr fun hdefine => h ⟨hname, hdefine⟩
  · exact .inl hname

theorem steps_nextRule {ws rest : List Word} {name : String} {t₁ t₂ : List Char}
    {P : Pattern → Prop}
    (h : Reads (choice (unary nestingLimit)) ws ((.symbol .semicolon, t₂) :: rest) P) :
    Steps nextRule ((.identifier, name.toList) :: (.symbol .define, t₁) :: ws) rest
      fun r => r.name.text = name ∧ P r.body := by
  have hstarts : Reads startsRule ((.identifier, name.toList) :: (.symbol .define, t₁) :: ws)
      ((.identifier, name.toList) :: (.symbol .define, t₁) :: ws) fun b => b = true := by
    refine reads_at.bind ?_
    rintro _ rfl
    refine (reads_peekAt 1).bind ?_
    rintro _ rfl
    exact .pure rfl
  refine hstarts.bind ?_
  rintro _ rfl
  refine steps_some ?_
  refine (reads_name name).bind fun n hn => reads_expect.bind fun _ _ => h.length_le.bind ?_
  rintro body ⟨hbody, hle⟩
  refine reads_expect.bind fun _ _ => .pure ⟨⟨hn, hbody⟩, ?_⟩
  simp only [List.length_cons] at hle ⊢
  omega

theorem repeats_noRule {ws : List Word} {Q : List Rule → Prop} (h : ¬OpensRule ws) (hQ : Q []) :
    Repeats nextRule ws ws Q := by
  refine .stop ((reads_startsRule h).bind ?_) hQ
  rintro _ rfl
  exact .pure rfl

/-- The line of a rule is a step: its name, the sign of a definition, its pattern and a
semicolon. -/
theorem steps_ruleLine {g : Grammar} {r : TextGrammar.Rule}
    (hname : Token.isName r.name.toList = true) (hbody : r.body.IsLegible g.nameOf)
    (cs : List Char) :
    Steps nextRule (words (g.ruleLine r ++ cs)) (words cs) (WritesRule g.nameOf r) := by
  have hends : EndsChoice (words (';' :: '\n' :: cs)) := by
    rw [Token.words_semicolon]
    exact ⟨.symbol .semicolon, by decide, rfl⟩
  have hread := (pattern_reads r.body hbody).choice nestingLimit rfl hends
  rw [Token.words_semicolon, Token.words_lineFeed] at hread
  have htext : g.ruleLine r ++ cs = indent 1 ++ (r.name.toList ++ ' ' :: ':' :: '=' :: ' ' ::
      (r.body.text g.nameOf ++ ';' :: '\n' :: cs)) := by
    simp [Grammar.ruleLine]
  rw [htext, indent, Token.words_spaces, Token.words_name hname rfl, Token.words_space,
    Token.words_define, Token.words_space]
  exact steps_nextRule hread

theorem repeats_ruleLines {g : Grammar} {rs : List TextGrammar.Rule}
    (h : ∀ r ∈ rs, Token.isName r.name.toList = true ∧ r.body.IsLegible g.nameOf)
    {cs : List Char} (hcs : ¬OpensRule (words cs)) :
    Repeats nextRule (words (rs.flatMap g.ruleLine ++ cs)) (words cs)
      fun sources => List.Forall₂ (WritesRule g.nameOf) rs sources := by
  induction rs with
  | nil => exact repeats_noRule hcs .nil
  | cons r rs ih =>
    obtain ⟨hname, hbody⟩ := h r List.mem_cons_self
    rw [List.flatMap_cons, List.append_assoc]
    exact .more (steps_ruleLine hname hbody _) fun source hsource =>
      (ih fun s hs => h s (List.mem_cons_of_mem _ hs)).weaken fun _ hrest => .cons hsource hrest

section
variable {ws : List Word} {t₁ t₂ : List Char}

theorem steps_dashes :
    Steps item? ((.dashes, t₁) :: ws) ws fun item => ∃ span, item = .separator span := by
  refine reads_at.bind ?_
  rintro _ rfl
  refine reads_at.bind ?_
  rintro _ rfl
  exact reads_here.bind fun span _ => reads_advance.bind fun _ _ =>
    .pure ⟨_, rfl, ⟨span, rfl⟩, Nat.lt_succ_self _⟩

/-- A name in front of the closing brace is a pattern without alternatives. -/
theorem reads_startName (name : String) :
    Reads (choice (unary nestingLimit))
      ((.identifier, name.toList) :: (.symbol .rightBrace, t₂) :: ws)
      ((.symbol .rightBrace, t₂) :: ws) fun p => ∃ span, p = .name span name :=
  reads_single (reads_nested (reads_primary (by simp) (reads_ruleName name) (by simp))) (by simp)

theorem steps_start (name : String) :
    Steps item? ((.identifier, name.toList) :: (.symbol .rightBrace, t₂) :: ws)
      ((.symbol .rightBrace, t₂) :: ws) fun item => ∃ span, item = .start (.name span name) := by
  refine reads_at.bind ?_
  rintro _ rfl
  refine reads_at.bind ?_
  rintro _ rfl
  refine (reads_startsRule (by simp [OpensRule])).bind ?_
  rintro _ rfl
  have hstart : Reads startPattern
      ((.identifier, name.toList) :: (.symbol .rightBrace, t₂) :: ws)
      ((.symbol .rightBrace, t₂) :: ws) fun p => ∃ span, p = .name span name := by
    refine (reads_startName name).bind ?_
    rintro _ ⟨span, rfl⟩
    refine (reads_accept_other (by simp)).bind ?_
    rintro _ rfl
    exact (reads_accept_other (by simp)).bind fun _ _ => .pure ⟨span, rfl⟩
  refine hstart.bind ?_
  rintro _ ⟨span, rfl⟩
  exact .pure ⟨_, rfl, ⟨span, rfl⟩, Nat.lt_succ_self _⟩

theorem repeats_noItem {Q : List Item → Prop} (hQ : Q []) :
    Repeats item? ((.symbol .rightBrace, t₁) :: ws) ((.symbol .rightBrace, t₁) :: ws) Q := by
  refine .stop (reads_at.bind ?_) hQ
  rintro _ rfl
  exact .pure rfl

theorem repeats_items (name : String) :
    Repeats item?
      ((.dashes, t₁) :: (.identifier, name.toList) :: (.symbol .rightBrace, t₂) :: ws)
      ((.symbol .rightBrace, t₂) :: ws)
      fun items => ∃ dashes span, items = [.separator dashes, .start (.name span name)] := by
  refine .more steps_dashes ?_
  rintro _ ⟨dashes, rfl⟩
  refine .more (steps_start name) ?_
  rintro _ ⟨span, rfl⟩
  exact repeats_noItem ⟨dashes, span, rfl⟩

end

theorem words_text (g : Grammar) :
    words g.text = (.keyword .grammar, Keyword.grammar.text.toList) ::
      (.symbol .leftBrace, ['\x7b']) :: words (g.rules.flatMap g.ruleLine ++
        (indent 1 ++ '-' :: '-' :: '-' :: '\n' ::
          (indent 1 ++ ((g.nameOf g.start).toList ++ ['\n', '\x7d'])))) := by
  have htext : g.text = Keyword.grammar.text.toList ++ ' ' :: '\x7b' :: '\n' ::
      (g.rules.flatMap g.ruleLine ++ (indent 1 ++ '-' :: '-' :: '-' :: '\n' ::
        (indent 1 ++ ((g.nameOf g.start).toList ++ ['\n', '\x7d'])))) := by
    change "meta \x7b\n".toList ++ g.rules.flatMap g.ruleLine ++ indent 1 ++ "---\n".toList ++
      indent 1 ++ (g.nameOf g.start).toList ++ ['\n', '\x7d'] = _
    simp only [List.append_assoc]
    rfl
  rw [htext, Token.words_keyword .grammar rfl, Token.words_space, Token.words_leftBrace,
    Token.words_lineFeed]

/-- The words behind the rules of a displayed grammar. -/
theorem words_designation {g : Grammar} (h : g.IsLegible) :
    words (indent 1 ++ '-' :: '-' :: '-' :: '\n' ::
        (indent 1 ++ ((g.nameOf g.start).toList ++ ['\n', '\x7d']))) =
      [(.dashes, ['-', '-', '-']), (.identifier, (g.nameOf g.start).toList),
        (.symbol .rightBrace, ['\x7d'])] := by
  rw [indent, Token.words_spaces, Token.words_dashes, Token.words_spaces,
    Token.words_name h.isName_start rfl, Token.words_lineFeed, Token.words_rightBrace,
    Token.words_nil]

theorem reads_file {g : Grammar} (h : g.IsLegible) :
    Reads file (words g.text) [] (WritesGrammar g) := by
  have hdesignation := words_designation h
  have hdashes : ¬OpensRule (words (indent 1 ++ '-' :: '-' :: '-' :: '\n' ::
      (indent 1 ++ ((g.nameOf g.start).toList ++ ['\n', '\x7d'])))) := by
    rw [hdesignation]
    simp [OpensRule]
  have hrules := reads_many (repeats_ruleLines h hdashes)
  rw [hdesignation] at hrules
  rw [words_text]
  refine reads_expect.bind fun _ _ => reads_expect.bind fun _ _ => hrules.bind ?_
  intro rules hwrites
  refine reads_at.bind ?_
  rintro _ rfl
  refine reads_at.bind ?_
  rintro _ rfl
  refine (reads_many (repeats_items (g.nameOf g.start))).bind ?_
  rintro _ ⟨dashes, span, rfl⟩
  refine reads_expect.bind fun close _ => reads_peek.bind ?_
  rintro _ rfl
  refine .pure ⟨?_, ⟨dashes, rfl⟩, span, rfl⟩
  change List.Forall₂ _ g.rules (rules ++ [])
  rwa [List.append_nil]

end Parser

theorem parseFile_of_faults {source : List Char} {fault : Fault}
    (h : Faults Parser.file (.start (Token.lex source) (Text.byteLength source)) fault) :
    parseFile source = .error fault :=
  parseWith_eq_error.2 h

theorem parseFile_of_yields {source : List Char} {file : File} {c : Cursor}
    (h : Yields Parser.file (.start (Token.lex source) (Text.byteLength source)) file c) :
    parseFile source = .ok file :=
  parseWith_eq_ok.2 ⟨c, h⟩

/-- The text of a legible grammar is read as a source that writes it, unless it is nested too
deep. -/
theorem parseFile_text {g : Grammar} (h : g.IsLegible) :
    (∃ span, parseFile g.text = .error ⟨span, .nestingTooDeep⟩) ∨
      ∃ file, parseFile g.text = .ok file ∧ WritesGrammar g file := by
  rcases Parser.reads_file h (.start (Token.lex g.text) (Text.byteLength g.text)) rfl with
    ⟨span, hfault⟩ | ⟨file, c, hfile, -, -, hwrites⟩
  · exact .inl ⟨span, parseFile_of_faults hfault⟩
  · exact .inr ⟨file, parseFile_of_yields hfile, hwrites⟩

end Source

end TextGrammar
