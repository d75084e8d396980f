import TextGrammar.Proofs.Display.Patterns

/-! # Rules read back

The texts of the patterns of a grammar are read by induction on the patterns, and then its rules,
the separator and the start rule one after the other. -/

namespace TextGrammar

namespace Pattern
variable (nameOf : Nat → String) (cs : List Char)

theorem text_leaf (l : Leaf) : (leaf l).text nameOf ++ cs = l.name.toList ++ cs := rfl

theorem text_literal (text : String) :
    (literal text).text nameOf ++ cs = Text.quoted text.toList ++ cs := rfl

theorem text_sequence (slots : Nat) (fields : List (Option Binding × Pattern)) :
    (sequence slots fields).text nameOf ++ cs =
      '[' :: (commaSeparated (fieldTexts nameOf fields) ++ ']' :: cs) := by
  change '[' :: (commaSeparated (fieldTexts nameOf fields) ++ [']']) ++ cs = _
  simp

theorem text_action (slots locals : Nat) (fields : List (Option Binding × Pattern)) (body : Expr) :
    (action slots fields locals body).text nameOf ++ cs =
      '[' :: (commaSeparated (fieldTexts nameOf fields) ++ ']' :: ' ' :: '=' :: '>' :: ' ' ::
        (body.text 1 ++ cs)) := by
  change '[' :: (commaSeparated (fieldTexts nameOf fields) ++ ']' ::
    (" => ".toList ++ body.text 1)) ++ cs = _
  simp

theorem text_repetition (p : Pattern) :
    (repetition p).text nameOf ++ cs =
      Keyword.repetition.text.toList ++ ' ' :: (p.text nameOf ++ cs) := by
  change "repeat ".toList ++ p.text nameOf ++ cs = _
  simp [Keyword.text]

theorem text_choice (alternatives : List Pattern) :
    (choice alternatives).text nameOf ++ cs =
      '(' :: ([' ', '|', ' '].intercalate (texts nameOf alternatives) ++ ')' :: cs) := by
  change '(' :: ([' ', '|', ' '].intercalate (texts nameOf alternatives) ++ [')']) ++ cs = _
  simp

theorem text_negation (p : Pattern) :
    (negation p).text nameOf ++ cs = '!' :: (p.text nameOf ++ cs) := rfl

theorem text_rule (index : Nat) :
    (rule index none).text nameOf ++ cs = (nameOf index).toList ++ cs := by
  change (nameOf index).toList ++ [] ++ cs = _
  simp

theorem text_renamed (index : Nat) (newName : String) :
    (rule index (some newName)).text nameOf ++ cs =
      (nameOf index).toList ++ ':' :: (Text.quoted newName.toList ++ cs) := by
  change (nameOf index).toList ++ (':' :: Text.quoted newName.toList) ++ cs = _
  simp

theorem texts_eq_map (ps : List Pattern) : texts nameOf ps = ps.map (text nameOf) := by
  induction ps with
  | nil => rfl
  | cons p ps ih => exact congrArg _ ih

def fieldText (f : Option Binding × Pattern) : List Char := Binding.text f.1 ++ f.2.text nameOf

theorem fieldTexts_eq_map (fields : List (Option Binding × Pattern)) :
    fieldTexts nameOf fields = fields.map (fieldText nameOf) := by
  induction fields with
  | nil => rfl
  | cons f fields ih => exact congrArg _ ih

end Pattern

namespace Source.Parser
open Token (words Apart Word Kind)
variable {nameOf : Nat → String} {cs : List Char}

def ReadsPattern (nameOf : Nat → String) (p : TextGrammar.Pattern) : Prop :=
  ∀ (cs : List Char) (n : Nat), Apart cs = true → EndsUnary (words cs) →
    Reads (unary n) (words (p.text nameOf ++ cs)) (words cs) fun q => WritesPattern nameOf q p

theorem ReadsPattern.of_body {p : TextGrammar.Pattern}
    (h : ∀ (cs : List Char) (n : Nat), Apart cs = true → EndsUnary (words cs) →
      Reads (unaryBody (unary n) (expr n)) (words (p.text nameOf ++ cs)) (words cs)
        fun q => WritesPattern nameOf q p) : ReadsPattern nameOf p := by
  intro cs n hcs hends
  cases n with
  | zero => exact .tooDeep
  | succ n => exact reads_nested (h cs n hcs hends)

theorem ReadsPattern.choice {p : TextGrammar.Pattern} (h : ReadsPattern nameOf p) (n : Nat)
    (hcs : Apart cs = true) (hends : EndsChoice (words cs)) :
    Reads (Parser.choice (unary n)) (words (p.text nameOf ++ cs)) (words cs)
      fun q => WritesPattern nameOf q p :=
  reads_single (h cs n hcs hends.unary) hends.ne_pipe

theorem isName_leaf (l : Leaf) : Token.isName l.name.toList = true := by
  cases l <;> decide +kernel

theorem words_renamed {name : String} (hname : Token.isName name.toList = true)
    (newName : String) (cs : List Char) :
    words (name.toList ++ ':' :: (Text.quoted newName.toList ++ cs)) =
      (.identifier, name.toList) :: (.symbol .colon, [':']) ::
        (.string, Text.quoted newName.toList) :: words cs := by
  have hquoted : words (':' :: (Text.quoted newName.toList ++ cs)) =
      (.symbol .colon, [':']) :: words (Text.quoted newName.toList ++ cs) :=
    Token.words_colon_quote _
  rw [Token.words_name hname rfl, hquoted, Token.words_quoted]

/-- The text of a pattern does not start with an equals sign. -/
theorem head_text {p : TextGrammar.Pattern} (hp : p.IsLegible nameOf) (cs : List Char) :
    ∃ c more, p.text nameOf ++ cs = c :: more ∧ c ≠ '=' := by
  have hname : ∀ name : List Char, Token.isName name = true → ∀ cs,
      ∃ c more, name ++ cs = c :: more ∧ c ≠ '=' := by
    intro name hname cs
    cases name with
    | nil => cases hname
    | cons c body =>
      refine ⟨c, body ++ cs, rfl, ?_⟩
      rintro rfl
      cases hname
  cases p with
  | leaf l => exact hname l.name.toList (isName_leaf l) cs
  | literal text => exact ⟨_, _, rfl, by decide⟩
  | sequence slots fields => exact ⟨_, _, rfl, by decide⟩
  | action slots fields locals body => exact ⟨_, _, rfl, by decide⟩
  | repetition p =>
    rw [TextGrammar.Pattern.text_repetition]
    exact ⟨'r', _, rfl, by decide⟩
  | choice alternatives => exact ⟨_, _, rfl, by decide⟩
  | negation p => exact ⟨_, _, rfl, by decide⟩
  | rule index newName =>
    change ∃ c more, (nameOf index).toList ++ _ ++ cs = c :: more ∧ c ≠ '='
    rw [List.append_assoc]
    exact hname _ hp.1 _

def patternOpeners : List Kind :=
  [.identifier, .string, .keyword .repetition, .symbol .leftParen, .symbol .leftBracket,
    .symbol .bang]

def OpensPattern (ws : List Word) : Prop :=
  (∃ kind ∈ patternOpeners, headKind ws = some kind) ∧ ¬OpensLabel ws

theorem opensPattern_cons {kind : Kind} (h : kind ∈ patternOpeners) (hname : kind ≠ .identifier)
    (text : List Char) (ws : List Word) : OpensPattern ((kind, text) :: ws) :=
  ⟨⟨kind, h, rfl⟩, fun hlabel => hname (Option.some.inj hlabel.1)⟩

/-- A pattern without a label does not look like one with a label. -/
theorem opensPattern_text {p : TextGrammar.Pattern} (hp : p.IsLegible nameOf)
    (hcs : Apart cs = true) (hends : EndsUnary (words cs)) :
    OpensPattern (words (p.text nameOf ++ cs)) := by
  have hname : ∀ text, OpensPattern ((.identifier, text) :: words cs) := by
    refine fun text => ⟨⟨.identifier, by decide, rfl⟩, ?_⟩
    rintro ⟨-, harrow | ⟨hcolon, -⟩⟩
    · exact hends.ne (by decide) harrow
    · exact hends.ne (by decide) hcolon
  cases p with
  | leaf l =>
    rw [TextGrammar.Pattern.text_leaf, Token.words_name (isName_leaf l) hcs]
    exact hname _
  | literal text =>
    rw [TextGrammar.Pattern.text_literal, Token.words_quoted]
    exact opensPattern_cons (by decide) (by decide) _ _
  | sequence slots fields =>
    rw [TextGrammar.Pattern.text_sequence, Token.words_leftBracket]
    exact opensPattern_cons (by decide) (by decide) _ _
  | action slots fields locals body =>
    rw [TextGrammar.Pattern.text_action, Token.words_leftBracket]
    exact opensPattern_cons (by decide) (by decide) _ _
  | repetition p =>
    rw [TextGrammar.Pattern.text_repetition, Token.words_keyword .repetition rfl]
    exact opensPattern_cons (by decide) (by decide) _ _
  | choice alternatives =>
    rw [TextGrammar.Pattern.text_choice, Token.words_leftParen]
    exact opensPattern_cons (by decide) (by decide) _ _
  | negation p =>
    obtain ⟨c, more, htext, hc⟩ := head_text (p := p) hp cs
    rw [TextGrammar.Pattern.text_negation, htext, Token.words_bang hc]
    exact opensPattern_cons (by decide) (by decide) _ _
  | rule index newName =>
    cases newName with
    | none =>
      rw [TextGrammar.Pattern.text_rule, Token.words_name hp.1 hcs]
      exact hname _
    | some newName =>
      rw [TextGrammar.Pattern.text_renamed, words_renamed hp.1]
      refine ⟨⟨.identifier, by decide, rfl⟩, ?_⟩
      rintro ⟨-, harrow | ⟨-, hstring⟩⟩
      · cases harrow
      · exact hstring rfl

theorem pattern_name {p : TextGrammar.Pattern} {name : String}
    (hname : Token.isName name.toList = true)
    (htext : ∀ cs, p.text nameOf ++ cs = name.toList ++ cs)
    (hwrites : ∀ span, WritesPattern nameOf (.name span name) p) : ReadsPattern nameOf p := by
  refine .of_body fun cs n hcs hends => ?_
  rw [htext, Token.words_name hname hcs]
  refine reads_primary (by simp) ((reads_ruleName name).weaken ?_) (hends.ne (by decide))
  rintro _ ⟨span, rfl⟩
  exact hwrites span

theorem pattern_renamed {index : Nat} {newName : String}
    (hname : Token.isName (nameOf index).toList = true) (hnew : Text.IsLegible newName) :
    ReadsPattern nameOf (.rule index (some newName)) := by
  refine .of_body fun cs n hcs hends => ?_
  rw [TextGrammar.Pattern.text_renamed, words_renamed hname]
  refine (reads_rename hnew).weaken ?_
  rintro _ ⟨span, inner, n', rfl, rfl⟩
  exact .renamed

theorem pattern_literal {text : String} (h : Text.IsLegible text) :
    ReadsPattern nameOf (.literal text) := by
  refine .of_body fun cs n hcs hends => ?_
  rw [TextGrammar.Pattern.text_literal, Token.words_quoted]
  refine reads_primary (by simp) ((reads_literal h).weaken ?_) (hends.ne (by decide))
  rintro _ ⟨span, rfl⟩
  exact .literal

theorem pattern_repetition {p : TextGrammar.Pattern} (h : ReadsPattern nameOf p) :
    ReadsPattern nameOf (.repetition p) := by
  refine .of_body fun cs n hcs hends => ?_
  rw [TextGrammar.Pattern.text_repetition, Token.words_keyword .repetition rfl, Token.words_space]
  refine (reads_repetition (h cs n hcs hends)).weaken ?_
  rintro _ ⟨span, body, rfl, hbody⟩
  exact .repetition hbody

theorem pattern_negation {p : TextGrammar.Pattern} (hp : p.IsLegible nameOf)
    (h : ReadsPattern nameOf p) : ReadsPattern nameOf (.negation p) := by
  refine .of_body fun cs n hcs hends => ?_
  obtain ⟨c, more, htext, hc⟩ := head_text hp cs
  have hread := h cs n hcs hends
  rw [htext] at hread
  rw [TextGrammar.Pattern.text_negation, htext, Token.words_bang hc]
  refine (reads_negation hread).weaken ?_
  rintro _ ⟨span, body, rfl, hbody⟩
  exact .negation hbody

/-- Behind an alternative stands another one, or the end of the choice. -/
theorem ends_alternative (nameOf : Nat → String) (ps : List TextGrammar.Pattern)
    (cs : List Char) :
    Apart ((ps.map (TextGrammar.Pattern.text nameOf)).flatMap ([' ', '|', ' '] ++ ·) ++ ')' :: cs) =
        true ∧
      EndsUnary (words ((ps.map (TextGrammar.Pattern.text nameOf)).flatMap ([' ', '|', ' '] ++ ·) ++
        ')' :: cs)) := by
  cases ps with
  | nil =>
    refine ⟨rfl, ?_⟩
    rw [List.map_nil, List.flatMap_nil, List.nil_append, Token.words_rightParen]
    exact ⟨_, by decide, rfl⟩
  | cons p ps =>
    refine ⟨rfl, ?_⟩
    simp only [List.map_cons, List.flatMap_cons, List.cons_append, List.nil_append,
      Token.words_space, Token.words_pipe]
    exact ⟨_, by decide, rfl⟩

theorem repeats_alternatives {ps : List TextGrammar.Pattern}
    (hps : ∀ p ∈ ps, ReadsPattern nameOf p) (n : Nat) (cs : List Char) :
    Repeats (alternative? (unary n))
      (words ((ps.map (TextGrammar.Pattern.text nameOf)).flatMap ([' ', '|', ' '] ++ ·) ++
        ')' :: cs))
      ((.symbol .rightParen, [')']) :: words cs) fun qs => WritesPatterns nameOf qs ps := by
  induction ps with
  | nil =>
    rw [List.map_nil, List.flatMap_nil, List.nil_append, Token.words_rightParen]
    exact repeats_noAlternative (by simp) .nil
  | cons p ps ih =>
    obtain ⟨hapart, hends⟩ := ends_alternative nameOf ps cs
    have hread := hps p List.mem_cons_self _ n hapart hends
    simp only [List.map_cons, List.flatMap_cons, List.cons_append, List.nil_append,
      List.append_assoc, Token.words_space, Token.words_pipe]
    exact .more (steps_alternative hread) fun q hq =>
      (ih fun p hp => hps p (List.mem_cons_of_mem _ hp)).weaken fun qs hqs => .cons hq hqs

theorem pattern_choice {ps : List TextGrammar.Pattern} (hlength : 2 ≤ ps.length)
    (hps : ∀ p ∈ ps, ReadsPattern nameOf p) : ReadsPattern nameOf (.choice ps) := by
  refine .of_body fun cs n hcs hends => ?_
  cases ps with
  | nil => cases hlength
  | cons p ps =>
    have hne : ps ≠ [] := by
      rintro rfl
      simp at hlength
    obtain ⟨hapart, hends'⟩ := ends_alternative nameOf ps cs
    have hfirst := hps p List.mem_cons_self _ n hapart hends'
    have hmore := (repeats_alternatives (fun p hp => hps p (List.mem_cons_of_mem _ hp)) n cs).weaken
      (Q := fun qs => qs ≠ [] ∧ WritesPatterns nameOf qs ps) fun qs hqs => ⟨hqs.ne_nil hne, hqs⟩
    rw [TextGrammar.Pattern.text_choice, TextGrammar.Pattern.texts_eq_map, List.map_cons,
      intercalate_cons, List.append_assoc, Token.words_leftParen]
    refine reads_primary (by simp) ((reads_group (reads_alternatives hfirst hmore)).weaken ?_)
      (hends.ne (by decide))
    rintro _ ⟨span, _, rfl, inner, q, qs, rfl, hq, hqs⟩
    exact .choice (.cons hq hqs)

/-- A source field writes a field: a bound one has its name as the label. -/
def WritesField (nameOf : Nat → String) (f : TextGrammar.Field) (g : Field) : Prop :=
  g.1.map (·.text) = f.1.map (·.name) ∧ WritesPattern nameOf g.2 f.2

theorem writesFields_of_forall₂ {fs : List TextGrammar.Field} {gs : List Field}
    (h : List.Forall₂ (WritesField nameOf) fs gs) : WritesFields nameOf gs fs := by
  induction h with
  | nil => exact .nil
  | @cons f g _ _ hhead _ ih =>
    rcases f with ⟨_ | ⟨name, slot⟩, p⟩ <;> rcases g with ⟨_ | label, q⟩
    · exact .free hhead.2 ih
    · cases hhead.1
    · cases hhead.1
    · obtain rfl : label.text = name := Option.some.inj hhead.1
      exact .bound hhead.2 ih

def ReadsField (nameOf : Nat → String) (f : TextGrammar.Field) : Prop :=
  (∀ b ∈ f.1, Token.isName b.name.toList = true) ∧ f.2.IsLegible nameOf ∧ ReadsPattern nameOf f.2

theorem readsItem_field {f : TextGrammar.Field} (hf : ReadsField nameOf f) (n : Nat)
    (cs : List Char) :
    ReadsItem (.symbol .rightBracket) (field (unary n)) [',', ' '] (']' :: cs)
      (TextGrammar.Pattern.fieldText nameOf f) (WritesField nameOf f) := by
  intro more hmore
  have hends : Apart more = true ∧ EndsChoice (words more) := by
    rcases hmore with ⟨more, rfl⟩ | rfl
    · rw [List.cons_append, Token.words_comma]
      exact ⟨rfl, ⟨.symbol .comma, by decide, rfl⟩⟩
    · rw [Token.words_rightBracket]
      exact ⟨rfl, ⟨.symbol .rightBracket, by decide, rfl⟩⟩
  rcases f with ⟨b, p⟩
  obtain ⟨hname, hp, hread⟩ := hf
  have hpattern := hread.choice n hends.1 hends.2
  cases b with
  | none =>
    have hopens := opensPattern_text hp hends.1 hends.2.unary
    refine ⟨?_, (reads_free hopens.2 hpattern).weaken fun g hg => ⟨by rw [hg.1]; rfl, hg.2⟩⟩
    obtain ⟨kind, hkind, hhead⟩ := hopens.1
    refine fun heq => absurd hkind ?_
    obtain rfl := Option.some.inj (hhead.symm.trans heq)
    decide
  | some b =>
    have htext : TextGrammar.Pattern.fieldText nameOf (some b, p) ++ more =
        b.name.toList ++ ' ' :: '<' :: '-' :: ' ' :: (p.text nameOf ++ more) := by
      simp [TextGrammar.Pattern.fieldText, Binding.text]
    rw [htext, Token.words_name (hname b rfl) rfl, Token.words_space, Token.words_leftArrow,
      Token.words_space]
    refine ⟨by simp, (reads_bound hpattern).weaken ?_⟩
    rintro ⟨_, q⟩ ⟨label, rfl, hlabel, hq⟩
    exact ⟨congrArg some hlabel, hq⟩

theorem reads_fields {fs : List TextGrammar.Field} (hfs : ∀ f ∈ fs, ReadsField nameOf f) (n : Nat)
    (cs : List Char) :
    Reads (listUntil (.symbol .rightBracket) (field (unary n)))
      (words (commaSeparated (TextGrammar.Pattern.fieldTexts nameOf fs) ++ ']' :: cs)) (words cs)
      fun gs => WritesFields nameOf gs fs := by
  rw [commaSeparated, TextGrammar.Pattern.fieldTexts_eq_map]
  exact (reads_listUntil (fun cs => by simp) (Token.words_rightBracket cs) (by decide)
    fun f hf => readsItem_field (hfs f hf) n cs).weaken fun gs hgs => writesFields_of_forall₂ hgs

theorem pattern_sequence {slots : Nat} {fs : List TextGrammar.Field}
    (hfs : ∀ f ∈ fs, ReadsField nameOf f) : ReadsPattern nameOf (.sequence slots fs) := by
  refine .of_body fun cs n hcs hends => ?_
  rw [TextGrammar.Pattern.text_sequence, Token.words_leftBracket]
  refine reads_primary (by simp)
    ((reads_sequence (reads_fields hfs n cs) (hends.ne (by decide))).weaken ?_)
    (hends.ne (by decide))
  rintro _ ⟨span, gs, rfl, hgs⟩
  exact .sequence hgs

theorem pattern_action {slots locals : Nat} {fs : List TextGrammar.Field} {e : TextGrammar.Expr}
    (hfs : ∀ f ∈ fs, ReadsField nameOf f) (he : ReadsExpr e) :
    ReadsPattern nameOf (.action slots fs locals e) := by
  refine .of_body fun cs n hcs hends => ?_
  have hfields := reads_fields hfs n (' ' :: '=' :: '>' :: ' ' :: (e.text 1 ++ cs))
  rw [Token.words_space, Token.words_fatArrow, Token.words_space] at hfields
  rw [TextGrammar.Pattern.text_action, Token.words_leftBracket]
  refine reads_primary (by simp)
    ((reads_action hfields (he 1 cs n hcs hends.ends)).weaken ?_) (hends.ne (by decide))
  rintro _ ⟨span, gs, s, rfl, hgs, hs⟩
  exact .action hgs hs

mutual

/-- The text of a legible pattern is read as a source pattern that writes it. -/
theorem pattern_reads : ∀ (p : TextGrammar.Pattern), p.IsLegible nameOf → ReadsPattern nameOf p
  | .leaf l, _ => pattern_name (isName_leaf l) (fun _ => rfl) fun _ => .leaf
  | .literal _, h => pattern_literal h
  | .sequence _ fields, h => pattern_sequence (patternFields_read fields h)
  | .action _ fields _ body, h =>
    pattern_action (patternFields_read fields h.1) (expr_reads body h.2).expr
  | .repetition p, h => pattern_repetition (pattern_reads p h)
  | .choice alternatives, h => pattern_choice h.1 (patterns_read alternatives h.2)
  | .negation p, h => pattern_negation h (pattern_reads p h)
  | .rule index none, h =>
    pattern_name h.1 (fun cs => TextGrammar.Pattern.text_rule nameOf cs index) fun _ => .rule
  | .rule _ (some newName), h => pattern_renamed h.1 (h.2 newName rfl)

theorem patterns_read : ∀ (ps : List TextGrammar.Pattern),
    TextGrammar.Pattern.AreLegible nameOf ps → ∀ p ∈ ps, ReadsPattern nameOf p
  | [], _ => nofun
  | p :: ps, h => List.forall_mem_cons.2 ⟨pattern_reads p h.1, patterns_read ps h.2⟩

theorem patternFields_read : ∀ (fs : List (Option Binding × TextGrammar.Pattern)),
    TextGrammar.Pattern.FieldsLegible nameOf fs → ∀ f ∈ fs, ReadsField nameOf f
  | [], _ => nofun
  | (_, p) :: fs, h =>
    List.forall_mem_cons.2 ⟨⟨h.1, h.2.1, pattern_reads p h.2.1⟩, patternFields_read fs h.2.2⟩

end

end Source.Parser

end TextGrammar
