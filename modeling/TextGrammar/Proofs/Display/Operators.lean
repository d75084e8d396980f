import TextGrammar.Proofs.Display.Atoms

/-! # Suffixes and operators read back

An expression ends where neither a suffix nor an operator follows. Binary expressions are written
in parentheses, so each has two operands that are no binary expressions themselves. -/

namespace TextGrammar.Operator
open Token (words)

def kind : Operator → Token.Kind
  | .add => .symbol .plus
  | .sub => .symbol .minus
  | .mul => .symbol .star
  | .equal => .symbol .equal
  | .notEqual => .symbol .notEqual
  | .less => .symbol .less
  | .lessEqual => .symbol .lessEqual
  | .greater => .symbol .greater
  | .greaterEqual => .symbol .greaterEqual

theorem words_symbol (op : Operator) (cs : List Char) :
    words (op.symbol.toList ++ ' ' :: cs) = (op.kind, op.symbol.toList) :: words cs := by
  rw [← Token.words_space cs]
  cases op
  case add => exact Token.words_of_lexeme '+' [] _ rfl
  case sub => exact Token.words_of_lexeme '-' [] _ rfl
  case mul => exact Token.words_of_lexeme '*' [] _ rfl
  case equal => exact Token.words_of_lexeme '=' ['='] _ rfl
  case notEqual => exact Token.words_of_lexeme '!' ['='] _ rfl
  case less => exact Token.words_of_lexeme '<' [] _ rfl
  case lessEqual => exact Token.words_of_lexeme '<' ['='] _ rfl
  case greater => exact Token.words_of_lexeme '>' [] _ rfl
  case greaterEqual => exact Token.words_of_lexeme '>' ['='] _ rfl

theorem kind_ne (op : Operator) :
    op.kind ≠ .symbol .leftParen ∧ op.kind ≠ .symbol .leftBracket ∧ op.kind ≠ .symbol .dot := by
  cases op <;> decide

end TextGrammar.Operator

namespace TextGrammar.Source.Parser
open Token (Word Kind)
variable {ws mid rest : List Word} {text : List Char} {atom expr : Parser Expr}

/-- An atom and its suffixes are read if the suffixes make of it what is asked for. -/
theorem reads_postfixed {P Q : Expr → Prop} (hatom : Reads atom ws mid P)
    (hsuffixes : Repeats (suffix? expr) mid rest fun suffixes =>
      ∀ s, P s → Q (suffixes.foldl Suffix.apply s)) :
    Reads (postfixed atom expr) ws rest Q :=
  reads_keepDepth (hatom.bind fun s hs =>
    (reads_many hsuffixes).bind fun _ hmore => .pure (hmore s hs))

theorem repeats_noSuffix {Q : List Suffix → Prop}
    (hbracket : headKind ws ≠ some (.symbol .leftBracket))
    (hdot : headKind ws ≠ some (.symbol .dot)) (hQ : Q []) : Repeats (suffix? expr) ws ws Q := by
  refine .stop (reads_at.bind ?_) hQ
  rintro _ rfl
  rw [beq_eq_false_iff_ne.2 hbracket]
  refine reads_at.bind ?_
  rintro _ rfl
  rw [beq_eq_false_iff_ne.2 hdot]
  exact .pure rfl

theorem repeats_index {P : Expr → Prop} {Q : List Suffix → Prop} {text' : List Char}
    (hposition : Reads expr ws ((.symbol .rightBracket, text') :: mid) P)
    (hmore : ∀ position stop, P position →
      Repeats (suffix? expr) mid rest fun suffixes => Q (.index position stop :: suffixes)) :
    Repeats (suffix? expr) ((.symbol .leftBracket, text) :: ws) rest Q := by
  have hfirst : Steps (suffix? expr) ((.symbol .leftBracket, text) :: ws) mid fun x =>
      ∃ position stop, x = .index position stop ∧ P position := by
    refine reads_at.bind ?_
    rintro _ rfl
    rw [headKind_cons, beq_self_eq_true, if_pos rfl]
    refine reads_descend.bind fun _ _ => reads_advance.bind fun _ _ => ?_
    refine hposition.length_le.bind ?_
    rintro position ⟨hP, hle⟩
    refine reads_expect.bind fun _ _ => reads_last.bind fun stop _ => .pure ?_
    rw [List.length_cons] at hle ⊢
    exact ⟨_, rfl, ⟨position, stop, rfl, hP⟩, by omega⟩
  refine .more hfirst ?_
  rintro _ ⟨position, stop, rfl, hP⟩
  exact hmore position stop hP

theorem repeats_field {Q : List Suffix → Prop} (name : String)
    (hmore : ∀ n stop, n.text = name →
      Repeats (suffix? expr) ws rest fun suffixes => Q (.field n stop :: suffixes)) :
    Repeats (suffix? expr) ((.symbol .dot, text) :: (.identifier, name.toList) :: ws) rest Q := by
  have hfirst : Steps (suffix? expr) ((.symbol .dot, text) :: (.identifier, name.toList) :: ws) ws
      fun x => ∃ n stop, x = .field n stop ∧ n.text = name := by
    refine reads_at.bind ?_
    rintro _ rfl
    rw [headKind_cons]
    refine reads_at.bind ?_
    rintro _ rfl
    rw [headKind_cons, beq_self_eq_true, if_pos rfl]
    refine reads_descend.bind fun _ _ => reads_advance.bind fun _ _ => ?_
    refine (reads_name name).bind fun n hn => reads_last.bind fun stop _ => .pure ?_
    rw [List.length_cons, List.length_cons]
    exact ⟨_, rfl, ⟨n, stop, rfl, hn⟩, by omega⟩
  refine .more hfirst ?_
  rintro _ ⟨n, stop, rfl, hn⟩
  exact hmore n stop hn

section
variable {operator? : Option Kind → Option Operator} {operand : Parser Expr} {P Q : Expr → Prop}

theorem repeats_noLink {Q : List (Operator × Expr) → Prop} (h : operator? (headKind ws) = none)
    (hQ : Q []) : Repeats (link? operator? operand) ws ws Q := by
  refine .stop (reads_peek.bind ?_) hQ
  rintro _ rfl
  rw [h]
  exact .pure rfl

theorem reads_operand (h : Reads operand ws rest Q) (hrest : operator? (headKind rest) = none) :
    Reads (chain operator? operand) ws rest Q :=
  reads_keepDepth (h.bind fun _ hs =>
    (reads_many (repeats_noLink hrest (Q := fun links => links = []) rfl)).bind
      fun links hlinks => .pure (by rw [hlinks]; exact hs))

/-- A chain of two operands is their binary expression. -/
theorem reads_link {kind : Kind} {op : Operator}
    (hlhs : Reads operand ws ((kind, text) :: mid) P) (hop : operator? (some kind) = some op)
    (hrhs : Reads operand mid rest Q) (hrest : operator? (headKind rest) = none) :
    Reads (chain operator? operand) ws rest fun s =>
      ∃ span l r, s = .binary span op l r ∧ P l ∧ Q r := by
  have hlink : Steps (link? operator? operand) ((kind, text) :: mid) rest fun x =>
      x.1 = op ∧ Q x.2 := by
    refine reads_peek.bind ?_
    rintro _ rfl
    rw [headKind_cons, hop]
    refine reads_advance.bind fun _ _ => reads_descend.bind fun _ _ => ?_
    refine hrhs.length_le.bind ?_
    rintro r ⟨hr, hle⟩
    exact .pure ⟨_, rfl, ⟨rfl, hr⟩, Nat.lt_succ_of_le hle⟩
  have hlinks : Repeats (link? operator? operand) ((kind, text) :: mid) rest fun links =>
      ∃ r, links = [(op, r)] ∧ Q r := by
    refine .more hlink ?_
    rintro ⟨_, r⟩ ⟨rfl, hr⟩
    exact repeats_noLink hrest ⟨r, rfl, hr⟩
  refine reads_keepDepth (hlhs.bind fun l hl => (reads_many hlinks).bind ?_)
  rintro _ ⟨r, rfl, hr⟩
  exact .pure ⟨_, l, r, rfl, hl, hr⟩

end

def enders : List Kind :=
  [.symbol .comma, .symbol .rightParen, .symbol .rightBracket, .symbol .rightBrace,
    .symbol .semicolon, .symbol .dotDot, .symbol .leftBrace, .symbol .pipe]

def Ends (ws : List Word) : Prop := ∃ kind ∈ enders, headKind ws = some kind

theorem ends_cons {kind : Kind} (h : kind ∈ enders) (text : List Char) (ws : List Word) :
    Ends ((kind, text) :: ws) := ⟨kind, h, rfl⟩

/-- No operator, suffix or argument list follows where an expression ends. -/
theorem Ends.none {ws : List Word} (h : Ends ws) :
    comparison? (headKind ws) = none ∧ sum? (headKind ws) = none ∧
      product? (headKind ws) = none ∧ headKind ws ≠ some (.symbol .leftBracket) ∧
      headKind ws ≠ some (.symbol .dot) ∧ headKind ws ≠ some (.symbol .leftParen) := by
  obtain ⟨kind, hkind, hws⟩ := h
  rw [hws]
  have hall : ∀ k ∈ enders, comparison? (some k) = Option.none ∧ sum? (some k) = Option.none ∧
      product? (some k) = Option.none ∧ some k ≠ some (.symbol .leftBracket) ∧
      some k ≠ some (.symbol .dot) ∧ some k ≠ some (.symbol .leftParen) := by
    decide
  exact hall kind hkind

/-- An operand behind which the expression ends is the whole expression. -/
theorem reads_comparison {Q : Expr → Prop} (h : Reads (postfixed atom expr) ws rest Q)
    (hrest : Ends rest) : Reads (comparison atom expr) ws rest Q := by
  obtain ⟨hcomparison, hsum, hproduct, -⟩ := hrest.none
  refine (reads_operand (reads_operand h hproduct) hsum).bind fun s hs => reads_peek.bind ?_
  rintro _ rfl
  rw [hcomparison]
  exact .pure hs

/-- An operator is one of products, of sums, or a comparison. -/
theorem product_sum_or_comparison (op : Operator) :
    product? (some op.kind) = some op ∨
      product? (some op.kind) = none ∧ sum? (some op.kind) = some op ∨
      product? (some op.kind) = none ∧ sum? (some op.kind) = none ∧
        comparison? (some op.kind) = some op := by
  cases op <;> decide

/-- Two operands with an operator between them are their binary expression. -/
theorem reads_binary {op : Operator} {P Q : Expr → Prop}
    (hlhs : Reads (postfixed atom expr) ws ((op.kind, text) :: mid) P)
    (hrhs : Reads (postfixed atom expr) mid rest Q) (hrest : Ends rest) :
    Reads (comparison atom expr) ws rest fun s =>
      ∃ span l r, s = .binary span op l r ∧ P l ∧ Q r := by
  obtain ⟨hcomparison, hsum, hproduct, -⟩ := hrest.none
  rcases product_sum_or_comparison op with hop | ⟨hnone, hop⟩ | ⟨hnone, hnone', hop⟩
  · refine (reads_operand (reads_link hlhs hop hrhs hproduct) hsum).bind fun s hs =>
      reads_peek.bind ?_
    rintro _ rfl
    rw [hcomparison]
    exact .pure hs
  · refine (reads_link (reads_operand hlhs hnone) hop (reads_operand hrhs hproduct) hsum).bind
      fun s hs => reads_peek.bind ?_
    rintro _ rfl
    rw [hcomparison]
    exact .pure hs
  · refine (reads_operand (reads_operand hlhs hnone) hnone').bind fun l hl => reads_peek.bind ?_
    rintro _ rfl
    rw [headKind_cons, hop]
    refine reads_advance.bind fun _ _ => ?_
    refine (reads_operand (reads_operand hrhs hproduct) hsum).bind fun r hr => ?_
    exact .pure ⟨_, l, r, rfl, hl, hr⟩

end TextGrammar.Source.Parser
