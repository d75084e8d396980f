import TextGrammar.Proofs.Display.Literals
import TextGrammar.Proofs.Display.Reading
import TextGrammar.Proofs.Display.Writing

/-! # Atoms of an expression read back

Every expression but a binary one is an atom with suffixes. An atom is known by its first word,
or by the first three where a brace opens a record or a block. -/

namespace TextGrammar.Number

theorem IsDecimal.words_eq {text whole fraction cs : List Char} {negative : Bool}
    (h : IsDecimal text negative whole fraction) (hcs : Token.Apart cs = true) :
    Token.words (text ++ cs) =
      (if negative = true then [(.symbol .minus, ['-'])] else []) ++
        (.number, whole ++ '.' :: fraction) :: Token.words cs := by
  have hwords := Token.words_decimal h.whole_ne h.whole_digits h.fraction_ne h.fraction_digits hcs
  have hall := h.whole_digits
  rw [h.text_eq]
  cases whole with
  | nil => exact absurd rfl h.whole_ne
  | cons d whole =>
    rw [List.all_cons, Bool.and_eq_true] at hall
    exact Token.words_signed hall.1 (by simpa using hwords) negative

end TextGrammar.Number

namespace TextGrammar.Source.Parser
open Token (Word Kind)
variable {ws rest : List Word}

theorem reads_identifier {name : List Char} :
    Reads identifier ((.identifier, name) :: ws) ws fun n => n.text = String.ofList name :=
  reads_expect.bind fun _ ht => .pure (congrArg String.ofList ht.2)

theorem reads_name (name : String) :
    Reads identifier ((.identifier, name.toList) :: ws) ws fun n => n.text = name :=
  reads_identifier.weaken fun _ hn => hn.trans String.ofList_toList

theorem reads_string {text : String} (h : Text.IsLegible text) :
    Reads string ((.string, Text.quoted text.toList) :: ws) ws fun n => n.text = text := by
  refine reads_expect.bind ?_
  rintro t ⟨-, ht⟩
  rw [ht, Literal.decode_quoted h]
  exact .pure String.ofList_toList

theorem number_integer {t : Token} {n : Int64} (ht : t.text = Nat.toDigits 10 n.toInt.natAbs)
    (span : Span) : number t (n.toInt < 0) span = pure (.int span n) := by
  have hpoint : (Nat.toDigits 10 n.toInt.natAbs).contains '.' = false := by
    rw [List.contains_eq_mem, decide_eq_false_iff_not]
    intro hmem
    cases Nat.isDigit_of_mem_toDigits (by decide) (by decide) hmem
  simp only [number, ht, hpoint, Bool.false_eq_true, if_false, decide_eq_true_eq,
    Number.readInteger?_digits]

theorem number_float {t : Token} {x : Float} {negative : Bool} {whole fraction : List Char}
    (ht : t.text = whole ++ '.' :: fraction)
    (hx : Number.readFloat? (if negative then '-' :: t.text else t.text) = some x) (span : Span) :
    number t negative span = pure (.float span x) := by
  have hpoint : t.text.contains '.' = true := by simp [ht]
  simp only [number, hpoint, if_true, hx]

section
variable {expr : Parser Expr} {block : Parser Block} {Q : Expr → Prop}

/-- A number, which a minus may precede, is an atom. -/
theorem reads_number {negative : Bool} {text : List Char}
    (h : ∀ t span, t.text = text → ∃ s, number t negative span = pure s ∧ Q s) :
    Reads (atom expr block)
      ((if negative then [(.symbol .minus, ['-'])] else []) ++ (.number, text) :: ws) ws Q := by
  cases negative with
  | false =>
    refine reads_here.bind fun start _ => reads_peek.bind ?_
    rintro _ rfl
    refine reads_expect.bind ?_
    rintro t ⟨-, ht⟩
    obtain ⟨s, hs, hQ⟩ := h t (start.join t.span) ht
    rw [hs]
    exact .pure hQ
  | true =>
    refine reads_here.bind fun start _ => reads_peek.bind ?_
    rintro _ rfl
    refine (reads_peekAt 1).bind ?_
    rintro _ rfl
    refine reads_advance.bind fun _ _ => reads_expect.bind ?_
    rintro t ⟨-, ht⟩
    obtain ⟨s, hs, hQ⟩ := h t (start.join t.span) ht
    rw [hs]
    exact .pure hQ

theorem reads_str {text : String} (h : Text.IsLegible text) :
    Reads (atom expr block) ((.string, Text.quoted text.toList) :: ws) ws
      fun s => ∃ span, s = .str span text := by
  refine reads_here.bind fun start _ => reads_peek.bind ?_
  rintro _ rfl
  refine (reads_string h).bind ?_
  rintro s rfl
  exact (reads_spanFrom start).bind fun span _ => .pure ⟨span, rfl⟩

theorem reads_true {text : List Char} :
    Reads (atom expr block) ((.keyword .trueValue, text) :: ws) ws
      fun s => ∃ span, s = .bool span true := by
  refine reads_here.bind fun start _ => reads_peek.bind ?_
  rintro _ rfl
  exact reads_advance.bind fun _ _ =>
    (reads_spanFrom start).bind fun span _ => .pure ⟨span, rfl⟩

theorem reads_false {text : List Char} :
    Reads (atom expr block) ((.keyword .falseValue, text) :: ws) ws
      fun s => ∃ span, s = .bool span false := by
  refine reads_here.bind fun start _ => reads_peek.bind ?_
  rintro _ rfl
  exact reads_advance.bind fun _ _ =>
    (reads_spanFrom start).bind fun span _ => .pure ⟨span, rfl⟩

theorem reads_null {text : List Char} :
    Reads (atom expr block) ((.keyword .nullValue, text) :: ws) ws
      fun s => ∃ span, s = .null span := by
  refine reads_here.bind fun start _ => reads_peek.bind ?_
  rintro _ rfl
  exact reads_advance.bind fun _ _ =>
    (reads_spanFrom start).bind fun span _ => .pure ⟨span, rfl⟩

/-- A name that no parenthesis follows is an atom. -/
theorem reads_nameAtom (name : String) (hws : headKind ws ≠ some (.symbol .leftParen)) :
    Reads (atom expr block) ((.identifier, name.toList) :: ws) ws
      fun s => ∃ span, s = .name span name := by
  refine reads_here.bind fun start _ => reads_peek.bind ?_
  rintro _ rfl
  refine (reads_name name).bind ?_
  rintro n rfl
  refine (reads_accept_other hws).bind ?_
  rintro _ rfl
  exact (reads_spanFrom start).bind fun span _ => .pure ⟨span, rfl⟩

theorem reads_call {callee : String} {text : List Char} {R : List Expr → Prop}
    (h : Reads (listUntil (.symbol .rightParen) expr) ws rest R) :
    Reads (atom expr block) ((.identifier, callee.toList) :: (.symbol .leftParen, text) :: ws) rest
      fun s => ∃ span name ss, s = .call span name ss ∧ name.text = callee ∧ R ss := by
  refine reads_here.bind fun start _ => reads_peek.bind ?_
  rintro _ rfl
  refine (reads_name callee).bind fun n hn => reads_accept.bind ?_
  rintro _ rfl
  refine h.bind fun ss hss => ?_
  exact (reads_spanFrom start).bind fun span _ => .pure ⟨span, n, ss, rfl, hn, hss⟩

theorem reads_parens {text text' : List Char}
    (h : Reads expr ws ((.symbol .rightParen, text') :: rest) Q) :
    Reads (atom expr block) ((.symbol .leftParen, text) :: ws) rest
      fun s => ∃ span inner, s = inner.withSpan span ∧ Q inner := by
  refine reads_here.bind fun start _ => reads_peek.bind ?_
  rintro _ rfl
  refine reads_advance.bind fun _ _ => h.bind fun inner hinner => reads_expect.bind fun _ _ => ?_
  exact (reads_spanFrom start).bind fun span _ => .pure ⟨span, inner, rfl, hinner⟩

theorem reads_list {text : List Char} {R : List Expr → Prop}
    (h : Reads (listUntil (.symbol .rightBracket) expr) ws rest R) :
    Reads (atom expr block) ((.symbol .leftBracket, text) :: ws) rest
      fun s => ∃ span ss, s = .list span ss ∧ R ss := by
  refine reads_here.bind fun start _ => reads_peek.bind ?_
  rintro _ rfl
  refine reads_advance.bind fun _ _ => h.bind fun ss hss => ?_
  exact (reads_spanFrom start).bind fun span _ => .pure ⟨span, ss, rfl, hss⟩

def OpensRecord (ws : List Word) : Prop :=
  headKind ws = some (.symbol .rightBrace) ∨
    headKind ws = some .identifier ∧ headKind ws.tail = some (.symbol .colon)

theorem reads_startsRecord {w : Word} :
    Reads startsRecord (w :: ws) (w :: ws) fun b => b = true ↔ OpensRecord ws := by
  refine (reads_peekAt 1).bind ?_
  rintro _ rfl
  refine (reads_peekAt 2).bind ?_
  rintro _ rfl
  refine .pure ?_
  rcases ws with _ | ⟨first, _ | ⟨second, ws⟩⟩ <;> simp [OpensRecord, headKind]

theorem reads_record {text : List Char} {R : List (Name × Expr) → Prop} (hopens : OpensRecord ws)
    (h : Reads (listUntil (.symbol .rightBrace) (recordField expr)) ws rest R) :
    Reads (atom expr block) ((.symbol .leftBrace, text) :: ws) rest
      fun s => ∃ span ss, s = .record span ss ∧ R ss := by
  refine reads_here.bind fun start _ => reads_peek.bind ?_
  rintro _ rfl
  refine reads_startsRecord.bind fun b hb => ?_
  rw [hb.2 hopens]
  refine reads_advance.bind fun _ _ => h.bind fun ss hss => ?_
  exact (reads_spanFrom start).bind fun span _ => .pure ⟨span, ss, rfl, hss⟩

theorem reads_block {text : List Char} {R : Block → Prop} (hopens : ¬OpensRecord ws)
    (h : Reads block ((.symbol .leftBrace, text) :: ws) rest R) :
    Reads (atom expr block) ((.symbol .leftBrace, text) :: ws) rest
      fun s => ∃ span b, s = .block span b ∧ R b := by
  refine reads_here.bind fun start _ => reads_peek.bind ?_
  rintro _ rfl
  refine reads_startsRecord.bind fun b hb => ?_
  rw [Bool.eq_false_iff.2 (mt hb.1 hopens)]
  refine h.bind fun body hbody => ?_
  exact (reads_spanFrom start).bind fun span _ => .pure ⟨span, body, rfl, hbody⟩

end

end TextGrammar.Source.Parser
