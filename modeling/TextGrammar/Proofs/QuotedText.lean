import TextGrammar.Grammar.Display
import TextGrammar.Proofs.Display.Writing
import TextGrammar.Proofs.Token.Lexemes

/-! # Quoted text read back

Quoted text is one string token. What it stands for is the text that was quoted, unless a character
of it is written as its number, for which a string literal has no escape. -/

namespace TextGrammar

namespace Literal
variable {front back : List Char} {c : Char}

/-- The first character that is written as its number is an unknown escape. -/
theorem decode_numbered (hfront : ∀ d ∈ front, Text.quotedChar d ≠ Text.numbered d)
    (hc : Text.quotedChar c = Text.numbered c) :
    decode (Text.quoted (front ++ c :: back)) =
      .error (Text.byteLength ('"' :: (front.flatMap Text.quotedChar ++ ['\\'])),
        .unknownEscape 'u') := by
  have hread := decodeBody_append (fun d hd => Text.spells_quotedChar (hfront d hd)) 1
    ((c :: back).flatMap Text.quotedChar)
  have hescape : ∀ start, decodeBody start ((c :: back).flatMap Text.quotedChar) =
      .error (start + 1, .unknownEscape 'u') := by
    intro start
    rw [List.flatMap_cons, hc]
    rfl
  have hoffset : 1 + Text.byteLength (front.flatMap Text.quotedChar) + 1 =
      Text.byteLength ('"' :: (front.flatMap Text.quotedChar ++ ['\\'])) := by
    rw [Text.byteLength_cons, Text.byteLength_append, Nat.add_assoc]
    rfl
  rw [Text.quoted, decode_enclosed, List.flatMap_append, hread, hescape, hoffset]
  rfl

end Literal

namespace Text

/-- Before the first character that is written as its number none is. -/
theorem exists_first_numbered {text : List Char} (h : ∃ c ∈ text, quotedChar c = numbered c) :
    ∃ front c back, text = front ++ c :: back ∧ (∀ d ∈ front, quotedChar d ≠ numbered d) ∧
      quotedChar c = numbered c := by
  obtain ⟨front, rest, rfl, hall, -, hrest⟩ :=
    Token.exists_run (fun d => decide (quotedChar d ≠ numbered d)) text
  have hfront : ∀ d ∈ front, quotedChar d ≠ numbered d :=
    fun d hd => of_decide_eq_true (List.all_eq_true.1 hall d hd)
  cases rest with
  | nil =>
    obtain ⟨c, hc, hnumbered⟩ := h
    rw [List.append_nil] at hc
    exact absurd hnumbered (hfront c hc)
  | cons c back => exact ⟨front, c, back, rfl, hfront, by simpa using hrest c rfl⟩

theorem exists_quoted_numbered (front back : List Char) {c : Char}
    (hc : quotedChar c = numbered c) :
    ∃ behind, quoted (front ++ c :: back) =
      ('"' :: (front.flatMap quotedChar ++ ['\\'])) ++ 'u' :: behind := by
  refine ⟨(numbered c).drop 2 ++ (back.flatMap quotedChar ++ ['"']), ?_⟩
  simp [quoted, List.flatMap_append, hc, numbered]

end Text

open Text (quoted quotedChar numbered byteLength)

/-- How text is quoted in the display of a value and of a grammar, and how it is read. Quoted text
is a single token, a string. If no character is written as its number, the text is found in it.
Otherwise the letter of the first such number is reported as an escape that there is not. -/
theorem quoted_reading (s : String) :
    ((Value.str s).text = quoted s.toList ∧
      ∀ nameOf, (Pattern.literal s).text nameOf = quoted s.toList ∧
        ∀ index, (Pattern.rule index (some s)).text nameOf =
          (nameOf index).toList ++ ':' :: quoted s.toList) ∧
    Token.lex (quoted s.toList) =
      [⟨.string, ⟨0, byteLength (quoted s.toList)⟩, quoted s.toList⟩] ∧
    (Text.IsLegible s →
      Literal.extract (quoted s.toList) ⟨0, byteLength (quoted s.toList)⟩ = .ok s.toList) ∧
    ((∃ c ∈ s.toList, quotedChar c = numbered c) →
      ∃ front c back, s.toList = front ++ c :: back ∧
        (∀ d ∈ front, quotedChar d ≠ numbered d) ∧ quotedChar c = numbered c ∧
        (∃ behind, quoted s.toList =
          ('"' :: (front.flatMap quotedChar ++ ['\\'])) ++ 'u' :: behind) ∧
        Literal.extract (quoted s.toList) ⟨0, byteLength (quoted s.toList)⟩ =
          .error (byteLength ('"' :: (front.flatMap quotedChar ++ ['\\'])),
            .unknownEscape 'u')) ∧
    (Literal.Fault.unknownEscape 'u').message = "Unknown character escape 'u'" := by
  refine ⟨⟨rfl, fun nameOf => ⟨rfl, fun index => rfl⟩⟩,
    Token.lex_enclosed (.flatMap fun c _ => Text.enclosed_quotedChar c), ?_, ?_, ?_⟩
  · intro h
    rw [Literal.extract_all, Literal.decode_quoted h]
  · intro h
    obtain ⟨front, c, back, hsplit, hfront, hc⟩ := Text.exists_first_numbered h
    refine ⟨front, c, back, hsplit, hfront, hc, ?_, ?_⟩
    · rw [hsplit]
      exact Text.exists_quoted_numbered front back hc
    · rw [Literal.extract_all, hsplit, Literal.decode_numbered hfront hc]
  · decide +kernel

/-- A text with quotes, backslashes and letters beyond ASCII is found again; one with a delete
character is not, because of what stands at its seventh byte. -/
theorem quoted_reading_delete :
    Literal.extract (quoted "\"é\\".toList) ⟨0, byteLength (quoted "\"é\\".toList)⟩ =
      .ok "\"é\\".toList ∧
    ∃ front c back, "\"é\x7f".toList = front ++ c :: back ∧
      (∀ d ∈ front, quotedChar d ≠ numbered d) ∧ quotedChar c = numbered c ∧
      (∃ behind, quoted "\"é\x7f".toList =
        ('"' :: (front.flatMap quotedChar ++ ['\\'])) ++ 'u' :: behind) ∧
      Literal.extract (quoted "\"é\x7f".toList) ⟨0, byteLength (quoted "\"é\x7f".toList)⟩ =
        .error (byteLength ('"' :: (front.flatMap quotedChar ++ ['\\'])), .unknownEscape 'u') :=
  have hlegible : Text.IsLegible "\"é\\" := by decide +kernel
  ⟨(quoted_reading _).2.2.1 hlegible,
    (quoted_reading _).2.2.2.1 ⟨'\x7f', by decide +kernel, by decide +kernel⟩⟩

end TextGrammar
