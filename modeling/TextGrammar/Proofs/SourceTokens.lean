import TextGrammar.Proofs.Token.Bytes

/-! # The tokens of a source

The tokens of a source and the gaps around them are the source. Each token is found again in its
own text, and all of them in their texts with spaces between them. -/

namespace TextGrammar

namespace Token

namespace Tokenized
variable {start : Nat} {cs : List Char} {ts : List Token}

theorem start_le (h : Tokenized start cs ts) : ∀ t ∈ ts, start ≤ t.span.start := by
  induction h with
  | done => nofun
  | @token start gap c body rest kind ts hgap hlexeme hrest ih =>
    intro t ht
    rcases List.mem_cons.1 ht with rfl | ht
    · exact Nat.le_add_right _ _
    · have hle := ih t ht
      omega

theorem pairwise (h : Tokenized start cs ts) :
    ts.Pairwise fun t u => t.span.stop ≤ u.span.start := by
  induction h with
  | done => exact .nil
  | token hgap hlexeme hrest ih => exact .cons hrest.start_le ih

end Tokenized

/-- Where the gaps of a text start and end: in front of its first token, between two tokens, and
behind the last one. -/
def gapBounds (text : List Char) (ts : List Token) : List (Nat × Nat) :=
  (0 :: ts.map (·.span.stop)).zip (ts.map (·.span.start) ++ [Text.byteLength text])

def GapBetween (text : List Char) (bounds : Nat × Nat) : Prop :=
  ∃ front gap back, text = front ++ (gap ++ back) ∧ Gap back gap ∧
    bounds = (Text.byteLength front, Text.byteLength front + Text.byteLength gap)

theorem Tokenized.gapBetween {start : Nat} {front cs : List Char} {ts : List Token}
    (h : Tokenized start cs ts) (hstart : start = Text.byteLength front) :
    ∀ bounds ∈ (start :: ts.map (·.span.stop)).zip
      (ts.map (·.span.start) ++ [Text.byteLength (front ++ cs)]),
      GapBetween (front ++ cs) bounds := by
  induction h generalizing front with
  | @done start gap hgap =>
    intro bounds hbounds
    obtain rfl : bounds = (start, Text.byteLength (front ++ gap)) := by simpa using hbounds
    exact ⟨front, gap, [], by simp, hgap, by simp [hstart]⟩
  | @token start gap c body rest kind ts hgap hlexeme hrest ih =>
    intro bounds hbounds
    have hnext : start + Text.byteLength gap + Text.byteLength (c :: body) =
        Text.byteLength (front ++ (gap ++ c :: body)) := by
      simp only [hstart, Text.byteLength_append, Nat.add_assoc]
    rcases List.mem_cons.1 hbounds with rfl | hbounds
    · exact ⟨front, gap, _, rfl, hgap, by rw [hstart]⟩
    · have htext : front ++ (gap ++ c :: (body ++ rest)) =
          (front ++ (gap ++ c :: body)) ++ rest := by simp
      rw [htext] at hbounds ⊢
      exact ih hnext bounds hbounds

theorem Tokenized.lex_text {start : Nat} {cs : List Char} {ts : List Token}
    (h : Tokenized start cs ts) :
    ∀ t ∈ ts, lex t.text = [⟨t.kind, ⟨0, Text.byteLength t.text⟩, t.text⟩] := by
  induction h with
  | done => nofun
  | token hgap hlexeme hrest ih =>
    refine List.forall_mem_cons.2 ⟨lex_of_lexeme ?_, ih⟩
    have halone := lexeme_spaced (.inl rfl) (.inr rfl) hlexeme
    rwa [List.append_nil] at halone

theorem Tokenized.ne_nil {start : Nat} {cs : List Char} {t : Token} {ts : List Token}
    (h : Tokenized start cs (t :: ts)) : cs ≠ [] := by
  cases h
  simp

theorem Tokenized.words_spaced {start : Nat} {cs : List Char} {ts : List Token}
    (h : Tokenized start cs ts) :
    words ([' '].intercalate (ts.map (·.text))) = ts.map word := by
  induction h with
  | done => rfl
  | @token start gap c body rest kind ts hgap hlexeme hrest ih =>
    cases ts with
    | nil =>
      have halone := lexeme_spaced (.inl rfl) (.inr rfl) hlexeme
      simpa [word, words_nil] using words_of_lexeme c body [] halone
    | cons u us =>
      have hspaced := lexeme_spaced
        (.inr ⟨[' '].intercalate ((u :: us).map (·.text)), rfl⟩) (.inl hrest.ne_nil) hlexeme
      have hword := words_of_lexeme c body _ hspaced
      rw [words_space, ih] at hword
      simpa [word] using hword

end Token

open Token (lex words scan gapBounds GapBetween)

/-- The tokens of a source are the ones that are found among its bytes. They are not empty, follow
one another, and end within the source, each at the boundaries of characters, between which its
text stands. What is in front of the first one, between two of them and behind the last one is
blanks and comments. The text of a token alone is this token, and their texts with single spaces
between them are all of them. -/
theorem lex_partitions (source : List Char) :
    scan (source.flatMap String.utf8EncodeChar) =
      (lex source).map (fun t => (t.kind, t.span)) ∧
    (∀ t ∈ lex source, t.span.start < t.span.stop ∧ t.span.stop ≤ Text.byteLength source ∧
      Text.slice? t.span.start t.span.stop source = some t.text) ∧
    (lex source).Pairwise (fun t u => t.span.stop ≤ u.span.start) ∧
    (∀ bounds ∈ gapBounds source (lex source), GapBetween source bounds) ∧
    (∀ t ∈ lex source, lex t.text = [⟨t.kind, ⟨0, Text.byteLength t.text⟩, t.text⟩]) ∧
    words ([' '].intercalate ((lex source).map (·.text))) = words source := by
  have htokens := Token.lex_tokenized source
  have hstart : 0 = Text.byteLength ([] : List Char) := rfl
  refine ⟨Token.scan_utf8 source, ?_, htokens.pairwise, htokens.gapBetween hstart,
    htokens.lex_text, htokens.words_spaced⟩
  intro t ht
  obtain ⟨front, back, hstands⟩ := Token.exists_standsBehind_of_mem_lex ht
  exact ⟨hstands.start_lt_stop, hstands.stop_le, hstands.slice⟩

/-- Two minuses, two numbers with two dots between them, a comment, and a string that is cut off. -/
theorem lex_partitions_dots :
    (3 < 5 ∧ 5 ≤ 15 ∧ Text.slice? 3 5 "--1..2 // é\n\"x".toList = some ['.', '.']) ∧
    GapBetween "--1..2 // é\n\"x".toList (6, 13) ∧
    lex ['.', '.'] = [⟨.symbol .dotDot, ⟨0, 2⟩, ['.', '.']⟩] ∧
    words "- - 1 .. 2 \"x".toList = words "--1..2 // é\n\"x".toList := by
  have hdots : ⟨.symbol .dotDot, ⟨3, 5⟩, ['.', '.']⟩ ∈ lex "--1..2 // é\n\"x".toList := by
    decide +kernel
  obtain ⟨-, hspans, -, hgaps, hagain, hspaced⟩ := lex_partitions "--1..2 // é\n\"x".toList
  exact ⟨hspans _ hdots, hgaps _ (by decide +kernel), hagain _ hdots, hspaced⟩

end TextGrammar
