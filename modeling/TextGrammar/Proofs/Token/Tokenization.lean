import TextGrammar.Proofs.Token.Lexemes

/-! # Sources as tokens and gaps

A source is cut into tokens with gaps in front of, between and behind them. A gap is made of blanks
and comments. -/

namespace TextGrammar.Token

/-- A text between tokens, with some text behind it: ASCII blanks, and comments, each of which goes
on up to a line feed or the end. -/
inductive Gap (back : List Char) : List Char → Prop
  | nil : Gap back []
  | blank {c : Char} {cs : List Char} (hc : c ∈ [' ', '\t', '\n', '\r', '\x0c'])
    (h : Gap back cs) : Gap back (c :: cs)
  | comment {note cs : List Char} (hnote : '\n' ∉ note)
    (hend : ∀ c ∈ (cs ++ back).head?, c = '\n') (h : Gap back cs) :
    Gap back ('/' :: '/' :: (note ++ cs))

theorem mem_of_isBlank {c : Char} (h : isBlank c = true) :
    c ∈ [' ', '\t', '\n', '\r', '\x0c'] := by
  simpa [isBlank, or_assoc] using h

theorem Gap.blanks {back gap front : List Char} (h : Gap back gap)
    (hfront : front.all isBlank = true) : Gap back (front ++ gap) := by
  induction front with
  | nil => exact h
  | cons c front ih =>
    rw [List.all_cons, Bool.and_eq_true] at hfront
    exact .blank (mem_of_isBlank hfront.1) (ih hfront.2)

/-- Blanks and comments alone give no token. -/
theorem lexeme_eq_none {c : Char} {cs : List Char} {n : Nat} (h : lexeme c cs = (none, n)) :
    (isBlank c = true ∧ runLength isBlank cs = n) ∨
      (c = '/' ∧ cs.head? = some '/' ∧ runLength (· != '\n') cs = n) := by
  by_cases hblank : isBlank c = true
  · rw [lexeme, if_pos hblank, Prod.mk.injEq] at h
    exact .inl ⟨hblank, h.2⟩
  by_cases hnote : (c == '/' && cs.head? == some '/') = true
  · rw [lexeme, if_neg hblank, if_pos hnote, Prod.mk.injEq] at h
    rw [Bool.and_eq_true, beq_iff_eq, beq_iff_eq] at hnote
    exact .inr ⟨hnote.1, hnote.2, h.2⟩
  rw [lexeme, if_neg hblank, if_neg hnote] at h
  split at h
  · cases h
  split at h
  · cases h
  split at h
  · dsimp only at h
    split at h <;> cases h
  split at h
  · cases h
  · split at h <;> cases h

/-- A lexeme that gives no token goes into the gap that it stands in front of. -/
theorem Gap.cons {back gap body : List Char} {c : Char} (h : Gap back gap)
    (hlexeme : lexeme c (body ++ (gap ++ back)) = (none, body.length)) :
    Gap back (c :: (body ++ gap)) := by
  obtain ⟨hblank, hrun⟩ | ⟨rfl, hhead, hrun⟩ := lexeme_eq_none hlexeme
  · obtain ⟨front, more, hsplit, hall, hlength, -⟩ := exists_run isBlank (body ++ (gap ++ back))
    obtain ⟨rfl, -⟩ := List.append_inj hsplit (by omega)
    exact .blank (mem_of_isBlank hblank) (h.blanks hall)
  · obtain ⟨front, more, hsplit, hall, hlength, hend⟩ :=
      exists_run (· != '\n') (body ++ (gap ++ back))
    obtain ⟨rfl, rfl⟩ := List.append_inj hsplit (by omega)
    cases body with
    | nil => exact absurd (hend '/' hhead) nofun
    | cons d note =>
      obtain rfl : d = '/' := by simpa using hhead
      refine .comment (fun hfeed => ?_) (fun c hc => by simpa using hend c hc) h
      simpa using List.all_eq_true.1 hall '\n' (List.mem_cons_of_mem _ hfeed)

/-- A text that starts at a byte offset is tokens with gaps in front of, between and behind them.
Each token is the lexeme that is found at its place. -/
inductive Tokenized : Nat → List Char → List Token → Prop
  | done {start : Nat} {gap : List Char} (hgap : Gap [] gap) : Tokenized start gap []
  | token {start : Nat} {gap : List Char} {c : Char} {body rest : List Char} {kind : Kind}
    {ts : List Token} (hgap : Gap (c :: (body ++ rest)) gap)
    (hlexeme : lexeme c (body ++ rest) = (some kind, body.length))
    (hrest : Tokenized (start + Text.byteLength gap + Text.byteLength (c :: body)) rest ts) :
    Tokenized start (gap ++ c :: (body ++ rest))
      (⟨kind, ⟨start + Text.byteLength gap,
        start + Text.byteLength gap + Text.byteLength (c :: body)⟩, c :: body⟩ :: ts)

namespace Tokenized
variable {start : Nat} {cs : List Char} {ts : List Token}

/-- A lexeme that gives no token is skipped. -/
theorem skip {c : Char} {body : List Char}
    (h : Tokenized (start + Text.byteLength (c :: body)) cs ts)
    (hlexeme : lexeme c (body ++ cs) = (none, body.length)) :
    Tokenized start (c :: (body ++ cs)) ts := by
  cases h with
  | done hgap => exact .done (hgap.cons (by rwa [List.append_nil]))
  | @token _ gap d inner rest kind ts hgap hfound hrest =>
    have hlength : start + Text.byteLength (c :: body) + Text.byteLength gap =
        start + Text.byteLength (c :: (body ++ gap)) := by
      simp only [Text.byteLength_cons, Text.byteLength_append]
      omega
    rw [hlength] at hrest ⊢
    rw [← List.append_assoc, ← List.cons_append]
    exact .token (hgap.cons hlexeme) hfound hrest

end Tokenized

/-- The lexeme at a place takes a front of what stands behind its first character. -/
theorem exists_lexeme (c : Char) (cs : List Char) :
    ∃ body rest kind?, cs = body ++ rest ∧ lexeme c cs = (kind?, body.length) := by
  refine ⟨cs.take (lexeme c cs).2, cs.drop (lexeme c cs).2, (lexeme c cs).1,
    (List.take_append_drop _ _).symm, ?_⟩
  rw [List.length_take, Nat.min_eq_left (lexeme_le c cs)]

/-- The tokens that are found in a text, and the gaps around them, are the whole text. -/
theorem tokenized_tokensFrom {rounds start : Nat} {cs : List Char} (h : cs.length ≤ rounds) :
    Tokenized start cs (tokensFrom rounds start cs) := by
  induction rounds generalizing start cs with
  | zero =>
    obtain rfl := List.length_eq_zero_iff.1 (Nat.le_zero.1 h)
    exact .done .nil
  | succ rounds ih =>
    cases cs with
    | nil => exact .done .nil
    | cons c cs =>
      obtain ⟨body, rest, kind?, rfl, hlexeme⟩ := exists_lexeme c cs
      have hrest : rest.length ≤ rounds := by
        simp only [List.length_cons, List.length_append] at h
        omega
      simp only [tokensFrom, hlexeme, List.take_left, List.drop_left]
      cases kind? with
      | none => exact (ih hrest).skip hlexeme
      | some kind =>
        have htoken : Tokenized start ([] ++ c :: (body ++ rest)) _ :=
          .token .nil hlexeme (ih hrest)
        exact htoken

theorem lex_tokenized (source : List Char) : Tokenized 0 source (lex source) :=
  tokenized_tokensFrom (Nat.le_refl _)

/-- A token stands in a text behind some other text, and its span says where. -/
structure StandsBehind (t : Token) (text front back : List Char) : Prop where
  text_eq : text = front ++ (t.text ++ back)
  span_eq : t.span = ⟨Text.byteLength front, Text.byteLength front + Text.byteLength t.text⟩
  ne_nil : t.text ≠ []

namespace StandsBehind
variable {t : Token} {text front back : List Char}

theorem start_lt_stop (h : t.StandsBehind text front back) : t.span.start < t.span.stop := by
  have hpos := Nat.pos_of_ne_zero fun hzero => h.ne_nil (Text.byteLength_eq_zero.1 hzero)
  rw [h.span_eq]
  exact Nat.lt_add_of_pos_right hpos

theorem stop_le (h : t.StandsBehind text front back) : t.span.stop ≤ Text.byteLength text := by
  rw [h.span_eq, h.text_eq, Text.byteLength_append, Text.byteLength_append]
  dsimp only
  omega

/-- The span of a token cuts out its text. -/
theorem slice (h : t.StandsBehind text front back) :
    Text.slice? t.span.start t.span.stop text = some t.text := by
  rw [h.span_eq, h.text_eq]
  exact Text.slice?_append front t.text back

/-- Within the text of a token the source can be cut in front of any character but the first. -/
theorem cut_within (h : t.StandsBehind text front back) {before after : List Char} {c : Char}
    (ht : t.text = before ++ c :: after) (hne : before ≠ []) :
    t.span.start < t.span.start + Text.byteLength before ∧
    t.span.start + Text.byteLength before < t.span.stop ∧
    Text.cut? (t.span.start + Text.byteLength before) text =
      some (front ++ before, c :: (after ++ back)) := by
  have hpos := Nat.pos_of_ne_zero fun hzero => hne (Text.byteLength_eq_zero.1 hzero)
  have hc := c.utf8Size_pos
  have hsplit : text = (front ++ before) ++ (c :: (after ++ back)) := by
    rw [h.text_eq, ht]
    simp
  rw [h.span_eq, ht, Text.byteLength_append, Text.byteLength_cons]
  refine ⟨Nat.lt_add_of_pos_right hpos, ?_, ?_⟩
  · dsimp only
    omega
  · rw [← Text.byteLength_append, hsplit]
    exact Text.cut?_byteLength_append _ _

end StandsBehind

namespace Tokenized
variable {start : Nat} {front cs : List Char} {ts : List Token}

/-- Every token stands behind what is in front of the text. -/
theorem exists_standsBehind (h : Tokenized start cs ts) (hstart : start = Text.byteLength front) :
    ∀ t ∈ ts, ∃ between back, t.StandsBehind (front ++ cs) (front ++ between) back := by
  induction h generalizing front with
  | done => nofun
  | @token start gap c body rest kind ts hgap hlexeme hrest ih =>
    intro t ht
    rcases List.mem_cons.1 ht with rfl | ht
    · refine ⟨gap, rest, by simp, ?_, nofun⟩
      rw [hstart, Text.byteLength_append]
    · have hnext : start + Text.byteLength gap + Text.byteLength (c :: body) =
          Text.byteLength (front ++ (gap ++ c :: body)) := by
        simp only [hstart, Text.byteLength_append, Nat.add_assoc]
      obtain ⟨between, back, hstands⟩ := ih hnext t ht
      exact ⟨gap ++ c :: (body ++ between), back, by simpa using hstands⟩

end Tokenized

theorem exists_standsBehind_of_mem_lex {source : List Char} {t : Token} (ht : t ∈ lex source) :
    ∃ front back, t.StandsBehind source front back := by
  have hstart : 0 = Text.byteLength ([] : List Char) := rfl
  exact (lex_tokenized source).exists_standsBehind hstart t ht

end TextGrammar.Token
