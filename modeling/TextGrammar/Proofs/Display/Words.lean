import TextGrammar.Token.Lexer
import TextGrammar.Token.Literal

/-! # The words of a text

The parser sees of a token its kind and its characters, and reads its place only to report it.
A text is cut into such words from the front: blanks are skipped, and a lexeme that cannot go on
with the character behind it is a word of its own. -/

namespace TextGrammar.Token

abbrev Word := Kind × List Char

def word (t : Token) : Word := (t.kind, t.text)

def words (cs : List Char) : List Word := (lex cs).map word

/-- The words of a text do not depend on where it starts, nor on the number of rounds. -/
theorem map_word_tokensFrom {m n : Nat} (start other : Nat) {cs : List Char}
    (hm : cs.length ≤ m) (hn : cs.length ≤ n) :
    (tokensFrom m start cs).map word = (tokensFrom n other cs).map word := by
  induction m generalizing n start other cs with
  | zero =>
    obtain rfl := List.length_eq_zero_iff.1 (Nat.le_zero.1 hm)
    simp [tokensFrom]
  | succ m ih =>
    cases cs with
    | nil => simp [tokensFrom]
    | cons c cs =>
      cases n with
      | zero => cases hn
      | succ n =>
        rw [List.length_cons] at hm hn
        simp only [tokensFrom]
        rcases lexeme c cs with ⟨kind?, k⟩
        have hm' : (cs.drop k).length ≤ m := by
          rw [List.length_drop]
          omega
        have hn' : (cs.drop k).length ≤ n := by
          rw [List.length_drop]
          omega
        cases kind? with
        | none => exact ih _ _ hm' hn'
        | some kind =>
          rw [List.map_cons, List.map_cons]
          exact congrArg _ (ih _ _ hm' hn')

theorem words_nil : words [] = [] := rfl

theorem words_of_skipped {c : Char} {cs : List Char} {n : Nat} (h : lexeme c cs = (none, n)) :
    words (c :: cs) = words (cs.drop n) := by
  simp only [words, lex, List.length_cons, tokensFrom, h]
  apply map_word_tokensFrom
  · rw [List.length_drop]
    omega
  · exact Nat.le_refl _

/-- A lexeme that stands for a token is a word. -/
theorem words_of_lexeme (c : Char) (body cs : List Char) {kind : Kind}
    (h : lexeme c (body ++ cs) = (some kind, body.length)) :
    words (c :: (body ++ cs)) = (kind, c :: body) :: words cs := by
  simp only [words, lex, List.length_cons, tokensFrom, h, List.map_cons, List.take_left,
    List.drop_left]
  apply congrArg
  apply map_word_tokensFrom
  · rw [List.length_append]
    omega
  · exact Nat.le_refl _

/-- A text that is a single lexeme is a single token. -/
theorem lex_of_lexeme {c : Char} {body : List Char} {kind : Kind}
    (h : lexeme c body = (some kind, body.length)) :
    lex (c :: body) = [⟨kind, ⟨0, Text.byteLength (c :: body)⟩, c :: body⟩] := by
  simp [lex, tokensFrom, h]

/-- A symbol of one character, which starts no lexeme of another kind, is a word of its own. -/
theorem words_of_symbolAt {c : Char} {cs : List Char} {s : Symbol}
    (hc : (isBlank c || c == '/' || c == '"' || c.isDigit || startsWord c) = false)
    (hdashes : dashesAt? c cs = none) (hsymbol : symbolAt? c cs = some (s, 0)) :
    words (c :: cs) = (.symbol s, [c]) :: words cs := by
  simp only [Bool.or_eq_false_iff] at hc
  obtain ⟨⟨⟨⟨hblank, hslash⟩, hquote⟩, hdigit⟩, hword⟩ := hc
  apply words_of_lexeme c []
  simp [lexeme, hblank, hslash, hquote, hdigit, hword, hdashes, hsymbol]

theorem runLength_cons (p : Char → Bool) (c : Char) (cs : List Char) :
    runLength p (c :: cs) = if p c then runLength p cs + 1 else 0 := by
  cases h : p c <;> simp [runLength, h]

theorem words_blank {c : Char} (h : isBlank c = true) (cs : List Char) :
    words (c :: cs) = words cs := by
  rw [words_of_skipped (n := runLength isBlank cs) (by simp [lexeme, h])]
  cases cs with
  | nil => rfl
  | cons d ds =>
    rw [runLength_cons]
    cases hd : isBlank d with
    | true =>
      have hskip : lexeme d ds = (none, runLength isBlank ds) := by simp only [lexeme, hd, if_true]
      rw [if_pos rfl, List.drop_succ_cons, words_of_skipped hskip]
    | false => rfl

@[simp] theorem words_space (cs : List Char) : words (' ' :: cs) = words cs :=
  words_blank rfl cs

@[simp] theorem words_lineFeed (cs : List Char) : words ('\n' :: cs) = words cs :=
  words_blank rfl cs

@[simp] theorem words_spaces (n : Nat) (cs : List Char) :
    words (List.replicate n ' ' ++ cs) = words cs := by
  induction n with
  | zero => rfl
  | succ n ih => simpa [List.replicate_succ] using ih

@[simp] theorem words_leftParen (cs : List Char) :
    words ('(' :: cs) = (.symbol .leftParen, ['(']) :: words cs :=
  words_of_lexeme '(' [] cs rfl

@[simp] theorem words_rightParen (cs : List Char) :
    words (')' :: cs) = (.symbol .rightParen, [')']) :: words cs :=
  words_of_lexeme ')' [] cs rfl

@[simp] theorem words_leftBrace (cs : List Char) :
    words ('\x7b' :: cs) = (.symbol .leftBrace, ['\x7b']) :: words cs :=
  words_of_lexeme '\x7b' [] cs rfl

@[simp] theorem words_rightBrace (cs : List Char) :
    words ('\x7d' :: cs) = (.symbol .rightBrace, ['\x7d']) :: words cs :=
  words_of_lexeme '\x7d' [] cs rfl

@[simp] theorem words_leftBracket (cs : List Char) :
    words ('[' :: cs) = (.symbol .leftBracket, ['[']) :: words cs :=
  words_of_lexeme '[' [] cs rfl

@[simp] theorem words_rightBracket (cs : List Char) :
    words (']' :: cs) = (.symbol .rightBracket, [']']) :: words cs :=
  words_of_lexeme ']' [] cs rfl

@[simp] theorem words_comma (cs : List Char) :
    words (',' :: cs) = (.symbol .comma, [',']) :: words cs :=
  words_of_lexeme ',' [] cs rfl

@[simp] theorem words_semicolon (cs : List Char) :
    words (';' :: cs) = (.symbol .semicolon, [';']) :: words cs :=
  words_of_lexeme ';' [] cs rfl

@[simp] theorem words_pipe (cs : List Char) :
    words ('|' :: cs) = (.symbol .pipe, ['|']) :: words cs :=
  words_of_lexeme '|' [] cs rfl

@[simp] theorem words_dotDot (cs : List Char) :
    words ('.' :: '.' :: cs) = (.symbol .dotDot, ['.', '.']) :: words cs :=
  words_of_lexeme '.' ['.'] cs rfl

@[simp] theorem words_define (cs : List Char) :
    words (':' :: '=' :: cs) = (.symbol .define, [':', '=']) :: words cs :=
  words_of_lexeme ':' ['='] cs rfl

@[simp] theorem words_fatArrow (cs : List Char) :
    words ('=' :: '>' :: cs) = (.symbol .fatArrow, ['=', '>']) :: words cs :=
  words_of_lexeme '=' ['>'] cs rfl

@[simp] theorem words_leftArrow (cs : List Char) :
    words ('<' :: '-' :: cs) = (.symbol .leftArrow, ['<', '-']) :: words cs :=
  words_of_lexeme '<' ['-'] cs rfl

@[simp] theorem words_colon_space (cs : List Char) :
    words (':' :: ' ' :: cs) = (.symbol .colon, [':']) :: words cs :=
  (words_of_lexeme ':' [] (' ' :: cs) rfl).trans (congrArg _ (words_space cs))

@[simp] theorem words_colon_quote (cs : List Char) :
    words (':' :: '"' :: cs) = (.symbol .colon, [':']) :: words ('"' :: cs) :=
  words_of_lexeme ':' [] ('"' :: cs) rfl

@[simp] theorem words_assign (cs : List Char) :
    words ('=' :: ' ' :: cs) = (.symbol .assign, ['=']) :: words cs :=
  (words_of_lexeme '=' [] (' ' :: cs) rfl).trans (congrArg _ (words_space cs))

@[simp] theorem words_plusAssign (cs : List Char) :
    words ('+' :: '=' :: cs) = (.symbol .plusAssign, ['+', '=']) :: words cs :=
  words_of_lexeme '+' ['='] cs rfl

/-- No lexeme goes on with what stands behind it: no word or number does with a character that
is none of an identifier, nor a number with a point that no digit follows. -/
def Apart : List Char → Bool
  | [] => true
  | '.' :: d :: _ => !d.isDigit
  | c :: _ => !continuesWord c

theorem head_of_apart {c : Char} {cs : List Char} (h : Apart (c :: cs) = true) :
    continuesWord c = false := by
  by_cases hpoint : c = '.'
  · subst hpoint
    rfl
  · simpa [Apart, hpoint] using h

theorem runLength_append {p : Char → Bool} {xs ys : List Char} (hxs : xs.all p = true)
    (hys : ∀ y ∈ ys.head?, p y = false) : runLength p (xs ++ ys) = xs.length := by
  induction xs with
  | nil =>
    cases ys with
    | nil => rfl
    | cons y ys => simp [runLength, hys y rfl]
  | cons x xs ih =>
    rw [List.all_cons, Bool.and_eq_true] at hxs
    rw [List.cons_append, runLength_cons, if_pos hxs.1, ih hxs.2, List.length_cons]

theorem isDigit_of_startsWord {c : Char} (h : startsWord c = true) : c.isDigit = false := by
  simp only [startsWord, Bool.or_eq_true, beq_iff_eq] at h
  rcases h with h | rfl
  · unfold Char.isAlpha Char.isUpper Char.isLower at h
    unfold Char.isDigit
    simp only [Bool.or_eq_true, Bool.and_eq_true, decide_eq_true_eq, Bool.and_eq_false_iff,
      decide_eq_false_iff_not] at h ⊢
    grind
  · rfl

def wordKind (text : List Char) : Kind :=
  match Keyword.ofText? text with
  | some k => .keyword k
  | none => .identifier

/-- A character of a word starts no blanks, comment or string. -/
theorem starts_of_continuesWord {c : Char} (h : continuesWord c = true) :
    isBlank c = false ∧ (c == '/') = false ∧ (c == '"') = false := by
  rw [beq_eq_false_iff_ne, beq_eq_false_iff_ne, Bool.eq_false_iff]
  refine ⟨?_, ?_, ?_⟩
  · intro hc
    simp only [isBlank, Bool.or_eq_true, beq_iff_eq] at hc
    rcases hc with (((rfl | rfl) | rfl) | rfl) | rfl <;> cases h
  · rintro rfl
    cases h
  · rintro rfl
    cases h

theorem continuesWord_of_startsWord {c : Char} (h : startsWord c = true) :
    continuesWord c = true := by
  simp only [startsWord, continuesWord, Char.isAlphanum, Bool.or_eq_true] at h ⊢
  exact h.imp_left .inl

theorem lexeme_of_startsWord {c : Char} (h : startsWord c = true) (cs : List Char) :
    lexeme c cs =
      (some (wordKind (c :: cs.take (runLength continuesWord cs))),
        runLength continuesWord cs) := by
  have hdigit := isDigit_of_startsWord h
  obtain ⟨hblank, hslash, hquote⟩ := starts_of_continuesWord (continuesWord_of_startsWord h)
  simp only [lexeme, hblank, hslash, hquote, hdigit, h, Bool.false_eq_true, if_false, if_true,
    Bool.false_and, wordKind]
  cases Keyword.ofText? (c :: cs.take (runLength continuesWord cs)) <;> rfl

theorem words_word {c : Char} {body cs : List Char} (hc : startsWord c = true)
    (hbody : body.all continuesWord = true) (hcs : Apart cs = true) :
    words (c :: (body ++ cs)) = (wordKind (c :: body), c :: body) :: words cs := by
  have hrun : runLength continuesWord (body ++ cs) = body.length := by
    apply runLength_append hbody
    cases cs with
    | nil => nofun
    | cons d ds =>
      rintro _ ⟨⟩
      exact head_of_apart hcs
  apply words_of_lexeme
  rw [lexeme_of_startsWord hc, hrun, List.take_left]

/-- Whether a text is an identifier: a letter or an underscore, then these and digits, and no
reserved word. -/
def isName : List Char → Bool
  | [] => false
  | c :: cs => startsWord c && cs.all continuesWord && (Keyword.ofText? (c :: cs)).isNone

theorem words_name {name cs : List Char} (hname : isName name = true) (hcs : Apart cs = true) :
    words (name ++ cs) = (.identifier, name) :: words cs := by
  cases name with
  | nil => cases hname
  | cons c body =>
    simp only [isName, Bool.and_eq_true, Option.isNone_iff_eq_none] at hname
    rw [List.cons_append, words_word hname.1.1 hname.1.2 hcs, wordKind, hname.2]

/-- A point in front of a name is a word of its own. -/
theorem words_dot {name : List Char} (hname : isName name = true) (cs : List Char) :
    words ('.' :: (name ++ cs)) = (.symbol .dot, ['.']) :: words (name ++ cs) := by
  cases name with
  | nil => cases hname
  | cons c body =>
    simp only [isName, Bool.and_eq_true] at hname
    have hc : c ≠ '.' := by
      rintro rfl
      cases hname.1.1
    apply words_of_symbolAt rfl rfl
    simp [symbolAt?, hc]

/-- A mark in front of anything but an equals sign is a word of its own. -/
theorem words_bang {c : Char} (hc : c ≠ '=') (cs : List Char) :
    words ('!' :: c :: cs) = (.symbol .bang, ['!']) :: words (c :: cs) := by
  apply words_of_symbolAt rfl rfl
  simp [symbolAt?, hc]

theorem apart_dot {name : List Char} (hname : isName name = true) (cs : List Char) :
    Apart ('.' :: (name ++ cs)) = true := by
  cases name with
  | nil => cases hname
  | cons c body =>
    simp only [isName, Bool.and_eq_true] at hname
    simp [Apart, isDigit_of_startsWord hname.1.1]

theorem words_keyword (k : Keyword) {cs : List Char} (hcs : Apart cs = true) :
    words (k.text.toList ++ cs) = (.keyword k, k.text.toList) :: words cs := by
  have hk := k.ofText?_text
  have hword : ∃ c body, k.text.toList = c :: body ∧ startsWord c = true ∧
      body.all continuesWord = true := by
    cases k <;> exact ⟨_, _, rfl, by decide, by decide⟩
  obtain ⟨c, body, htext, hc, hbody⟩ := hword
  rw [htext] at hk ⊢
  rw [List.cons_append, words_word hc hbody hcs, wordKind, hk]

end TextGrammar.Token
