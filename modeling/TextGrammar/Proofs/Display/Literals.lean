import TextGrammar.Number.Integer
import TextGrammar.Number.Reading
import TextGrammar.Proofs.Token.Strings

/-! # Literals read back

The text of an integer is a number, or a minus and a number, and reads as the integer. Quoted
text is one string, which stands for the text if no character of it is written as its number. -/

namespace TextGrammar

namespace Token

theorem continuesWord_of_isDigit {c : Char} (h : c.isDigit = true) : continuesWord c = true := by
  simp [continuesWord, Char.isAlphanum, h]

theorem lexeme_of_isDigit {c : Char} (h : c.isDigit = true) (cs : List Char) :
    lexeme c cs = (some .number, numberRest cs) := by
  obtain ⟨hblank, hslash, hquote⟩ := starts_of_continuesWord (continuesWord_of_isDigit h)
  simp only [lexeme, hblank, hslash, hquote, h, Bool.false_eq_true, if_false, if_true,
    Bool.false_and]

theorem isDigit_of_apart {c : Char} {cs : List Char} (h : Apart (c :: cs) = true) :
    c.isDigit = false := by
  have hc := head_of_apart h
  rw [Bool.eq_false_iff] at hc ⊢
  intro hdigit
  exact hc (continuesWord_of_isDigit hdigit)

/-- Neither a digit nor a point with a digit behind it goes on with the digits of a number. -/
theorem numberRest_whole {ds cs : List Char} (hds : ds.all Char.isDigit = true)
    (hdigit : ∀ c ∈ cs.head?, c.isDigit = false)
    (hpoint : ∀ d more, cs = '.' :: d :: more → d.isDigit = false) :
    numberRest (ds ++ cs) = ds.length := by
  have hrun : runLength Char.isDigit (ds ++ cs) = ds.length := runLength_append hds hdigit
  simp only [numberRest, hrun, List.drop_left]
  split
  · rw [hpoint _ _ rfl, if_neg Bool.false_ne_true]
  · rfl

theorem head_isDigit_of_apart {cs : List Char} (h : Apart cs = true) :
    ∀ c ∈ cs.head?, c.isDigit = false := by
  cases cs with
  | nil => nofun
  | cons c cs =>
    rintro _ ⟨⟩
    exact isDigit_of_apart h

theorem numberRest_digits {ds cs : List Char} (hds : ds.all Char.isDigit = true)
    (hcs : Apart cs = true) : numberRest (ds ++ cs) = ds.length := by
  apply numberRest_whole hds (head_isDigit_of_apart hcs)
  rintro d more rfl
  simpa [Apart] using hcs

theorem numberRest_decimal {whole fraction cs : List Char} {d : Char}
    (hwhole : whole.all Char.isDigit = true) (hd : d.isDigit = true)
    (hfraction : fraction.all Char.isDigit = true) (hcs : ∀ c ∈ cs.head?, c.isDigit = false) :
    numberRest (whole ++ '.' :: d :: (fraction ++ cs)) = whole.length + 2 + fraction.length := by
  have hrun : runLength Char.isDigit (whole ++ '.' :: d :: (fraction ++ cs)) = whole.length := by
    apply runLength_append hwhole
    rintro _ ⟨⟩
    rfl
  have hrun' : runLength Char.isDigit (fraction ++ cs) = fraction.length :=
    runLength_append hfraction hcs
  simp only [numberRest, hrun, List.drop_left, hd, if_true, hrun']

/-- Digits are one number. -/
theorem words_digits {ds cs : List Char} (hne : ds ≠ []) (hds : ds.all Char.isDigit = true)
    (hcs : Apart cs = true) : words (ds ++ cs) = (.number, ds) :: words cs := by
  cases ds with
  | nil => exact absurd rfl hne
  | cons d ds =>
    rw [List.all_cons, Bool.and_eq_true] at hds
    apply words_of_lexeme
    rw [lexeme_of_isDigit hds.1, numberRest_digits hds.2 hcs]

/-- Digits with a point among them are one number. -/
theorem words_decimal {whole fraction cs : List Char} (hwhole : whole ≠ [])
    (hall : whole.all Char.isDigit = true) (hfraction : fraction ≠ [])
    (hall' : fraction.all Char.isDigit = true) (hcs : Apart cs = true) :
    words (whole ++ '.' :: (fraction ++ cs)) = (.number, whole ++ '.' :: fraction) :: words cs := by
  cases whole with
  | nil => exact absurd rfl hwhole
  | cons c whole =>
    cases fraction with
    | nil => exact absurd rfl hfraction
    | cons d fraction =>
      rw [List.all_cons, Bool.and_eq_true] at hall hall'
      have hlength : (whole ++ '.' :: d :: fraction).length =
          whole.length + 2 + fraction.length := by
        simp only [List.length_append, List.length_cons]
        omega
      have hlexeme : lexeme c ((whole ++ '.' :: d :: fraction) ++ cs) =
          (some .number, (whole ++ '.' :: d :: fraction).length) := by
        rw [hlength, List.append_assoc, List.cons_append, List.cons_append,
          lexeme_of_isDigit hall.1, numberRest_decimal hall.2 hall'.1 hall'.2
            (head_isDigit_of_apart hcs)]
      simpa using words_of_lexeme c _ cs hlexeme

theorem words_minus {d : Char} (hd : d.isDigit = true) (cs : List Char) :
    words ('-' :: d :: cs) = (.symbol .minus, ['-']) :: words (d :: cs) := by
  have hdash : d ≠ '-' := by
    rintro rfl
    cases hd
  have hnone : dashesAt? '-' (d :: cs) = none := by
    unfold dashesAt?
    split
    · simp_all
    · rfl
  exact words_of_symbolAt rfl hnone rfl

/-- A minus in front of a number is a word of its own. -/
theorem words_signed {d : Char} {more cs : List Char} (hd : d.isDigit = true)
    (h : words (d :: more ++ cs) = (.number, d :: more) :: words cs) (negative : Bool) :
    words ((if negative = true then ['-'] else []) ++ d :: more ++ cs) =
      (if negative = true then [(.symbol .minus, ['-'])] else []) ++
        (.number, d :: more) :: words cs := by
  cases negative with
  | false => exact h
  | true => exact (words_minus hd _).trans (congrArg _ h)

end Token

namespace Text

theorem mem_toDigits_sixteen {n : Nat} {d : Char} (h : d ∈ Nat.toDigits 16 n) :
    ∃ k < 16, d = k.digitChar := by
  induction n using Nat.strongRecOn with
  | ind n ih =>
    rw [Nat.toDigits_eq_if (by decide)] at h
    split at h
    · exact ⟨n, ‹_›, List.mem_singleton.1 h⟩
    · obtain h | h := List.mem_append.1 h
      · exact ih (n / 16) (by omega) h
      · exact ⟨n % 16, Nat.mod_lt n (by decide), List.mem_singleton.1 h⟩

theorem enclosed_numbered (c : Char) : Token.Enclosed (numbered c) := by
  have hdigit : ∀ k < 16, k.digitChar ∉ ['"', '\\', '\n'] := by decide
  refine .escape (.of_forall ?_)
  intro d hd
  obtain rfl | hd := List.mem_cons.1 hd
  · decide
  obtain hd | hd := List.mem_append.1 hd
  · obtain ⟨k, hk, rfl⟩ := mem_toDigits_sixteen hd
    exact hdigit k hk
  · obtain rfl := List.mem_singleton.1 hd
    decide

/-- However a character is written, no quote or line feed is left that would end a string. -/
theorem enclosed_quotedChar (c : Char) : Token.Enclosed (quotedChar c) := by
  unfold quotedChar
  split
  case h_7 hquote hslash _ _ _ hfeed =>
    split
    · exact enclosed_numbered c
    · exact .plain (by simp_all) .nil
  all_goals exact .escape .nil

/-- A character that is not written as its number has an escape, or stands for itself. -/
theorem spells_quotedChar {c : Char} (h : quotedChar c ≠ numbered c) :
    Literal.Spells (quotedChar c) c := by
  unfold quotedChar at h ⊢
  split at h
  case h_7 hquote hslash _ _ _ hfeed =>
    split at h
    · exact absurd rfl h
    · rw [if_neg ‹_›]
      exact .plain hslash
  all_goals exact .escape rfl

end Text

/-- Quoted text is one string. -/
theorem Token.words_quoted (text cs : List Char) :
    words (Text.quoted text ++ cs) = (.string, Text.quoted text) :: words cs :=
  words_enclosed (.flatMap fun c _ => Text.enclosed_quotedChar c) cs

/-- Quoted text stands for the text. -/
theorem Literal.decode_quoted {text : List Char}
    (h : ∀ c ∈ text, Text.quotedChar c ≠ Text.numbered c) :
    decode (Text.quoted text) = .ok text :=
  decode_spelled fun c hc => Text.spells_quotedChar (h c hc)

namespace Number

theorem digitsValue_toDigits (n : Nat) : digitsValue (Nat.toDigits 10 n) = n :=
  Nat.ofDigitChars_ten_toDigits

theorem toDigits_all_isDigit (n : Nat) : (Nat.toDigits 10 n).all Char.isDigit = true := by
  rw [List.all_eq_true]
  intro c hc
  exact Nat.isDigit_of_mem_toDigits (by decide) (by decide) hc

/-- The text of an integer is its digits, behind a minus if it is negative. -/
theorem toString_toInt (n : Int64) :
    (toString n.toInt).toList =
      (if decide (n.toInt < 0) = true then ['-'] else []) ++ Nat.toDigits 10 n.toInt.natAbs := by
  simp only [decide_eq_true_eq]
  cases n.toInt with
  | ofNat m =>
    have hm : ¬((Int.ofNat m) < 0) := Int.not_lt.2 (Int.natCast_nonneg m)
    rw [if_neg hm]
    exact Nat.toList_repr
  | negSucc m =>
    have hm : Int.negSucc m < 0 := Int.negSucc_lt_zero m
    rw [if_pos hm]
    change ("-" ++ Nat.repr (m + 1)).toList = _
    rw [String.toList_append, Nat.toList_repr]
    rfl

theorem words_integer (n : Int64) {cs : List Char} (hcs : Token.Apart cs = true) :
    Token.words ((toString n.toInt).toList ++ cs) =
      (if decide (n.toInt < 0) = true then [(.symbol .minus, ['-'])] else []) ++
        (.number, Nat.toDigits 10 n.toInt.natAbs) :: Token.words cs := by
  have hdigits := toDigits_all_isDigit n.toInt.natAbs
  have hwords := Token.words_digits Nat.toDigits_ne_nil hdigits hcs
  rw [toString_toInt]
  cases hds : Nat.toDigits 10 n.toInt.natAbs with
  | nil => exact absurd hds Nat.toDigits_ne_nil
  | cons d more =>
    rw [hds] at hdigits hwords
    rw [List.all_cons, Bool.and_eq_true] at hdigits
    exact Token.words_signed hdigits.1 hwords _

theorem splitSign_digits {ds : List Char} (h : ds.all Char.isDigit = true) :
    splitSign ds = (false, ds) := by
  unfold splitSign
  split
  · cases h
  · cases h
  · rfl

theorem readInteger?_digits (n : Int64) :
    readInteger? (if n.toInt < 0 then '-' :: Nat.toDigits 10 n.toInt.natAbs
      else Nat.toDigits 10 n.toInt.natAbs) = some n := by
  have hdigits : Nat.toDigits 10 n.toInt.natAbs ≠ [] ∧
      (Nat.toDigits 10 n.toInt.natAbs).all Char.isDigit = true :=
    ⟨Nat.toDigits_ne_nil, toDigits_all_isDigit _⟩
  by_cases hn : n.toInt < 0
  · have hvalue : -(n.toInt.natAbs : Int) = n.toInt := by omega
    simp only [readInteger?, hn, if_true, splitSign, hdigits, and_self, ne_eq, not_false_eq_true,
      digitsValue_toDigits, hvalue, integer?_toInt]
  · have hvalue : (n.toInt.natAbs : Int) = n.toInt := by omega
    simp only [readInteger?, hn, if_false, splitSign_digits hdigits.2, hdigits, and_self, ne_eq,
      not_false_eq_true, Bool.false_eq_true, if_true, digitsValue_toDigits, hvalue, integer?_toInt]

end Number

end TextGrammar
