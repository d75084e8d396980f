import TextGrammar.Proofs.Token.Tokenization

/-! # Tokens byte by byte

What tells tokens apart are ASCII characters, and no byte of another character looks like one of
them. So a scanner that looks at the bytes of a source, and not at its characters, finds the same
tokens at the same places. -/

namespace TextGrammar.Token

/-- The bytes of the UTF-8 form of a text, each looked at as the character with its number. -/
def utf8 (cs : List Char) : List Char :=
  cs.flatMap fun c => (String.utf8EncodeChar c).map Char.ofUInt8

def isContinuation (b : Char) : Bool := b.toNat / 64 == 2

theorem toNat_byte (n : Nat) : (Char.ofUInt8 (UInt8.ofNat n)).toNat = n % 256 := rfl

theorem utf8_append (cs ds : List Char) : utf8 (cs ++ ds) = utf8 cs ++ utf8 ds :=
  List.flatMap_append

theorem length_utf8 (cs : List Char) : (utf8 cs).length = Text.byteLength cs := by
  induction cs with
  | nil => rfl
  | cons c cs ih =>
    have hcons : utf8 (c :: cs) = (String.utf8EncodeChar c).map Char.ofUInt8 ++ utf8 cs := rfl
    rw [hcons, List.length_append, List.length_map, String.length_utf8EncodeChar, ih]
    rfl

theorem utf8_ascii {c : Char} (hc : c.toNat < 128) (cs : List Char) :
    utf8 (c :: cs) = c :: utf8 cs := by
  have hle : c.val.toNat ≤ 127 := Nat.le_of_lt_succ hc
  have hbyte : Char.ofUInt8 (UInt8.ofNat c.val.toNat) = c := by
    apply Char.ext
    apply UInt32.toNat_inj.1
    change c.toNat % 256 = c.toNat
    omega
  have hchar : String.utf8EncodeChar c = [UInt8.ofNat c.val.toNat] := if_pos hle
  rw [utf8, List.flatMap_cons, hchar, List.map_singleton, hbyte]
  rfl

theorem isContinuation_low (n : Nat) :
    isContinuation (Char.ofUInt8 (UInt8.ofNat (n % 64 + 128))) = true := by
  rw [isContinuation, toNat_byte, beq_iff_eq]
  omega

theorem utf8_cons (c : Char) (cs : List Char) : utf8 (c :: cs) = utf8 [c] ++ utf8 cs :=
  utf8_append [c] cs

/-- A character beyond ASCII has a first byte, and bytes that go on with it. -/
theorem exists_utf8_beyond {c : Char} (hc : 128 ≤ c.toNat) :
    ∃ b tail, utf8 [c] = b :: tail ∧ 192 ≤ b.toNat ∧ tail.all isContinuation = true := by
  have hchar : ∃ b tail, (String.utf8EncodeChar c).map Char.ofUInt8 = b :: tail ∧
      192 ≤ b.toNat ∧ tail.all isContinuation = true := by
    unfold String.utf8EncodeChar
    dsimp only
    split
    · exact absurd hc (Nat.not_le.2 (Nat.lt_succ_of_le ‹_›))
    · split
      case' isFalse => split
      all_goals
        refine ⟨_, _, rfl, ?_, ?_⟩
        · rw [toNat_byte]
          omega
        · simp only [List.map_cons, List.map_nil, List.all_cons, List.all_nil, isContinuation_low,
            Bool.and_self]
  obtain ⟨b, tail, hbytes, hb, htail⟩ := hchar
  exact ⟨b, tail, by rw [utf8, List.flatMap_singleton, hbytes], hb, htail⟩

/-- An ASCII character is its only byte; another character has no byte that is an ASCII one. -/
theorem utf8_char_cases (c : Char) :
    (c.toNat < 128 ∧ utf8 [c] = [c]) ∨
    128 ≤ c.toNat ∧ ∃ b tail, utf8 [c] = b :: tail ∧ 192 ≤ b.toNat ∧
      tail.all isContinuation = true := by
  by_cases hc : c.toNat < 128
  · exact .inl ⟨hc, utf8_ascii hc []⟩
  · exact .inr ⟨Nat.not_lt.1 hc, exists_utf8_beyond (Nat.not_lt.1 hc)⟩

theorem le_of_isContinuation {b : Char} (h : isContinuation b = true) : 128 ≤ b.toNat := by
  rw [isContinuation, beq_iff_eq] at h
  omega

theorem not_isContinuation_ascii {c : Char} (hc : c.toNat < 128) : isContinuation c = false := by
  rw [isContinuation, beq_eq_false_iff_ne]
  omega

theorem not_isContinuation_first {b : Char} (hb : 192 ≤ b.toNat) : isContinuation b = false := by
  rw [isContinuation, beq_eq_false_iff_ne]
  omega

/-- What the bytes of a text start with is no byte that goes on with a character. -/
theorem head_utf8 (cs : List Char) : ∀ b ∈ (utf8 cs).head?, isContinuation b = false := by
  cases cs with
  | nil => nofun
  | cons c cs =>
    obtain ⟨hc, hbytes⟩ | ⟨-, b, tail, hbytes, hb, -⟩ := utf8_char_cases c
    · rw [utf8_cons, hbytes]
      rintro _ ⟨⟩
      exact not_isContinuation_ascii hc
    · rw [utf8_cons, hbytes]
      rintro _ ⟨⟩
      exact not_isContinuation_first hb

/-- Where an ASCII character is found among the bytes, it stands in the text. -/
theorem utf8_eq_cons {x : Char} {cs bs : List Char} (hx : x.toNat < 128)
    (h : utf8 cs = x :: bs) : ∃ ds, cs = x :: ds ∧ bs = utf8 ds := by
  cases cs with
  | nil => cases h
  | cons c cs =>
    rw [utf8_cons] at h
    obtain ⟨-, hbytes⟩ | ⟨-, b, tail, hbytes, hb, -⟩ := utf8_char_cases c
    · rw [hbytes] at h
      obtain ⟨rfl, rfl⟩ := List.cons.inj h
      exact ⟨cs, rfl, rfl⟩
    · rw [hbytes] at h
      obtain ⟨rfl, -⟩ := List.cons.inj h
      omega

theorem head_utf8_eq {x : Char} (hx : x.toNat < 128) (cs : List Char) :
    (utf8 cs).head? = some x ↔ cs.head? = some x := by
  constructor
  · intro h
    obtain ⟨bs, hbytes⟩ := List.head?_eq_some_iff.1 h
    obtain ⟨ds, rfl, -⟩ := utf8_eq_cons hx hbytes
    rfl
  · intro h
    obtain ⟨ds, rfl⟩ := List.head?_eq_some_iff.1 h
    rw [utf8_ascii hx]
    rfl

section
variable {p : Char → Bool} {v : Bool}

/-- A predicate that is the same beyond ASCII holds of the bytes of a text that it holds of. -/
theorem all_utf8 (hp : ∀ c, 128 ≤ c.toNat → p c = v) {cs : List Char} (h : cs.all p = true) :
    (utf8 cs).all p = true := by
  induction cs with
  | nil => rfl
  | cons c cs ih =>
    rw [List.all_cons, Bool.and_eq_true] at h
    rw [utf8_cons, List.all_append, ih h.2, Bool.and_true]
    obtain ⟨-, hbytes⟩ | ⟨hc, b, tail, hbytes, hb, htail⟩ := utf8_char_cases c
    · rw [hbytes, List.all_cons, h.1]
      rfl
    · have hv : v = true := by rw [← hp c hc, h.1]
      have htail' : tail.all p = true := by
        rw [List.all_eq_true] at htail ⊢
        intro d hd
        rw [hp d (le_of_isContinuation (htail d hd)), hv]
      rw [hbytes, List.all_cons, hp b (by omega), hv, htail']
      rfl

theorem head_utf8_not (hp : ∀ c, 128 ≤ c.toNat → p c = v) {cs : List Char}
    (h : ∀ c ∈ cs.head?, p c = false) : ∀ b ∈ (utf8 cs).head?, p b = false := by
  cases cs with
  | nil => nofun
  | cons c cs =>
    have hc := h c rfl
    obtain ⟨-, hbytes⟩ | ⟨hbeyond, b, tail, hbytes, hb, -⟩ := utf8_char_cases c
    · rw [utf8_cons, hbytes]
      rintro _ ⟨⟩
      exact hc
    · rw [utf8_cons, hbytes]
      rintro _ ⟨⟩
      rw [hp b (by omega), ← hp c hbeyond, hc]

/-- The run at the front of the bytes of a text is the bytes of the run at its front. -/
theorem runLength_utf8 (hp : ∀ c, 128 ≤ c.toNat → p c = v) (cs : List Char) :
    runLength p (utf8 cs) = (utf8 (cs.take (runLength p cs))).length := by
  obtain ⟨front, back, rfl, hfront, hlength, hback⟩ := exists_run p cs
  rw [hlength, List.take_left, utf8_append,
    runLength_append (all_utf8 hp hfront) (head_utf8_not hp hback)]

end

theorem ne_of_beyond {c x : Char} (hc : 128 ≤ c.toNat) (hx : x.toNat < 128) : c ≠ x := by
  rintro rfl
  omega

theorem not_le_of_beyond {c x : Char} (hc : 128 ≤ c.toNat) (hx : x.toNat < 128) :
    ¬c.val ≤ x.val := fun hle =>
  Nat.not_le.2 (Nat.lt_of_lt_of_le hx hc) (UInt32.le_iff_toNat_le.1 hle)

theorem not_isDigit_beyond (c : Char) (hc : 128 ≤ c.toNat) : c.isDigit = false := by
  change (decide (c.val ≥ '0'.val) && decide (c.val ≤ '9'.val)) = false
  rw [decide_eq_false (not_le_of_beyond hc (by decide)), Bool.and_false]

theorem not_continuesWord_beyond (c : Char) (hc : 128 ≤ c.toNat) : continuesWord c = false := by
  have hupper : c.isUpper = false :=
    decide_eq_false fun hbounds => not_le_of_beyond hc (by decide) hbounds.2
  have hlower : c.isLower = false := by
    change (decide (c.val ≥ 'a'.val) && decide (c.val ≤ 'z'.val)) = false
    rw [decide_eq_false (not_le_of_beyond hc (by decide)), Bool.and_false]
  have hline : (c == '_') = false := beq_eq_false_iff_ne.2 (ne_of_beyond hc (by decide))
  change (c.isUpper || c.isLower || c.isDigit || c == '_') = false
  rw [hupper, hlower, not_isDigit_beyond c hc, hline]
  rfl

theorem not_isBlank_beyond (c : Char) (hc : 128 ≤ c.toNat) : isBlank c = false := by
  simp only [isBlank, Bool.or_eq_false_iff, beq_eq_false_iff_ne]
  exact ⟨⟨⟨⟨ne_of_beyond hc (by decide), ne_of_beyond hc (by decide)⟩,
    ne_of_beyond hc (by decide)⟩, ne_of_beyond hc (by decide)⟩, ne_of_beyond hc (by decide)⟩

theorem ascii_of_isDigit {c : Char} (h : c.isDigit = true) : c.toNat < 128 := by
  by_cases hc : c.toNat < 128
  · exact hc
  · cases h.symm.trans (not_isDigit_beyond c (Nat.not_lt.1 hc))

/-- A text of ASCII characters is its bytes. -/
theorem utf8_of_all {p : Char → Bool} (hp : ∀ c, 128 ≤ c.toNat → p c = false) {cs : List Char}
    (h : cs.all p = true) : utf8 cs = cs := by
  induction cs with
  | nil => rfl
  | cons c cs ih =>
    rw [List.all_cons, Bool.and_eq_true] at h
    have hc : c.toNat < 128 := by
      by_cases hc : c.toNat < 128
      · exact hc
      · cases h.1.symm.trans (hp c (Nat.not_lt.1 hc))
    rw [utf8_ascii hc, ih h.2]

theorem utf8_digits {ds : List Char} (h : ds.all Char.isDigit = true) : utf8 ds = ds :=
  utf8_of_all not_isDigit_beyond h

theorem utf8_decimal {ds fraction : List Char} {d : Char} (hds : ds.all Char.isDigit = true)
    (hd : d.isDigit = true) (hfraction : fraction.all Char.isDigit = true) :
    utf8 (ds ++ '.' :: d :: fraction) = ds ++ '.' :: d :: fraction := by
  rw [utf8_append, utf8_digits hds, utf8_ascii (by decide), utf8_ascii (ascii_of_isDigit hd),
    utf8_digits hfraction]

/-- The point of a number is a byte, and so is the digit behind it. -/
theorem numberRest_utf8 (cs : List Char) :
    numberRest (utf8 cs) = (utf8 (cs.take (numberRest cs))).length := by
  obtain ⟨ds, back, rfl, hds, -, hback⟩ := exists_run Char.isDigit cs
  by_cases hpoint : ∃ d more, back = '.' :: d :: more ∧ d.isDigit = true
  · obtain ⟨d, more, rfl, hd⟩ := hpoint
    obtain ⟨fraction, rest, rfl, hfraction, -, hrest⟩ := exists_run Char.isDigit more
    have hnumber : ∀ rest : List Char, (∀ c ∈ rest.head?, c.isDigit = false) →
        numberRest ((ds ++ '.' :: d :: fraction) ++ rest) =
          (ds ++ '.' :: d :: fraction).length := by
      intro rest hrest
      rw [List.append_assoc, List.cons_append, List.cons_append,
        numberRest_decimal hds hd hfraction hrest]
      simp only [List.length_append, List.length_cons]
      omega
    have hsplit : ds ++ '.' :: d :: (fraction ++ rest) =
        (ds ++ '.' :: d :: fraction) ++ rest := by
      simp only [List.append_assoc, List.cons_append]
    rw [hsplit, utf8_append, utf8_decimal hds hd hfraction,
      hnumber _ (head_utf8_not not_isDigit_beyond hrest), hnumber _ hrest, List.take_left,
      utf8_decimal hds hd hfraction]
  · have hnone : ∀ d more, back = '.' :: d :: more → d.isDigit = false := by
      rintro d more rfl
      rw [Bool.eq_false_iff]
      exact fun hd => hpoint ⟨d, more, rfl, hd⟩
    have hnone' : ∀ d more, utf8 back = '.' :: d :: more → d.isDigit = false := by
      intro d more hbytes
      obtain ⟨ds', rfl, hmore⟩ := utf8_eq_cons (by decide) hbytes
      rw [Bool.eq_false_iff]
      intro hd
      obtain ⟨more', rfl, -⟩ := utf8_eq_cons (ascii_of_isDigit hd) hmore.symm
      cases hd.symm.trans (hnone d more' rfl)
    rw [utf8_append, utf8_digits hds,
      numberRest_whole hds (head_utf8_not not_isDigit_beyond hback) hnone',
      numberRest_whole hds hback hnone, List.take_left, utf8_digits hds]

/-- Bytes that are no ASCII characters neither end a string nor take anything along. -/
theorem stringBody_beyond {front : List Char} (h : ∀ b ∈ front, 128 ≤ b.toNat) (bs : List Char) :
    stringBody (front ++ bs) = ((stringBody bs).1, front.length + (stringBody bs).2) := by
  induction front with
  | nil => simp
  | cons b front ih =>
    rw [List.forall_mem_cons] at h
    rw [List.cons_append, stringBody, ih h.2]
    · simp only [List.length_cons]
      congr 1
      omega
    · exact ne_of_beyond h.1 (by decide)
    · exact ne_of_beyond h.1 (by decide)
    · exact fun _ _ heq => absurd heq (ne_of_beyond h.1 (by decide))

theorem exists_bytes (c : Char) : ∃ b tail, utf8 [c] = b :: tail ∧ ∀ d ∈ tail, 128 ≤ d.toNat := by
  obtain ⟨-, hbytes⟩ | ⟨-, b, tail, hbytes, -, htail⟩ := utf8_char_cases c
  · exact ⟨c, [], hbytes, nofun⟩
  · exact ⟨b, tail, hbytes, fun d hd => le_of_isContinuation (List.all_eq_true.1 htail d hd)⟩

theorem stringBody_utf8 (cs : List Char) :
    stringBody (utf8 cs) =
      ((stringBody cs).1, (utf8 (cs.take (stringBody cs).2)).length) := by
  fun_induction stringBody cs with
  | case1 => rfl
  | case2 cs => rw [utf8_ascii (by decide)]; rfl
  | case3 cs => rw [utf8_ascii (by decide)]; rfl
  | case4 x cs closed n h ih =>
    rw [h] at ih
    -- The backslash takes along a byte only, but no other byte of the character is an ASCII one.
    obtain ⟨b, tail, hbytes, htail⟩ := exists_bytes x
    have hfront : ∀ ds, utf8 ('\\' :: x :: ds) = '\\' :: b :: (tail ++ utf8 ds) := by
      intro ds
      rw [utf8_ascii (by decide), utf8_cons, hbytes]
      rfl
    rw [List.take_succ_cons, List.take_succ_cons, hfront, hfront, stringBody,
      stringBody_beyond htail, ih]
    simp only [List.length_cons, List.length_append]
  | case5 c cs hquote hfeed hslash closed n h ih =>
    rw [h] at ih
    rw [List.take_succ_cons, utf8_cons, utf8_cons c (cs.take n), List.length_append]
    obtain ⟨-, hbytes⟩ | ⟨-, b, tail, hbytes, hb, htail⟩ := utf8_char_cases c
    · have halone : ∀ d ds, c = '\\' → utf8 cs = d :: ds → False := by
        rintro d ds rfl heq
        cases cs with
        | nil => cases heq
        | cons x cs => exact hslash x cs rfl rfl
      rw [hbytes, List.singleton_append, stringBody, ih]
      · simp only [List.length_singleton, Nat.add_comm]
      · exact hquote
      · exact hfeed
      · exact halone
    · have hbeyond : ∀ d ∈ utf8 [c], 128 ≤ d.toNat := by
        rw [hbytes, List.forall_mem_cons]
        refine ⟨by omega, fun d hd => ?_⟩
        exact le_of_isContinuation (List.all_eq_true.1 htail d hd)
      rw [stringBody_beyond hbeyond, ih]

theorem dashesAt?_utf8 (c : Char) (cs : List Char) :
    dashesAt? c (utf8 cs) = (dashesAt? c cs).map fun n => (utf8 (cs.take n)).length := by
  by_cases h : ∃ more, c = '-' ∧ cs = '-' :: '-' :: more
  · obtain ⟨more, rfl, rfl⟩ := h
    have hfront : ∀ ds, utf8 ('-' :: '-' :: ds) = '-' :: '-' :: utf8 ds := by
      intro ds
      rw [utf8_ascii (by decide), utf8_ascii (by decide)]
    have hrun := runLength_utf8 (p := (· == '-')) (v := false)
      (fun d hd => beq_eq_false_iff_ne.2 (ne_of_beyond hd (by decide))) more
    have htake : ('-' :: '-' :: more).take (2 + runLength (· == '-') more) =
        '-' :: '-' :: more.take (runLength (· == '-') more) := by
      rw [Nat.add_comm]
      rfl
    simp only [hfront, dashesAt?, hrun, Option.map_some, htake, List.length_cons]
    congr 1
    omega
  · have hnone : ∀ ds, (∀ more, c = '-' → ds = '-' :: '-' :: more → False) →
        dashesAt? c ds = none := by
      intro ds hds
      rw [dashesAt?]
      exact hds
    rw [hnone cs fun more hc hcs => h ⟨more, hc, hcs⟩, hnone (utf8 cs)]
    · rfl
    · intro more hc hbytes
      obtain ⟨ds, rfl, hmore⟩ := utf8_eq_cons (by decide) hbytes
      obtain ⟨more', rfl, -⟩ := utf8_eq_cons (by decide) hmore.symm
      exact h ⟨more', hc, rfl⟩

/-- A symbol depends on the character behind its first one only. -/
theorem symbolAt?_cons (c x : Char) (cs ds : List Char) :
    symbolAt? c (x :: cs) = symbolAt? c (x :: ds) := by
  unfold symbolAt?
  split <;> simp_all

theorem symbolAt?_beyond (c : Char) {x : Char} (hx : 128 ≤ x.toNat) (cs : List Char) :
    symbolAt? c (x :: cs) = symbolAt? c [] := by
  unfold symbolAt?
  split <;> simp_all

theorem symbolAt?_bytes (c : Char) (cs : List Char) : symbolAt? c (utf8 cs) = symbolAt? c cs := by
  cases cs with
  | nil => rfl
  | cons x cs =>
    rw [utf8_cons]
    obtain ⟨-, hbytes⟩ | ⟨hx, b, tail, hbytes, hb, -⟩ := utf8_char_cases x
    · rw [hbytes]
      exact symbolAt?_cons c x _ _
    · rw [hbytes, symbolAt?_beyond c hx]
      exact symbolAt?_beyond c (by omega) _

theorem symbolAt?_take {c : Char} {cs : List Char} {s : Symbol} {n : Nat}
    (h : symbolAt? c cs = some (s, n)) : (utf8 (cs.take n)).length = n := by
  unfold symbolAt? at h
  split at h <;> cases h <;> rfl

theorem lexeme_utf8 (c : Char) (cs : List Char) :
    lexeme c (utf8 cs) =
      ((lexeme c cs).1, (utf8 (cs.take (lexeme c cs).2)).length) := by
  by_cases hblank : isBlank c = true
  · simp only [lexeme, hblank, if_true, runLength_utf8 not_isBlank_beyond]
  have hhead : ((utf8 cs).head? == some '/') = (cs.head? == some '/') := by
    rw [Bool.eq_iff_iff, beq_iff_eq, beq_iff_eq, head_utf8_eq (by decide)]
  by_cases hnote : (c == '/' && cs.head? == some '/') = true
  · have hfeed : ∀ d : Char, 128 ≤ d.toNat → (d != '\n') = true := fun d hd =>
      bne_iff_ne.2 (ne_of_beyond hd (by decide))
    simp only [lexeme, hblank, hhead, hnote, if_true, Bool.false_eq_true, if_false,
      runLength_utf8 hfeed]
  by_cases hquote : c = '"'
  · subst hquote
    rw [lexeme_quote, lexeme_quote, stringBody_utf8]
  by_cases hdigit : c.isDigit = true
  · rw [lexeme_of_isDigit hdigit, lexeme_of_isDigit hdigit, numberRest_utf8]
  by_cases hword : startsWord c = true
  · obtain ⟨front, back, rfl, hfront, hlength, hback⟩ := exists_run continuesWord cs
    have hbytes : utf8 (front ++ back) = front ++ utf8 back := by
      rw [utf8_append, utf8_of_all not_continuesWord_beyond hfront]
    have hrun : runLength continuesWord (front ++ utf8 back) = front.length :=
      runLength_append hfront (head_utf8_not not_continuesWord_beyond hback)
    rw [lexeme_of_startsWord hword, lexeme_of_startsWord hword, hbytes, hrun, hlength,
      List.take_left, List.take_left, utf8_of_all not_continuesWord_beyond hfront]
  by_cases hslash : c = '/'
  · subst hslash
    have halone : cs.head? ≠ some '/' := by simpa using hnote
    have halone' : (utf8 cs).head? ≠ some '/' := by rwa [Ne, head_utf8_eq (by decide)]
    rw [lexeme_slash halone, lexeme_slash halone']
    rfl
  have hsign : (isBlank c || c == '/' || c == '"' || c.isDigit || startsWord c) = false := by
    simp [hblank, hslash, hquote, hdigit, hword]
  rw [lexeme_of_sign hsign, lexeme_of_sign hsign, dashesAt?_utf8, symbolAt?_bytes]
  cases hdashes : dashesAt? c cs with
  | some n => rfl
  | none =>
    cases hsymbol : symbolAt? c cs with
    | some found =>
      obtain ⟨s, n⟩ := found
      simp only [Option.map_none, symbolAt?_take hsymbol]
    | none => rfl

/-- The lexeme at a byte. A byte that starts no token takes those along that go on with it. -/
def lexemeOfBytes (b : Char) (bs : List Char) : Option Kind × Nat :=
  match lexeme b bs with
  | (some .invalid, 0) => (some .invalid, runLength isContinuation bs)
  | found => found

/-- The kinds and the places of the tokens of some bytes that start at an offset. -/
def scanFrom : (rounds start : Nat) → List Char → List (Kind × Span)
  | _, _, [] => []
  | 0, _, _ :: _ => []
  | rounds + 1, start, b :: bs =>
    let (kind?, n) := lexemeOfBytes b bs
    let rest := scanFrom rounds (start + n + 1) (bs.drop n)
    match kind? with
    | none => rest
    | some kind => (kind, ⟨start, start + n + 1⟩) :: rest

/-- The kinds and the places of the tokens of a source that is given by its bytes. -/
def scan (bytes : List UInt8) : List (Kind × Span) :=
  scanFrom bytes.length 0 (bytes.map Char.ofUInt8)

/-- A character beyond ASCII starts no token. -/
theorem lexeme_beyond {c : Char} (hc : 128 ≤ c.toNat) (cs : List Char) :
    lexeme c cs = (some .invalid, 0) := by
  have hslash : (c == '/') = false := beq_eq_false_iff_ne.2 (ne_of_beyond hc (by decide))
  have hquote : (c == '"') = false := beq_eq_false_iff_ne.2 (ne_of_beyond hc (by decide))
  have hword : startsWord c = false := by
    rw [Bool.eq_false_iff]
    intro hword
    cases (continuesWord_of_startsWord hword).symm.trans (not_continuesWord_beyond c hc)
  have hdashes : dashesAt? c cs = none := by
    rw [dashesAt?]
    exact fun _ hdash => absurd hdash (ne_of_beyond hc (by decide))
  have hsymbol : symbolAt? c cs = none := by
    have hstarts : symbolStarts.all (·.toNat < 128) = true := by decide
    rw [← Option.not_isSome_iff_eq_none, isSome_symbolAt?, List.contains_iff_mem]
    intro hmem
    exact ne_of_beyond hc (of_decide_eq_true (List.all_eq_true.1 hstarts c hmem)) rfl
  rw [lexeme_of_sign, hdashes, hsymbol]
  simp only [not_isBlank_beyond c hc, hslash, hquote, not_isDigit_beyond c hc, hword, Bool.or_self]

theorem lexemeOfBytes_of_run {b : Char} {bs : List Char}
    (h : lexeme b bs = (some .invalid, 0) → runLength isContinuation bs = 0) :
    lexemeOfBytes b bs = lexeme b bs := by
  rw [lexemeOfBytes]
  split
  · rw [h ‹_›, ‹lexeme b bs = _›]
  · rfl

/-- The lexeme at the first byte of a character is the one at the character. -/
theorem lexemeOfBytes_utf8 {c : Char} {body rest : List Char} {kind? : Option Kind}
    (h : lexeme c (body ++ rest) = (kind?, body.length)) :
    ∃ b more, utf8 (c :: body) = b :: more ∧
      lexemeOfBytes b (more ++ utf8 rest) = (kind?, more.length) := by
  obtain ⟨hc, -⟩ | ⟨hc, b, tail, hbytes, hb, htail⟩ := utf8_char_cases c
  · refine ⟨c, utf8 body, utf8_ascii hc body, ?_⟩
    have hrun : runLength isContinuation ([] ++ utf8 (body ++ rest)) = 0 :=
      runLength_append rfl (head_utf8 _)
    rw [List.nil_append] at hrun
    rw [← utf8_append, lexemeOfBytes_of_run fun _ => hrun, lexeme_utf8, h, List.take_left]
  · rw [lexeme_beyond hc, Prod.mk.injEq] at h
    obtain ⟨rfl, hlength⟩ := h
    obtain rfl := List.length_eq_zero_iff.1 hlength.symm
    refine ⟨b, tail, hbytes, ?_⟩
    have hrun : runLength isContinuation (tail ++ utf8 rest) = tail.length :=
      runLength_append htail (head_utf8 rest)
    have hb' : 128 ≤ b.toNat := by omega
    rw [lexemeOfBytes, lexeme_beyond hb']
    exact congrArg _ hrun

/-- Whether a text is looked at by its characters or by its bytes, the same tokens are found. -/
theorem scanFrom_utf8 {rounds rounds' start : Nat} {cs : List Char} (h : cs.length ≤ rounds)
    (h' : (utf8 cs).length ≤ rounds') :
    scanFrom rounds' start (utf8 cs) =
      (tokensFrom rounds start cs).map fun t => (t.kind, t.span) := by
  induction rounds generalizing rounds' start cs with
  | zero =>
    obtain rfl := List.length_eq_zero_iff.1 (Nat.le_zero.1 h)
    cases rounds' <;> rfl
  | succ rounds ih =>
    cases cs with
    | nil => cases rounds' <;> rfl
    | cons c cs =>
      obtain ⟨body, rest, kind?, rfl, hlexeme⟩ := exists_lexeme c cs
      obtain ⟨b, more, hbytes, hbyte⟩ := lexemeOfBytes_utf8 hlexeme
      have hsplit : utf8 (c :: (body ++ rest)) = b :: (more ++ utf8 rest) := by
        rw [← List.cons_append, utf8_append, hbytes, List.cons_append]
      have hstop : ∀ n, n + more.length + 1 = n + Text.byteLength (c :: body) := by
        intro n
        rw [← length_utf8, hbytes, List.length_cons, Nat.add_assoc]
      rw [hsplit] at h' ⊢
      cases rounds' with
      | zero => cases h'
      | succ rounds' =>
        simp only [List.length_cons, List.length_append] at h h'
        have hrest : scanFrom rounds' (start + Text.byteLength (c :: body)) (utf8 rest) = _ :=
          ih (by omega) (by omega)
        simp only [scanFrom, tokensFrom, hbyte, hlexeme, List.take_left, List.drop_left, hstop,
          hrest]
        cases kind? <;> rfl

theorem scan_utf8 (source : List Char) :
    scan (source.flatMap String.utf8EncodeChar) =
      (lex source).map fun t => (t.kind, t.span) := by
  have hbytes : (source.flatMap String.utf8EncodeChar).map Char.ofUInt8 = utf8 source :=
    List.map_flatMap
  have hlength : (source.flatMap String.utf8EncodeChar).length = (utf8 source).length := by
    rw [← hbytes, List.length_map]
  rw [scan, hbytes, hlength]
  exact scanFrom_utf8 (Nat.le_refl _) (Nat.le_refl _)

end TextGrammar.Token
