import Mathlib.Computability.Language
import Mathlib.Data.List.TakeWhile
import TextGrammar.Matching.Leaf

/-! # The languages of numbers

Numbers are spelled in two regular languages. A scanner of one of them finds the longest word at
the front of a text: each part that it takes, it takes whole, since what may come behind a part
never starts with what the part could go on with. -/

namespace TextGrammar.Leaf

def digits : Language Char := {cs | cs ≠ [] ∧ ∀ c ∈ cs, c.isDigit}

def signs : Language Char := 1 + {['+']} + {['-']}

def fractions : Language Char := {['.']} * digits

def exponents : Language Char := ({['e']} + {['E']}) * signs * digits

def integers : Language Char := signs * digits

/-- The spellings of floats: digits and perhaps a fraction, or a fraction alone, and perhaps an
exponent. -/
def floats : Language Char := signs * (digits * (1 + fractions) + fractions) * (1 + exponents)

theorem mem_signs {cs : List Char} : cs ∈ signs ↔ cs = [] ∨ cs = ['+'] ∨ cs = ['-'] := or_assoc

theorem mem_fractions {cs : List Char} : cs ∈ fractions ↔ ∃ ds ∈ digits, cs = '.' :: ds := by
  constructor
  · rintro ⟨_, rfl, ds, hds, rfl⟩
    exact ⟨ds, hds, rfl⟩
  · rintro ⟨ds, hds, rfl⟩
    exact ⟨['.'], rfl, ds, hds, rfl⟩

theorem mem_exponents {cs : List Char} : cs ∈ exponents ↔
    ∃ c sign ds, (c = 'e' ∨ c = 'E') ∧ sign ∈ signs ∧ ds ∈ digits ∧ cs = c :: (sign ++ ds) := by
  constructor
  · rintro ⟨_, ⟨_, rfl | rfl, sign, hsign, rfl⟩, ds, hds, rfl⟩
    · exact ⟨'e', sign, ds, .inl rfl, hsign, hds, rfl⟩
    · exact ⟨'E', sign, ds, .inr rfl, hsign, hds, rfl⟩
  · rintro ⟨c, sign, ds, rfl | rfl, hsign, hds, rfl⟩
    · exact ⟨_, ⟨['e'], .inl rfl, sign, hsign, rfl⟩, ds, hds, rfl⟩
    · exact ⟨_, ⟨['E'], .inr rfl, sign, hsign, rfl⟩, ds, hds, rfl⟩

/-- The parts of a float behind its sign: digits, a fraction and an exponent. -/
structure FloatParts where
  whole : List Char
  fraction : List Char
  exponent : List Char

namespace FloatParts

def text (p : FloatParts) : List Char := p.whole ++ (p.fraction ++ p.exponent)

/-- Each part is spelled as it should or absent, and not both the digits and the fraction are. -/
structure Spelled (p : FloatParts) : Prop where
  whole : ∀ c ∈ p.whole, c.isDigit
  fraction : p.fraction = [] ∨ p.fraction ∈ fractions
  exponent : p.exponent = [] ∨ p.exponent ∈ exponents
  ne_nil : p.whole ≠ [] ∨ p.fraction ≠ []

end FloatParts

theorem mem_floats {cs : List Char} :
    cs ∈ floats ↔ ∃ sign ∈ signs, ∃ p : FloatParts, p.Spelled ∧ cs = sign ++ p.text := by
  constructor
  · rintro ⟨_, ⟨sign, hsign, _, hmantissa, rfl⟩, exponent, hexponent, rfl⟩
    obtain ⟨whole, hwhole, fraction, hfraction, rfl⟩ | hfraction := hmantissa
    · exact ⟨sign, hsign, ⟨whole, fraction, exponent⟩,
        ⟨hwhole.2, hfraction, hexponent, .inl hwhole.1⟩, by simp [FloatParts.text]⟩
    · have hne := hfraction
      obtain ⟨_, -, rfl⟩ := mem_fractions.1 hne
      exact ⟨sign, hsign, ⟨[], _, exponent⟩, ⟨nofun, .inr hfraction, hexponent, .inr nofun⟩,
        by simp [FloatParts.text]⟩
  · rintro ⟨sign, hsign, ⟨whole, fraction, exponent⟩, ⟨hwhole, hfraction, hexponent, hne⟩, rfl⟩
    refine ⟨_, ⟨sign, hsign, whole ++ fraction, ?_, rfl⟩, exponent, hexponent,
      by simp [FloatParts.text]⟩
    by_cases hnil : whole = []
    · subst hnil
      exact .inr (hfraction.resolve_left (hne.resolve_left (· rfl)))
    · exact .inl ⟨whole, ⟨hnil, hwhole⟩, fraction, hfraction, rfl⟩

/-- The longest word of a language at the front of a text. -/
structure Longest (language : Language Char) (text lexeme : List Char) : Prop where
  mem : lexeme ∈ language
  front : lexeme <+: text
  longest : ∀ other ∈ language, other <+: text → other.length ≤ lexeme.length

/-- A scanner finds a word of a language at the front of every text that has one there, and no
shorter word than any other one there. -/
structure Scans (language : Language Char) (scan : List Char → Option (List Char)) : Prop where
  sound : ∀ {text lexeme}, scan text = some lexeme → lexeme ∈ language ∧ lexeme <+: text
  complete : ∀ {text other}, other ∈ language → other <+: text →
    ∃ lexeme, scan text = some lexeme ∧ other.length ≤ lexeme.length

namespace Scans
variable {language : Language Char} {scan : List Char → Option (List Char)}
  {text lexeme : List Char}

theorem eq_some_iff (h : Scans language scan) :
    scan text = some lexeme ↔ Longest language text lexeme := by
  constructor
  · intro hscan
    obtain ⟨hmem, hfront⟩ := h.sound hscan
    refine ⟨hmem, hfront, fun other hother hfront => ?_⟩
    obtain ⟨_, hscan', hle⟩ := h.complete hother hfront
    cases hscan.symm.trans hscan'
    exact hle
  · intro hlongest
    obtain ⟨found, hscan, hle⟩ := h.complete hlongest.mem hlongest.front
    obtain ⟨hmem, hfront⟩ := h.sound hscan
    have hlength := Nat.le_antisymm (hlongest.longest found hmem hfront) hle
    rw [hscan, (List.prefix_of_prefix_length_le hfront hlongest.front hlength.le).eq_of_length
      hlength]

theorem exists_iff (h : Scans language scan) :
    (∃ lexeme, scan text = some lexeme) ↔ ∃ lexeme ∈ language, lexeme <+: text := by
  constructor
  · rintro ⟨lexeme, hscan⟩
    exact ⟨lexeme, h.sound hscan⟩
  · rintro ⟨other, hother, hfront⟩
    obtain ⟨lexeme, hscan, -⟩ := h.complete hother hfront
    exact ⟨lexeme, hscan⟩

end Scans

section
variable {ds sign back : List Char} {c : Char}

/-- Digits are taken whole in front of anything else. -/
theorem takeWhile_digits (hds : ∀ c ∈ ds, c.isDigit) (hc : c.isDigit = false) :
    (ds ++ c :: back).takeWhile Char.isDigit = ds := by
  rw [List.takeWhile_append_of_pos hds, List.takeWhile_cons_of_neg (by simp [hc]),
    List.append_nil]

theorem length_le_takeWhile_digits (back : List Char) (hds : ∀ c ∈ ds, c.isDigit) :
    ds.length ≤ ((ds ++ back).takeWhile Char.isDigit).length := by
  rw [List.takeWhile_append_of_pos hds, List.length_append]
  exact Nat.le_add_right _ _

theorem takeWhile_mem_digits {cs : List Char} (h : cs.takeWhile Char.isDigit ≠ []) :
    cs.takeWhile Char.isDigit ∈ digits :=
  ⟨h, fun _ hmem => List.mem_takeWhile_imp hmem⟩

theorem signOf_mem_signs (cs : List Char) : signOf cs ∈ signs := by
  unfold signOf
  split
  · exact mem_signs.2 (.inr (.inl rfl))
  · exact mem_signs.2 (.inr (.inr rfl))
  · exact mem_signs.2 (.inl rfl)

theorem signOf_isPrefix (cs : List Char) : signOf cs <+: cs := by
  unfold signOf
  split
  · exact ⟨_, rfl⟩
  · exact ⟨_, rfl⟩
  · exact List.nil_prefix

/-- A sign is found in front of what is none. -/
theorem signOf_append (hsign : sign ∈ signs) (hplus : c ≠ '+') (hminus : c ≠ '-') :
    signOf (sign ++ c :: back) = sign := by
  obtain rfl | rfl | rfl := mem_signs.1 hsign
  · unfold signOf
    split
    · rename_i heq
      cases heq
      exact absurd rfl hplus
    · rename_i heq
      cases heq
      exact absurd rfl hminus
    · rfl
  · rfl
  · rfl

theorem append_isPrefix {front more text : List Char} (hfront : front <+: text)
    (hmore : more <+: text.drop front.length) : front ++ more <+: text := by
  obtain ⟨rest, rfl⟩ := hfront
  rw [List.drop_left] at hmore
  exact (List.prefix_append_right_inj front).2 hmore

theorem fractionOf_sound (cs : List Char) :
    (fractionOf cs = [] ∨ fractionOf cs ∈ fractions) ∧ fractionOf cs <+: cs := by
  unfold fractionOf
  split
  · rename_i cs
    by_cases hnil : cs.takeWhile Char.isDigit = []
    · simp [hnil]
    · simp only [List.isEmpty_iff, if_neg hnil]
      exact ⟨.inr (mem_fractions.2 ⟨_, takeWhile_mem_digits hnil, rfl⟩),
        List.cons_prefix_cons.2 ⟨rfl, List.takeWhile_prefix _⟩⟩
  · exact ⟨.inl rfl, List.nil_prefix⟩

/-- A fraction is taken whole in front of anything but digits. -/
theorem fractionOf_digits (hds : ds ∈ digits) (hc : c.isDigit = false) :
    fractionOf ('.' :: (ds ++ c :: back)) = '.' :: ds := by
  simp only [fractionOf, takeWhile_digits hds.2 hc, List.isEmpty_iff, if_neg hds.1]

theorem length_le_fractionOf (back : List Char) (hds : ds ∈ digits) :
    ('.' :: ds).length ≤ (fractionOf ('.' :: (ds ++ back))).length := by
  have hle := length_le_takeWhile_digits back hds.2
  have hpos := List.length_pos_iff.2 hds.1
  have hne : (ds ++ back).takeWhile Char.isDigit ≠ [] := List.length_pos_iff.1 (hpos.trans_le hle)
  simp only [fractionOf, List.isEmpty_iff, if_neg hne, List.length_cons]
  omega

theorem fractionOf_cons (hc : c ≠ '.') : fractionOf (c :: back) = [] := by
  unfold fractionOf
  split
  · rename_i heq
    cases heq
    exact absurd rfl hc
  · rfl

theorem exponentOf_sound (cs : List Char) :
    (exponentOf cs = [] ∨ exponentOf cs ∈ exponents) ∧ exponentOf cs <+: cs := by
  cases cs with
  | nil => exact ⟨.inl rfl, List.nil_prefix⟩
  | cons c cs =>
    simp only [exponentOf]
    by_cases hmark : c = 'e' ∨ c = 'E'
    · rw [if_pos (by simpa using hmark)]
      by_cases hnil : (cs.drop (signOf cs).length).takeWhile Char.isDigit = []
      · simp [hnil]
      · simp only [List.isEmpty_iff, if_neg hnil]
        refine ⟨.inr (mem_exponents.2 ⟨c, _, _, hmark, signOf_mem_signs cs,
          takeWhile_mem_digits hnil, rfl⟩), ?_⟩
        exact List.cons_prefix_cons.2
          ⟨rfl, append_isPrefix (signOf_isPrefix cs) (List.takeWhile_prefix _)⟩
    · rw [if_neg (by simpa using hmark)]
      exact ⟨.inl rfl, List.nil_prefix⟩

end

/-- A digit or a point is no sign. -/
theorem signOf_append_of_digit {sign back : List Char} {c : Char} (hsign : sign ∈ signs)
    (hc : c.isDigit = true ∨ c = '.') : signOf (sign ++ c :: back) = sign := by
  refine signOf_append hsign ?_ ?_
  · rintro rfl
    revert hc
    decide
  · rintro rfl
    revert hc
    decide

/-- Digits behind a sign are found. -/
theorem signed_digits {sign ds : List Char} (back : List Char) (hsign : sign ∈ signs)
    (hds : ds ∈ digits) : signOf (sign ++ (ds ++ back)) = sign ∧
      ds.length ≤ (((sign ++ (ds ++ back)).drop sign.length).takeWhile Char.isDigit).length := by
  obtain ⟨c, more, rfl⟩ := List.exists_cons_of_ne_nil hds.1
  constructor
  · exact signOf_append_of_digit hsign (.inl (hds.2 c List.mem_cons_self))
  · rw [List.drop_left]
    exact length_le_takeWhile_digits back hds.2

theorem length_le_exponentOf {exponent : List Char} (back : List Char)
    (hexponent : exponent ∈ exponents) :
    exponent.length ≤ (exponentOf (exponent ++ back)).length := by
  obtain ⟨c, sign, ds, hmark, hsign, hds, rfl⟩ := mem_exponents.1 hexponent
  obtain ⟨hsignOf, hle⟩ := signed_digits back hsign hds
  have hpos := List.length_pos_iff.2 hds.1
  have hne := List.length_pos_iff.1 (hpos.trans_le hle)
  rw [List.cons_append, List.append_assoc, exponentOf, if_pos (by simpa using hmark)]
  simp only [hsignOf, List.isEmpty_iff, if_neg hne, List.length_cons, List.length_append]
  omega

theorem integerLexeme?_scans : Scans integers integerLexeme? where
  sound {text lexeme} h := by
    simp only [integerLexeme?] at h
    split at h
    · cases h
    · rename_i hne
      cases h
      rw [List.isEmpty_iff] at hne
      exact ⟨⟨_, signOf_mem_signs text, _, takeWhile_mem_digits hne, rfl⟩,
        append_isPrefix (signOf_isPrefix text) (List.takeWhile_prefix _)⟩
  complete {text other} hother hfront := by
    obtain ⟨back, rfl⟩ := hfront
    obtain ⟨sign, hsign, ds, hds, rfl⟩ := Language.mem_mul.1 hother
    obtain ⟨hsignOf, hle⟩ := signed_digits back hsign hds
    have hpos := List.length_pos_iff.2 hds.1
    have hne := List.length_pos_iff.1 (hpos.trans_le hle)
    refine ⟨sign ++ ((sign ++ (ds ++ back)).drop sign.length).takeWhile Char.isDigit, ?_, ?_⟩
    · simp only [List.append_assoc, integerLexeme?, hsignOf, List.isEmpty_iff, if_neg hne]
    · rw [List.length_append, List.length_append]
      omega

namespace FloatParts

def taken (cs : List Char) : FloatParts :=
  let whole := cs.takeWhile Char.isDigit
  let fraction := fractionOf (cs.drop whole.length)
  ⟨whole, fraction, exponentOf ((cs.drop whole.length).drop fraction.length)⟩

theorem taken_front (cs : List Char) : (taken cs).text <+: cs :=
  append_isPrefix (List.takeWhile_prefix _)
    (append_isPrefix (fractionOf_sound _).2 (exponentOf_sound _).2)

theorem taken_spelled {cs : List Char} (h : (taken cs).whole ≠ [] ∨ (taken cs).fraction ≠ []) :
    (taken cs).Spelled :=
  ⟨fun _ hmem => List.mem_takeWhile_imp hmem, (fractionOf_sound _).1, (exponentOf_sound _).1, h⟩

/-- Digits are taken whole in front of a fraction or an exponent. -/
theorem taken_digits {whole back : List Char} {c : Char} (hwhole : ∀ c ∈ whole, c.isDigit)
    (hc : c.isDigit = false) : taken (whole ++ c :: back) =
      ⟨whole, fractionOf (c :: back),
        exponentOf ((c :: back).drop (fractionOf (c :: back)).length)⟩ := by
  simp only [taken, takeWhile_digits hwhole hc, List.drop_left]

/-- A text in front of which there are parts starts with no sign. -/
theorem Spelled.head {p : FloatParts} (h : p.Spelled) :
    ∃ c more, p.text = c :: more ∧ (c.isDigit = true ∨ c = '.') := by
  unfold text
  cases hwhole : p.whole with
  | cons c more =>
    refine ⟨c, more ++ (p.fraction ++ p.exponent), rfl, .inl (h.whole c ?_)⟩
    rw [hwhole]
    exact List.mem_cons_self
  | nil =>
    have hne := h.ne_nil.resolve_left (· hwhole)
    obtain ⟨ds, -, heq⟩ := mem_fractions.1 (h.fraction.resolve_left hne)
    exact ⟨'.', ds ++ p.exponent, by rw [heq]; rfl, .inr rfl⟩

/-- What is taken is no shorter than any parts that are there. -/
theorem Spelled.taken {p : FloatParts} (h : p.Spelled) (back : List Char) :
    (taken (p.text ++ back)).Spelled ∧
      p.text.length ≤ (FloatParts.taken (p.text ++ back)).text.length := by
  suffices hsuffices : ((FloatParts.taken (p.text ++ back)).whole ≠ [] ∨
      (FloatParts.taken (p.text ++ back)).fraction ≠ []) ∧
        p.text.length ≤ (FloatParts.taken (p.text ++ back)).text.length from
    ⟨taken_spelled hsuffices.1, hsuffices.2⟩
  obtain ⟨whole, fraction, exponent⟩ := p
  obtain ⟨hwhole, hfraction, hexponent, hne⟩ := h
  dsimp only at hwhole hfraction hexponent hne
  have hassoc : FloatParts.text ⟨whole, fraction, exponent⟩ ++ back =
      whole ++ (fraction ++ (exponent ++ back)) := by simp [text]
  rw [hassoc]
  -- What comes behind the digits decides: a fraction, an exponent, or neither of them.
  obtain rfl | hfraction := hfraction
  · obtain rfl | hexponent := hexponent
    · have hle := length_le_takeWhile_digits back hwhole
      have hpos := List.length_pos_iff.2 (hne.resolve_right (· rfl))
      refine ⟨.inl (List.length_pos_iff.1 (hpos.trans_le hle)), ?_⟩
      simp only [text, FloatParts.taken, List.length_append, List.nil_append, List.length_nil]
      omega
    · have hle := length_le_exponentOf back hexponent
      obtain ⟨c, sign, ds, hmark, -, -, rfl⟩ := mem_exponents.1 hexponent
      have hc : c.isDigit = false ∧ c ≠ '.' := by obtain rfl | rfl := hmark <;> decide
      rw [List.cons_append] at hle
      rw [List.nil_append, List.cons_append, taken_digits hwhole hc.1, fractionOf_cons hc.2]
      refine ⟨hne, ?_⟩
      simp only [text, List.length_append, List.length_nil, List.drop_zero]
      omega
  · obtain ⟨ds, hds, rfl⟩ := mem_fractions.1 hfraction
    have hpoint : '.'.isDigit = false := by decide
    rw [List.cons_append, taken_digits hwhole hpoint]
    obtain rfl | hexponent := hexponent
    · have hle := length_le_fractionOf back hds
      refine ⟨.inr (List.length_pos_iff.1 ((Nat.succ_pos _).trans_le hle)), ?_⟩
      simp only [text, List.length_append, List.nil_append, List.length_nil]
      omega
    · have hle := length_le_exponentOf back hexponent
      obtain ⟨c, sign, es, hmark, -, -, rfl⟩ := mem_exponents.1 hexponent
      have hc : c.isDigit = false := by obtain rfl | rfl := hmark <;> decide
      rw [List.cons_append] at hle ⊢
      rw [fractionOf_digits hds hc, ← List.cons_append, List.drop_left]
      refine ⟨.inr nofun, ?_⟩
      simp only [text, List.length_append]
      omega

end FloatParts

theorem floatLexeme?_eq (text : List Char) : floatLexeme? text =
    if (FloatParts.taken (text.drop (signOf text).length)).whole.isEmpty &&
        (FloatParts.taken (text.drop (signOf text).length)).fraction.isEmpty then none
    else some (signOf text ++ (FloatParts.taken (text.drop (signOf text).length)).text) := by
  simp only [floatLexeme?, FloatParts.taken, FloatParts.text, List.append_assoc]
  rfl

theorem floatLexeme?_scans : Scans floats floatLexeme? where
  sound {text lexeme} h := by
    rw [floatLexeme?_eq] at h
    split at h
    · cases h
    · rename_i hne
      cases h
      rw [Bool.and_eq_true, List.isEmpty_iff, List.isEmpty_iff, not_and_or] at hne
      exact ⟨mem_floats.2 ⟨_, signOf_mem_signs text, _, FloatParts.taken_spelled hne, rfl⟩,
        append_isPrefix (signOf_isPrefix text) (FloatParts.taken_front _)⟩
  complete {text other} hother hfront := by
    obtain ⟨back, rfl⟩ := hfront
    obtain ⟨sign, hsign, p, hp, rfl⟩ := mem_floats.1 hother
    obtain ⟨hspelled, hle⟩ := hp.taken back
    have hsignOf : signOf (sign ++ (p.text ++ back)) = sign := by
      obtain ⟨c, more, heq, hc⟩ := hp.head
      rw [heq]
      exact signOf_append_of_digit hsign hc
    refine ⟨sign ++ (FloatParts.taken (p.text ++ back)).text, ?_, ?_⟩
    · rw [List.append_assoc, floatLexeme?_eq, hsignOf, List.drop_left, if_neg]
      rw [Bool.and_eq_true, List.isEmpty_iff, List.isEmpty_iff, not_and_or]
      exact hspelled.ne_nil
    · rw [List.length_append, List.length_append]
      omega

/-- A point and an exponent without digits are taken back. -/
example : floatLexeme? "-12.".toList = some "-12".toList ∧
    floatLexeme? ".5e+".toList = some ".5".toList ∧ floatLexeme? "-.e7".toList = none := by
  decide

end TextGrammar.Leaf
