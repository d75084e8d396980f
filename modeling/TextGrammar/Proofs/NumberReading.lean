import Mathlib.Data.Nat.Digits.Defs
import TextGrammar.Proofs.AtomicMatching
import TextGrammar.Proofs.Number.Lexemes

/-! # Reading numbers

A number leaf skips blanks and takes the longest spelling of a number there, the blanks behind it
and one line end. Every spelling of a float is the spelling of some float; of the integers only
those in range are read. -/

namespace TextGrammar
open Matching (Place State matchWithin matchPattern_atomic callWithin_atomic)
open Leaf (digits signs exponents integers floats FloatParts Longest Scans isNumberBlank)

namespace Number
open Leaf (mem_signs mem_fractions mem_exponents mem_floats)

def decimalValue (ds : List Char) : Nat := Nat.ofDigits 10 (ds.reverse.map digitValue)

/-- A word spells an integer. -/
inductive Spells : List Char → Int → Prop
  | unsigned {ds : List Char} (hds : ds ∈ digits) : Spells ds (decimalValue ds)
  | plus {ds : List Char} (hds : ds ∈ digits) : Spells ('+' :: ds) (decimalValue ds)
  | minus {ds : List Char} (hds : ds ∈ digits) : Spells ('-' :: ds) (-(decimalValue ds : Int))

theorem exists_spells {lexeme : List Char} (h : lexeme ∈ integers) : ∃ n, Spells lexeme n := by
  obtain ⟨sign, hsign, ds, hds, rfl⟩ := Language.mem_mul.1 h
  obtain rfl | rfl | rfl := mem_signs.1 hsign
  · exact ⟨_, .unsigned hds⟩
  · exact ⟨_, .plus hds⟩
  · exact ⟨_, .minus hds⟩

theorem digitsValue_eq (ds : List Char) : digitsValue ds = decimalValue ds := by
  rw [digitsValue, decimalValue, Nat.ofDigits_eq_foldr, List.foldr_map, List.foldr_reverse]
  congr 1
  funext n c
  simp [Nat.add_comm]

/-- A sign in front of digits or a point is split off. -/
theorem splitSign_append {sign back : List Char} {c : Char} (hsign : sign ∈ signs)
    (hc : c.isDigit = true ∨ c = '.') :
    splitSign (sign ++ c :: back) = (decide (sign = ['-']), c :: back) := by
  obtain rfl | rfl | rfl := mem_signs.1 hsign
  · unfold splitSign
    split
    · rename_i heq
      cases heq
      exact absurd hc (by decide)
    · rename_i heq
      cases heq
      exact absurd hc (by decide)
    · rfl
  · rfl
  · rfl

/-- A word is read as the integer that it spells, if that is in range. -/
theorem readInteger?_of_spells {lexeme : List Char} {n : Int} (h : Spells lexeme n) :
    readInteger? lexeme = integer? n := by
  have hread : ∀ {sign ds : List Char}, sign ∈ signs → ds ∈ digits →
      readInteger? (sign ++ ds) =
        integer? (if sign = ['-'] then -(decimalValue ds : Int) else decimalValue ds) := by
    intro sign ds hsign hds
    obtain ⟨c, more, rfl⟩ := List.exists_cons_of_ne_nil hds.1
    have hc := hds.2 c List.mem_cons_self
    simp only [readInteger?, splitSign_append hsign (.inl hc), digitsValue_eq]
    rw [if_pos ⟨nofun, List.all_eq_true.2 hds.2⟩]
    simp
  cases h with
  | unsigned hds => exact hread (mem_signs.2 (.inl rfl)) hds
  | plus hds => exact hread (mem_signs.2 (.inr (.inl rfl))) hds
  | minus hds => exact hread (mem_signs.2 (.inr (.inr rfl))) hds

theorem readInteger?_eq_some_iff {lexeme : List Char} (h : lexeme ∈ integers) {i : Int64} :
    readInteger? lexeme = some i ↔ Spells lexeme i.toInt := by
  constructor
  · intro hread
    obtain ⟨n, hn⟩ := exists_spells h
    rw [readInteger?_of_spells hn] at hread
    rwa [toInt_of_integer? hread]
  · intro hspells
    rw [readInteger?_of_spells hspells, integer?_toInt]

/-- A word is read if it spells an integer in range. -/
theorem readInteger?_isSome_iff {lexeme : List Char} (h : lexeme ∈ integers) :
    (readInteger? lexeme).isSome = true ↔ ∃ n, Spells lexeme n ∧ InRange n := by
  constructor
  · intro hsome
    obtain ⟨i, hi⟩ := Option.isSome_iff_exists.1 hsome
    exact ⟨i.toInt, (readInteger?_eq_some_iff h).1 hi, inRange_toInt i⟩
  · rintro ⟨n, hspells, hrange⟩
    rw [readInteger?_of_spells hspells, integer?, if_pos hrange]
    rfl

theorem readExponent?_isSome {exponent : List Char}
    (h : exponent = [] ∨ exponent ∈ exponents) : (readExponent? exponent).isSome = true := by
  obtain rfl | h := h
  · rfl
  · obtain ⟨c, sign, ds, hmark, hsign, hds, rfl⟩ := mem_exponents.1 h
    obtain ⟨d, more, rfl⟩ := List.exists_cons_of_ne_nil hds.1
    have hd := hds.2 d List.mem_cons_self
    rw [readExponent?, if_pos (by simpa using hmark)]
    simp only [splitSign_append hsign (.inl hd)]
    rw [if_pos ⟨nofun, List.all_eq_true.2 hds.2⟩]
    rfl

/-- Digits are split off whole in front of an exponent. -/
theorem split_digits {ds exponent : List Char} (hds : ∀ c ∈ ds, c.isDigit)
    (h : exponent = [] ∨ exponent ∈ exponents) :
    (ds ++ exponent).takeWhile Char.isDigit = ds ∧
      (ds ++ exponent).dropWhile Char.isDigit = exponent := by
  rw [List.takeWhile_append_of_pos hds, List.dropWhile_append_of_pos hds]
  obtain rfl | h := h
  · exact ⟨List.append_nil ds, rfl⟩
  · obtain ⟨c, sign, es, hmark, -, -, rfl⟩ := mem_exponents.1 h
    have hc : ¬c.isDigit = true := by obtain rfl | rfl := hmark <;> decide
    rw [List.takeWhile_cons_of_neg hc, List.dropWhile_cons_of_neg hc]
    exact ⟨List.append_nil ds, rfl⟩

theorem readDecimal?_isSome (negative : Bool) {p : FloatParts} (h : p.Spelled) :
    (readDecimal? negative p.text).isSome = true := by
  obtain ⟨whole, fraction, exponent⟩ := p
  obtain ⟨hwhole, hfraction, hexponent, hne⟩ := h
  dsimp only at hwhole hfraction hexponent hne
  obtain rfl | hfraction := hfraction
  · obtain ⟨htake, hdrop⟩ := split_digits hwhole hexponent
    have hpoint : ∀ cs, exponent ≠ '.' :: cs := by
      rintro cs rfl
      obtain ⟨c, _, _, hmark, -, -, heq⟩ := mem_exponents.1 (hexponent.resolve_left nofun)
      cases heq
      exact absurd hmark (by decide)
    simp [readDecimal?, FloatParts.text, htake, hdrop, hne.resolve_right (· rfl),
      readExponent?_isSome hexponent]
  · obtain ⟨ds, hds, rfl⟩ := mem_fractions.1 hfraction
    obtain ⟨htake, hdrop⟩ := split_digits hds.2 hexponent
    have hpoint : '.'.isDigit = false := rfl
    simp [readDecimal?, FloatParts.text, List.takeWhile_append_of_pos hwhole,
      List.dropWhile_append_of_pos hwhole, htake, hdrop, hds.1, readExponent?_isSome hexponent]

/-- Every spelling of a float is read. -/
theorem readFloat?_isSome {lexeme : List Char} (h : lexeme ∈ floats) :
    (readFloat? lexeme).isSome = true := by
  obtain ⟨sign, hsign, p, hp, rfl⟩ := mem_floats.1 h
  have hsplit : splitSign (sign ++ p.text) = (decide (sign = ['-']), p.text) := by
    obtain ⟨c, more, heq, hc⟩ := hp.head
    rw [heq, splitSign_append hsign hc]
  rw [readFloat?, hsplit]
  dsimp only
  split
  · rfl
  split
  · rfl
  exact readDecimal?_isSome _ hp

end Number

namespace Leaf

inductive OneLineEnd : (ending left : List Char) → Prop
  | returnFeed {left : List Char} : OneLineEnd ['\r', '\n'] left
  | lineFeed {left : List Char} : OneLineEnd ['\n'] left
  | absent {left : List Char} (hreturn : ¬['\r', '\n'] <+: left) (hfeed : ¬['\n'] <+: left) :
    OneLineEnd [] left

theorem lineEndLength_spec (cs : List Char) :
    ∃ ending, cs = ending ++ cs.drop (lineEndLength cs) ∧
      OneLineEnd ending (cs.drop (lineEndLength cs)) := by
  unfold lineEndLength
  split
  · exact ⟨_, rfl, .returnFeed⟩
  · exact ⟨_, rfl, .lineFeed⟩
  · rename_i hreturn hfeed
    refine ⟨[], rfl, .absent ?_ ?_⟩
    · rintro ⟨left, rfl⟩
      exact hreturn left rfl
    · rintro ⟨left, rfl⟩
      exact hfeed left rfl

def TakenBehind (lexeme ahead left : List Char) : Prop :=
  ∃ ending, (ahead.drop lexeme.length).dropWhile isNumberBlank = ending ++ left ∧
    OneLineEnd ending left

theorem drop_takeWhile (cs : List Char) :
    cs.drop (cs.takeWhile isNumberBlank).length = cs.dropWhile isNumberBlank := by
  have hsplit := List.takeWhile_append_dropWhile (p := isNumberBlank) (l := cs)
  exact (congrArg (List.drop _) hsplit).symm.trans List.drop_left

section
variable {language : Language Char} {lexeme? : List Char → Option (List Char)}
  {capture? : List Char → Option Capture} {rest : List Char}

theorem readNumber?_eq_some (hscans : Scans language lexeme?) {c : Capture} {taken : Nat}
    (h : readNumber? lexeme? capture? rest = some (c, taken)) :
    ∃ lexeme, Longest language (rest.dropWhile isNumberBlank) lexeme ∧ capture? lexeme = some c ∧
      TakenBehind lexeme (rest.dropWhile isNumberBlank) (rest.drop taken) := by
  simp only [readNumber?, Option.bind_eq_bind, Option.bind_eq_some_iff, Option.pure_def,
    Option.some.injEq, Prod.mk.injEq] at h
  obtain ⟨lexeme, hlexeme, _, hcapture, rfl, rfl⟩ := h
  rw [drop_takeWhile, hscans.eq_some_iff] at hlexeme
  refine ⟨lexeme, hlexeme, hcapture, ?_⟩
  simp only [← List.drop_drop, drop_takeWhile]
  exact lineEndLength_spec _

theorem readNumber?_eq_none_iff (hscans : Scans language lexeme?) :
    readNumber? lexeme? capture? rest = none ↔
      ∀ lexeme, Longest language (rest.dropWhile isNumberBlank) lexeme →
        capture? lexeme = none := by
  constructor
  · intro hnone lexeme hlongest
    have hlexeme := hscans.eq_some_iff.2 hlongest
    by_contra hsome
    obtain ⟨c, hc⟩ := Option.ne_none_iff_exists'.1 hsome
    simp [readNumber?, drop_takeWhile, hlexeme, hc] at hnone
  · intro hall
    rw [Option.eq_none_iff_forall_ne_some]
    rintro ⟨c, taken⟩ hsome
    obtain ⟨lexeme, hlongest, hc, -⟩ := readNumber?_eq_some hscans hsome
    exact absurd ((hall lexeme hlongest).symm.trans hc) nofun

end

end Leaf

/-- How a number leaf ends that captures what the longest word of a language there reads as: it
stays where it is, or stops behind the word and what is taken behind that. -/
def ReadsNumber (language : Language Char) (reads : List Char → Capture → Prop)
    (input : List Char) (p q : Place) (c : Matching.Outcome) : Prop :=
  (c = none → q = p) ∧
    ∀ x, c = some x → ∃ lexeme, Longest language (p.rest.dropWhile isNumberBlank) lexeme ∧
      reads lexeme x ∧ Leaf.TakenBehind lexeme (p.rest.dropWhile isNumberBlank) q.rest ∧
      q.Within input

namespace Matching

/-- A number leaf matches where the longest word of its language has a capture. -/
theorem matchNumber_yields {l : Leaf} {language : Language Char}
    {lexeme? : List Char → Option (List Char)} {capture? : List Char → Option Capture}
    (hread : l.read? = Leaf.readNumber? lexeme? capture?) (hscans : Scans language lexeme?)
    {input : List Char} {s : State} (hs : s.place.Within input) :
    ∃ c t, Yields (matchLeaf l) s c t ∧
      (c ≠ none ↔ ∃ lexeme, Longest language (s.place.rest.dropWhile isNumberBlank) lexeme ∧
        capture? lexeme ≠ none) ∧
      ReadsNumber language (fun lexeme x => capture? lexeme = some x) input s.place t.place c := by
  obtain ⟨c, t, h⟩ := exists_yields fun e => matchLeaf_faults (l := l) (s := s) (e := e)
  refine ⟨c, t, h, ?_⟩
  obtain ⟨x, taken, hsome, rfl, rfl⟩ | ⟨rfl, rfl, hnone⟩ := matchLeaf_yields h
  · rw [hread] at hsome
    obtain ⟨lexeme, hlongest, hx, htaken⟩ := Leaf.readNumber?_eq_some hscans hsome
    refine ⟨⟨fun _ => ⟨lexeme, hlongest, by rw [hx]; nofun⟩, fun _ => nofun⟩, nofun, ?_⟩
    rintro _ ⟨⟩
    exact ⟨lexeme, hlongest, hx, htaken, hs.ahead ⟨taken, rfl⟩⟩
  · rw [hread, Leaf.readNumber?_eq_none_iff hscans] at hnone
    refine ⟨⟨fun hne => absurd rfl hne, ?_⟩, fun _ => rfl, nofun⟩
    rintro ⟨lexeme, hlongest, hne⟩
    exact absurd (hnone lexeme hlongest) hne

end Matching

/-- A float leaf matches where any spelling of a float is ahead, behind blanks, and captures the
float that the longest one reads as. An integer leaf matches where the longest spelling of an
integer ahead spells one in range, which it captures. Behind that they take all blanks and one
line end; a leaf that fails takes nothing. -/
theorem number_reading (g : Grammar) (limit levels : Nat) {input : List Char} {s : State}
    (hs : s.place.Within input) :
    (∃ c t, Matching.Yields (matchWithin g limit levels (.leaf .float)) s c t ∧
      (c ≠ none ↔ ∃ lexeme ∈ floats, lexeme <+: s.place.rest.dropWhile isNumberBlank) ∧
      ReadsNumber floats (fun lexeme x => ∃ f, Number.readFloat? lexeme = some f ∧ x = .float f)
        input s.place t.place c) ∧
    ∃ c t, Matching.Yields (matchWithin g limit levels (.leaf .integer)) s c t ∧
      (c ≠ none ↔ ∃ lexeme n, Longest integers (s.place.rest.dropWhile isNumberBlank) lexeme ∧
        Number.Spells lexeme n ∧ Number.InRange n) ∧
      ReadsNumber integers (fun lexeme x => ∃ i : Int64, Number.Spells lexeme i.toInt ∧ x = .int i)
        input s.place t.place c := by
  constructor
  · obtain ⟨c, t, h, hiff, hnone, hsome⟩ :=
      Matching.matchNumber_yields (l := .float) rfl Leaf.floatLexeme?_scans hs
    refine ⟨c, t, h, ?_, hnone, ?_⟩
    · rw [hiff, ← Leaf.floatLexeme?_scans.exists_iff]
      refine exists_congr fun lexeme => ?_
      rw [Leaf.floatLexeme?_scans.eq_some_iff]
      refine and_iff_left_of_imp fun hlongest => ?_
      rw [← Option.isSome_iff_ne_none, Option.isSome_map]
      exact Number.readFloat?_isSome hlongest.mem
    · intro x hx
      obtain ⟨lexeme, hlongest, hread, hbehind⟩ := hsome x hx
      obtain ⟨f, hf, rfl⟩ := Option.map_eq_some_iff.1 hread
      exact ⟨lexeme, hlongest, ⟨f, hf, rfl⟩, hbehind⟩
  · obtain ⟨c, t, h, hiff, hnone, hsome⟩ :=
      Matching.matchNumber_yields (l := .integer) rfl Leaf.integerLexeme?_scans hs
    refine ⟨c, t, h, ?_, hnone, ?_⟩
    · rw [hiff]
      refine exists_congr fun lexeme => ?_
      rw [exists_and_left]
      refine and_congr_right fun hlongest => ?_
      rw [← Option.isSome_iff_ne_none, Option.isSome_map]
      exact Number.readInteger?_isSome_iff hlongest.mem
    · intro x hx
      obtain ⟨lexeme, hlongest, hread, hbehind⟩ := hsome x hx
      obtain ⟨i, hi, rfl⟩ := Option.map_eq_some_iff.1 hread
      exact ⟨lexeme, hlongest, ⟨i, (Number.readInteger?_eq_some_iff hlongest.mem).1 hi, rfl⟩,
        hbehind⟩

def floatGrammar : Grammar := ⟨[⟨"float", .leaf .float⟩], 0, by decide⟩

/-- In front of a blank, a float that starts with its fraction, and a line end. -/
def beforeFloat : State := ⟨⟨2, " -.5e3\t\r\n7".toList⟩, 2, 1, [], 0, 0, []⟩

theorem number_reading_fraction : beforeFloat.place.Within "é -.5e3\t\r\n7".toList ∧
    (∃ x t, Matching.Yields (matchWithin floatGrammar 4 3 (.leaf .float)) beforeFloat (some x) t) ∧
    ∃ t, Matching.Yields (matchWithin floatGrammar 4 3 (.leaf .integer)) beforeFloat none t ∧
      t.place = beforeFloat.place := by
  have hwithin : beforeFloat.place.Within "é -.5e3\t\r\n7".toList := ⟨['é'], by decide⟩
  obtain ⟨⟨c, t, h, hiff, -⟩, d, u, hd, hdiff, hplace, -⟩ := number_reading floatGrammar 4 3 hwithin
  refine ⟨hwithin, ?_, ?_⟩
  · obtain ⟨x, rfl⟩ := Option.ne_none_iff_exists'.1
      (hiff.2 (Leaf.floatLexeme?_scans.exists_iff.1 ⟨"-.5e3".toList, by decide⟩))
    exact ⟨x, t, h⟩
  · obtain rfl : d = none := by
      by_contra hne
      obtain ⟨lexeme, -, hlongest, -⟩ := hdiff.1 hne
      exact absurd (Leaf.integerLexeme?_scans.eq_some_iff.2 hlongest) nofun
    exact ⟨u, hd, hplace rfl⟩

end TextGrammar
