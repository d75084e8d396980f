import Mathlib.Tactic.IntervalCases
import TextGrammar.Proofs.Display.Literals
import TextGrammar.Proofs.IntegerConversion
import TextGrammar.Proofs.Syntax.Numerals

/-! # Integers written and read

An integer is shown as its digits behind a minus or nothing. The conversion of a string, the integer
leaf and the parser of grammar sources read that text as the integer, each with what it allows
around it. -/

namespace TextGrammar

namespace Text
variable {front text back : List Char}

theorem dropWhile_of_forall {p : Char → Bool} (h : ∀ c ∈ text, p c = false) :
    text.dropWhile p = text :=
  List.dropWhile_eq_self_iff.2 fun hpos => by simp [h _ (List.getElem_mem hpos)]

/-- Blanks around what has none are dropped, and nothing else. -/
theorem trim_blanks (hfront : ∀ c ∈ front, isBlank c = true) (htext : ∀ c ∈ text, isBlank c = false)
    (hback : ∀ c ∈ back, isBlank c = true) : trim (front ++ text ++ back) = text := by
  rw [trim, List.append_assoc, List.dropWhile_append_of_pos hfront]
  cases text with
  | nil => rw [List.nil_append, List.dropWhile_eq_nil_iff.2 hback]; rfl
  | cons c more =>
    have hc : ¬isBlank c = true := by rw [htext c List.mem_cons_self]; nofun
    rw [List.cons_append, List.dropWhile_cons_of_neg hc, ← List.cons_append, List.reverse_append,
      List.dropWhile_append_of_pos fun d hd => hback d (List.mem_reverse.1 hd),
      dropWhile_of_forall fun d hd => htext d (List.mem_reverse.1 hd), List.reverse_reverse]

end Text

namespace Number
variable {n : Int64}

/-- The text of an integer spells it. -/
theorem spells_text (n : Int64) : Spells (Value.int n).text n.toInt := by
  have hdigits : Nat.toDigits 10 n.toInt.natAbs ∈ Leaf.digits :=
    ⟨Nat.toDigits_ne_nil, List.all_eq_true.1 (toDigits_all_isDigit _)⟩
  have hvalue : decimalValue (Nat.toDigits 10 n.toInt.natAbs) = n.toInt.natAbs := by
    rw [← digitsValue_eq, digitsValue_toDigits]
  have htext : (Value.int n).text = _ := toString_toInt n
  rw [htext]
  by_cases hn : n.toInt < 0
  · have hspells := Spells.minus hdigits
    rw [hvalue, Int.ofNat_natAbs_of_nonpos hn.le, Int.neg_neg] at hspells
    rwa [decide_eq_true hn, if_pos rfl]
  · have hspells := Spells.unsigned hdigits
    rw [hvalue, Int.natAbs_of_nonneg (Int.not_lt.1 hn)] at hspells
    rwa [decide_eq_false hn, if_neg Bool.false_ne_true]

theorem Spells.mem_integers {lexeme : List Char} {z : Int} (h : Spells lexeme z) :
    lexeme ∈ Leaf.integers := by
  cases h with
  | unsigned hds => exact ⟨[], Leaf.mem_signs.2 (.inl rfl), _, hds, rfl⟩
  | plus hds => exact ⟨['+'], Leaf.mem_signs.2 (.inr (.inl rfl)), _, hds, rfl⟩
  | minus hds => exact ⟨['-'], Leaf.mem_signs.2 (.inr (.inr rfl)), _, hds, rfl⟩

theorem readInteger?_text (n : Int64) : readInteger? (Value.int n).text = some n := by
  rw [readInteger?_of_spells (spells_text n), integer?_toInt]

theorem text_ne_nil (n : Int64) : (Value.int n).text ≠ [] := by
  intro hnil
  have hread := readInteger?_text n
  rw [hnil] at hread
  cases hread

/-- The text of an integer is signs and digits, of which no kind of blank is one. -/
theorem of_mem_text {p : Char → Bool} (hsign : p '-' = false)
    (hdigit : ∀ c, c.isDigit = true → p c = false) : ∀ c ∈ (Value.int n).text, p c = false := by
  have htext : (Value.int n).text = _ := toString_toInt n
  rw [htext]
  intro c hc
  obtain hc | hc := List.mem_append.1 hc
  · split at hc
    · rwa [List.mem_singleton.1 hc]
    · cases hc
  · exact hdigit c (List.all_eq_true.1 (toDigits_all_isDigit _) c hc)

end Number

namespace Leaf

/-- A spelled integer is found whole in front of what is no digit. -/
theorem longest_integer {lexeme back : List Char} (h : lexeme ∈ integers)
    (hback : ∀ c ∈ back.head?, c.isDigit = false) : Longest integers (lexeme ++ back) lexeme := by
  obtain ⟨sign, hsign, ds, hds, rfl⟩ := Language.mem_mul.1 h
  have hnone : back.takeWhile Char.isDigit = [] := by
    cases back with
    | nil => rfl
    | cons c back => exact List.takeWhile_cons_of_neg (by rw [hback c rfl]; nofun)
  have hrun : (ds ++ back).takeWhile Char.isDigit = ds := by
    rw [List.takeWhile_append_of_pos hds.2, hnone, List.append_nil]
  have hne : ¬ds.isEmpty = true := by
    rw [List.isEmpty_iff]
    exact hds.1
  refine integerLexeme?_scans.eq_some_iff.1 ?_
  simp only [List.append_assoc, integerLexeme?, (signed_digits back hsign hds).1, List.drop_left,
    hrun, if_neg hne]

/-- Blanks and one line end behind a lexeme are all taken. -/
theorem TakenBehind.eq_nil {lexeme after ending left : List Char}
    (h : TakenBehind lexeme (lexeme ++ (after ++ ending)) left)
    (hafter : ∀ c ∈ after, isNumberBlank c = true)
    (hending : ending ∈ [[], ['\n'], ['\r', '\n']]) : left = [] := by
  obtain ⟨taken, hsplit, htaken⟩ := h
  rw [List.drop_left, List.dropWhile_append_of_pos hafter] at hsplit
  simp only [List.mem_cons, List.not_mem_nil, or_false] at hending
  obtain rfl | rfl | rfl := hending
  · exact (List.append_eq_nil_iff.1 hsplit.symm).2
  · cases htaken with
    | returnFeed => cases hsplit
    | lineFeed => exact (List.cons.inj hsplit).2.symm
    | absent _ hfeed => exact absurd ⟨[], hsplit⟩ hfeed
  · cases htaken with
    | returnFeed => exact (List.cons.inj (List.cons.inj hsplit).2).2.symm
    | lineFeed => cases hsplit
    | absent hreturn _ => exact absurd ⟨[], hsplit⟩ hreturn

/-- Neither a blank nor the start of a line end is a digit. -/
theorem head_isDigit_blanks {after ending : List Char}
    (hafter : ∀ c ∈ after, isNumberBlank c = true)
    (hending : ending ∈ [[], ['\n'], ['\r', '\n']]) :
    ∀ c ∈ (after ++ ending).head?, c.isDigit = false := by
  cases after with
  | nil =>
    simp only [List.mem_cons, List.not_mem_nil, or_false] at hending
    obtain rfl | rfl | rfl := hending <;> simp
  | cons d more =>
    rintro _ ⟨⟩
    have hd := hafter d List.mem_cons_self
    simp only [isNumberBlank, Bool.or_eq_true, beq_iff_eq] at hd
    obtain rfl | rfl := hd <;> rfl

end Leaf

namespace Matching
open Leaf (Longest integers isNumberBlank)

/-- An integer leaf takes the text of an integer with the blanks and the line end around it. -/
theorem matchInteger_yields {input before after ending : List Char} {s : State} {n : Int64}
    (hs : s.place.Within input)
    (hrest : s.place.rest = before ++ ((Value.int n).text ++ (after ++ ending)))
    (hbefore : ∀ c ∈ before, isNumberBlank c = true)
    (hafter : ∀ c ∈ after, isNumberBlank c = true)
    (hending : ending ∈ [[], ['\n'], ['\r', '\n']]) :
    ∃ t, Yields (matchLeaf .integer) s (some (.int n)) t ∧ t.place.rest = [] ∧
      t.place.Within input := by
  have hblank : ∀ c ∈ (Value.int n).text, isNumberBlank c = false :=
    Number.of_mem_text rfl fun c hc => by
      rw [Bool.eq_false_iff]
      rintro hblank
      simp only [isNumberBlank, Bool.or_eq_true, beq_iff_eq] at hblank
      obtain rfl | rfl := hblank <;> cases hc
  have hahead : s.place.rest.dropWhile isNumberBlank =
      (Value.int n).text ++ (after ++ ending) := by
    rw [hrest, List.dropWhile_append_of_pos hbefore]
    obtain ⟨c, more, htext⟩ := List.exists_cons_of_ne_nil (Number.text_ne_nil n)
    rw [htext] at hblank ⊢
    rw [List.cons_append, List.dropWhile_cons_of_neg]
    simp [hblank c]
  have hlongest : Longest integers (s.place.rest.dropWhile isNumberBlank) (Value.int n).text := by
    rw [hahead]
    exact Leaf.longest_integer (Number.spells_text n).mem_integers
      (Leaf.head_isDigit_blanks hafter hending)
  obtain ⟨c, t, h, hiff, -, hsome⟩ :=
    matchNumber_yields (l := .integer) rfl Leaf.integerLexeme?_scans hs
  obtain ⟨x, rfl⟩ := Option.ne_none_iff_exists'.1
    (hiff.2 ⟨_, hlongest, by simp [Number.readInteger?_text]⟩)
  obtain ⟨lexeme, hlongest', hread, hbehind, hwithin⟩ := hsome x rfl
  obtain rfl : lexeme = (Value.int n).text := by
    rw [← Leaf.integerLexeme?_scans.eq_some_iff] at hlongest hlongest'
    exact Option.some.inj (hlongest'.symm.trans hlongest)
  rw [Number.readInteger?_text] at hread
  obtain rfl := Option.some.inj hread
  rw [hahead] at hbehind
  exact ⟨t, h, hbehind.eq_nil hafter hending, hwithin⟩

end Matching

namespace Source
open Number (signedValue InRange)

/-- The text of an integer is one integer literal. -/
theorem integerTokens_text (n : Int64) : ∃ negative sign t,
    IntegerTokens (Value.int n).text negative sign t ∧
      Token.lex (Value.int n).text = sign ++ [t] ∧ signedValue negative t.text = n.toInt := by
  have hwords : (Token.lex (Value.int n).text).map Token.word = _ :=
    (congrArg Token.words (List.append_nil _).symm).trans
      (Number.words_integer n (rfl : Token.Apart [] = true))
  obtain ⟨sign, ts, hlex, hsign, hts⟩ := List.map_eq_append_iff.1 hwords
  obtain ⟨t, us, rfl, ht, hus⟩ := List.map_eq_cons_iff.1 hts
  obtain rfl := List.map_eq_nil_iff.1 hus
  obtain ⟨hkind, htext⟩ := Prod.mk.inj ht
  have hdigits : ∀ c ∈ t.text, c.isDigit = true :=
    htext ▸ List.all_eq_true.1 (Number.toDigits_all_isDigit _)
  have hminus : SignTokens (decide (n.toInt < 0)) sign := by
    cases hneg : decide (n.toInt < 0) with
    | false =>
      rw [hneg] at hsign
      obtain rfl := List.map_eq_nil_iff.1 hsign
      exact .none
    | true =>
      rw [hneg] at hsign
      obtain ⟨m, us, rfl, hm, hus⟩ := List.map_eq_cons_iff.1 hsign
      obtain rfl := List.map_eq_nil_iff.1 hus
      exact .minus (Prod.mk.inj hm).1
  have hmem : t ∈ Token.lex (Value.int n).text := by
    rw [hlex]
    exact List.mem_append_right _ (List.mem_singleton_self t)
  have hpoint : '.' ∉ t.text := fun hpoint => absurd (hdigits '.' hpoint) (by decide)
  refine ⟨_, sign, t, ⟨hminus, hmem, hkind, hpoint⟩, hlex, ?_⟩
  rw [htext, signedValue, ← Number.digitsValue_eq, Number.digitsValue_toDigits]
  simp only [decide_eq_true_eq]
  split_ifs <;> omega

variable {source : List Char} {negative : Bool} {sign : List Token} {t : Token}

theorem parseExpr_integer (h : IntegerTokens source negative sign t)
    (hlex : Token.lex source = sign ++ [t]) (hrange : InRange (signedValue negative t.text)) :
    ∃ span, parseExpr source = .ok (.int span (Int64.ofInt (signedValue negative t.text))) := by
  obtain ⟨span, d, hd, -⟩ := Parser.expr_integer (c := .start _ (Text.byteLength source)) h hlex
    hrange (by decide : 0 < nestingLimit) le_rfl
  exact ⟨span, map_eq_ok.2 ⟨_, hd, rfl⟩⟩

theorem parseExpr_outOfRange (h : IntegerTokens source negative sign t)
    (hlex : Token.lex source = sign ++ [t]) (hrange : ¬InRange (signedValue negative t.text)) :
    parseExpr source = .error ⟨t.span, .integerOutOfRange⟩ := by
  have hfault := Parser.expr_outOfRange (c := .start _ (Text.byteLength source)) h hlex hrange
    (by decide : 0 < nestingLimit) 127
  exact congrArg (Except.map Prod.fst) hfault

end Source

namespace Action
variable {frames : List Frame} {e : Expr} {L M : Locals} {o : Operand} {n : Int64}

theorem not_isBlank_of_isDigit {c : Char} (h : c.isDigit = true) : Text.isBlank c = false := by
  simp only [Char.isDigit, Bool.and_eq_true, decide_eq_true_eq, ge_iff_le,
    UInt32.le_iff_toNat_le] at h
  have hlow : 48 ≤ c.toNat := h.1
  have hhigh : c.toNat ≤ 57 := h.2
  rw [Text.isBlank]
  generalize c.toNat = code at hlow hhigh
  interval_cases code <;> rfl

/-- A string is converted to the integer of which it is the text, with blanks around it. -/
theorem int_yields {front back : List Char} (ho : Yields (operand frames e) L o M)
    (hblank : ∀ c ∈ front ++ back, Text.isBlank c = true)
    (htext : o.toValue = .str (String.ofList (front ++ (Value.int n).text ++ back))) :
    Yields (operand frames (.call "int" [e])) L (.owned (.int n)) M := by
  have htrim : Text.trim (front ++ (Value.int n).text ++ back) = (Value.int n).text :=
    Text.trim_blanks (fun c hc => hblank c (List.mem_append_left _ hc))
      (Number.of_mem_text (by decide) fun c => not_isBlank_of_isDigit)
      (fun c hc => hblank c (List.mem_append_right _ hc))
  refine call_yields (b := .int) ho ?_
  rw [Builtin.apply, htext, toInteger, String.toList_ofList, htrim, Number.readInteger?_text]

theorem str_yields (ho : Yields (operand frames e) L o M) (hn : o.toValue = .int n) :
    Yields (operand frames (.call "str" [e])) L (.owned (.str (Value.int n).display)) M := by
  refine call_yields (b := .str) ho ?_
  rw [Builtin.apply, hn, toText]

end Action

open TextGrammar.Action (Frame Locals Operand operand)
open Matching (State matchWithin)
open Source (Cursor Parser IntegerTokens nestingLimit parseExpr)
open Number (InRange signedValue)

/-- The text of an integer is read as that integer wherever integers are read. It is what the
conversion of the integer to a string gives, and a string of it with blanks around it is converted
to the integer. A leaf takes it whole with the blanks and the line end around it. It is parsed as
one integer literal; and an integer literal of any source, at any place of a parser, is refused if
and only if the integer that it writes with its sign is out of range. -/
theorem integer_texts :
    (∀ (n : Int64) (frames : List Frame) (e : Expr) (L M : Locals) (o : Operand),
      Yields (operand frames e) L o M →
      (o.toValue = .int n →
        Yields (operand frames (.call "str" [e])) L (.owned (.str (Value.int n).display)) M ∧
        Yields (operand frames (.call "int" [.call "str" [e]])) L (.owned (.int n)) M) ∧
      ∀ front back, (∀ c ∈ front ++ back, Text.isBlank c = true) →
        o.toValue = .str (String.ofList (front ++ (Value.int n).text ++ back)) →
        Yields (operand frames (.call "int" [e])) L (.owned (.int n)) M) ∧
    (∀ (n : Int64) (g : Grammar) (limit levels : Nat) (input : List Char) (s : State)
      (before after ending : List Char), s.place.Within input →
      s.place.rest = before ++ (Value.int n).text ++ after ++ ending →
      (∀ c ∈ before ++ after, c = ' ' ∨ c = '\t') → ending ∈ [[], ['\n'], ['\r', '\n']] →
      ∃ t, Matching.Yields (matchWithin g limit levels (.leaf .integer)) s (some (.int n)) t ∧
        t.place.rest = [] ∧ t.place.Within input) ∧
    (∀ n : Int64, ∃ span c, Yields (Parser.expr nestingLimit)
      (.start (Token.lex (Value.int n).text) (Text.byteLength (Value.int n).text)) (.int span n) c ∧
        c.rest = []) ∧
    ∀ source negative sign t, IntegerTokens source negative sign t →
      (∀ expr block (c : Cursor) rest, c.rest = sign ++ t :: rest →
        (InRange (signedValue negative t.text) → Yields (Parser.atom expr block) c
          (.int (c.here.join t.span) (Int64.ofInt (signedValue negative t.text)))
          { c with rest, last := t.span }) ∧
        (¬InRange (signedValue negative t.text) →
          Faults (Parser.atom expr block) c ⟨t.span, .integerOutOfRange⟩)) ∧
      (Token.lex source = sign ++ [t] →
        ((∃ fault, parseExpr source = .error fault) ↔ ¬InRange (signedValue negative t.text))) := by
  refine ⟨fun n frames e L M o ho => ⟨fun hn => ?_, fun front back => Action.int_yields ho⟩, ?_, ?_,
    ?_⟩
  · have hstr := Action.str_yields ho hn
    have hblank : ∀ c ∈ ([] : List Char) ++ [], Text.isBlank c = true := nofun
    refine ⟨hstr, Action.int_yields hstr hblank ?_⟩
    rw [List.append_nil]
    rfl
  · intro n g limit levels input s before after ending hs hrest hblank hending
    have hnumberBlank : ∀ c ∈ before ++ after, Leaf.isNumberBlank c = true := by
      intro c hc
      obtain rfl | rfl := hblank c hc <;> rfl
    rw [List.append_assoc, List.append_assoc] at hrest
    exact Matching.matchInteger_yields hs hrest
      (fun c hc => hnumberBlank c (List.mem_append_left _ hc))
      (fun c hc => hnumberBlank c (List.mem_append_right _ hc)) hending
  · intro n
    obtain ⟨negative, sign, t, htokens, hlex, hvalue⟩ := Source.integerTokens_text n
    obtain ⟨span, c, hc, hnone⟩ := Source.Parser.expr_integer
      (c := .start _ (Text.byteLength (Value.int n).text)) htokens hlex
      (hvalue ▸ Number.inRange_toInt n) (by decide : 0 < nestingLimit)
      (Nat.le_add_right nestingLimit _)
    rw [hvalue, Int64.ofInt_toInt] at hc
    exact ⟨span, c, hc, hnone⟩
  · intro source negative sign t htokens
    refine ⟨fun expr block c rest hc => ⟨Source.Parser.atom_integer htokens hc,
      Source.Parser.atom_outOfRange htokens hc⟩, fun hlex => ⟨?_, fun hrange =>
        ⟨_, Source.parseExpr_outOfRange htokens hlex hrange⟩⟩⟩
    rintro ⟨fault, hfault⟩ hrange
    obtain ⟨span, hok⟩ := Source.parseExpr_integer htokens hlex hrange
    cases hfault.symm.trans hok

def beforeLeast : State := ⟨⟨0, " -9223372036854775808\t\r\n".toList⟩, 0, 0, [], 0, 0, []⟩

/-- The least integer, of which the digits alone are out of range. -/
theorem integer_texts_least :
    Yields (operand [] (.call "int" [.literal (.str "\t-9223372036854775808 ")])) []
      (.owned (.int (-9223372036854775808))) [] ∧
    (∃ t, Matching.Yields (matchWithin ⟨[⟨"integer", .leaf .integer⟩], 0, by decide⟩ 4 3
      (.leaf .integer)) beforeLeast (some (.int (-9223372036854775808))) t ∧ t.place.rest = []) ∧
    ∃ fault, parseExpr "9223372036854775808".toList = .error fault := by
  have hliteral : Yields (operand [] (.literal (.str "\t-9223372036854775808 "))) []
      (.borrowed (.str "\t-9223372036854775808 ")) [] := yields_pure.2 ⟨rfl, rfl⟩
  have htext : (Value.int (-9223372036854775808)).text = "-9223372036854775808".toList := by
    decide +kernel
  have hstart : beforeLeast.place.Within " -9223372036854775808\t\r\n".toList :=
    ⟨[], by decide +kernel⟩
  obtain ⟨hconversion, hleaf, -, hliterals⟩ := integer_texts
  refine ⟨?_, ?_, ?_⟩
  · refine (hconversion (-9223372036854775808) [] _ [] [] _ hliteral).2 ['\t'] [' ']
      (List.forall_mem_cons.2 ⟨rfl, List.forall_mem_singleton.2 rfl⟩) ?_
    rw [htext]
    rfl
  · obtain ⟨t, ht, hnone, -⟩ := hleaf (-9223372036854775808) _ 4 3 _ beforeLeast [' '] ['\t']
      ['\r', '\n'] hstart (by rw [htext]; rfl)
      (List.forall_mem_cons.2 ⟨.inl rfl, List.forall_mem_singleton.2 (.inr rfl)⟩) (by decide)
    exact ⟨t, ht, hnone⟩
  · have hlex : Token.lex "9223372036854775808".toList =
        [⟨.number, ⟨0, 19⟩, "9223372036854775808".toList⟩] := by decide +kernel
    have htokens : IntegerTokens "9223372036854775808".toList false []
        ⟨.number, ⟨0, 19⟩, "9223372036854775808".toList⟩ :=
      ⟨.none, by rw [hlex]; exact List.mem_singleton_self _, rfl, by decide⟩
    exact ((hliterals _ _ _ _ htokens).2 hlex).2 (by decide +kernel)

end TextGrammar
