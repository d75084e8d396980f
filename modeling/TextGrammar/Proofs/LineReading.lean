import Mathlib.Data.List.Basic
import Mathlib.Data.List.TakeWhile
import TextGrammar.Proofs.AtomicMatching
import TextGrammar.Proofs.Matching.Consumption

/-! # Reading lines

A line is taken with what ends it, and captured without: a line feed, a carriage return and a line
feed, or nothing at the end of the input. So nothing of an input that is read line by line is lost
but line ends. The exception is an input that ends with a carriage return, which is taken, but is
neither captured nor part of a line end. -/

namespace TextGrammar
open Matching (Place State matchWithin matchPattern_atomic callWithin_atomic)

namespace Leaf

/-- What may stand between the text of a line and what is left of the input. A text that is ended
by a line feed alone, or by nothing, has no carriage return at its end. -/
inductive LineEnds : (text ending left : List Char) → Prop
  | lineFeed {text left : List Char} (htext : text.getLast? ≠ some '\r') :
    LineEnds text ['\n'] left
  | returnFeed {text left : List Char} : LineEnds text ['\r', '\n'] left
  | unended {text : List Char} (htext : text.getLast? ≠ some '\r') : LineEnds text [] []

/-- A carriage return at the very end of an input stands where the end of a line would. -/
def ReturnAtEnd (ending left : List Char) : Prop := ending = ['\r'] ∧ left = []

/-- A line is its text and perhaps a carriage return. -/
theorem eq_withoutReturn_append (line : List Char) :
    ∃ back, line = withoutReturn line ++ back ∧
      (back = [] ∧ (withoutReturn line).getLast? ≠ some '\r' ∨ back = ['\r']) := by
  unfold withoutReturn
  split
  · rename_i hlast
    exact ⟨['\r'], (List.dropLast_append_getLast? _ hlast).symm, .inr rfl⟩
  · rename_i hlast
    exact ⟨[], (List.append_nil _).symm, .inl ⟨rfl, hlast⟩⟩

/-- No line is read at the end of an input, and only there. -/
theorem readLine?_eq_none_iff {rest : List Char} : readLine? rest = none ↔ rest = [] := by
  unfold readLine?
  split
  · rename_i hempty
    simpa using hempty
  · rename_i hempty
    simpa using hempty

/-- What is taken is the text of a line and what ends it. -/
theorem readLine?_eq_some {rest : List Char} {c : Capture} {taken : Nat}
    (h : readLine? rest = some (c, taken)) :
    ∃ text ending left, rest = text ++ ending ++ left ∧ taken = (text ++ ending).length ∧
      c = .text (.ofList text) ∧ '\n' ∉ text ∧
      (LineEnds text ending left ∨ ReturnAtEnd ending left) := by
  unfold readLine? at h
  split at h
  · cases h
  simp only [Option.some.injEq, Prod.mk.injEq] at h
  obtain ⟨rfl, rfl⟩ := h
  have hsplit := List.takeWhile_append_dropWhile (p := (· != '\n')) (l := rest)
  have hfeed : '\n' ∉ rest.takeWhile (· != '\n') := fun hmem => by
    simpa using List.mem_takeWhile_imp hmem
  have hhead := List.head?_dropWhile_not (· != '\n') rest
  generalize rest.takeWhile (· != '\n') = line at hsplit hfeed ⊢
  obtain ⟨back, hline, hback⟩ := eq_withoutReturn_append line
  generalize withoutReturn line = text at hline hback ⊢
  subst hline
  have htext : '\n' ∉ text := fun hmem => hfeed (List.mem_append_left _ hmem)
  cases hleft : rest.dropWhile (· != '\n') with
  | nil =>
    rw [hleft, List.append_nil] at hsplit
    subst hsplit
    refine ⟨text, back, [], (List.append_nil _).symm, ?_, rfl, htext, ?_⟩
    · rw [if_neg (Nat.lt_irrefl _)]
    · obtain ⟨rfl, hlast⟩ | rfl := hback
      · exact .inl (.unended hlast)
      · exact .inr ⟨rfl, rfl⟩
  | cons first left =>
    obtain rfl : first = '\n' := by simpa [hleft] using hhead
    rw [hleft] at hsplit
    subst hsplit
    refine ⟨text, back ++ ['\n'], left, by simp, ?_, rfl, htext, .inl ?_⟩
    · rw [if_pos (by simp)]
      simp [Nat.add_assoc]
    · obtain ⟨rfl, hlast⟩ | rfl := hback
      · exact .lineFeed hlast
      · exact .returnFeed

section
variable (ends : (text ending left : List Char) → Prop)

/-- A text consists of lines, each of them a text without a line feed and what ends it. -/
inductive Lines : List (List Char × List Char) → (whole : List Char) → Prop
  | nil : Lines [] []
  | cons {text ending left : List Char} {lines : List (List Char × List Char)}
    (htaken : text ++ ending ≠ []) (hfeed : '\n' ∉ text) (hends : ends text ending left)
    (hleft : Lines lines left) : Lines ((text, ending) :: lines) (text ++ ending ++ left)

end

namespace Lines
variable {ends : (text ending left : List Char) → Prop} {lines : List (List Char × List Char)}
  {whole : List Char}

/-- The texts with what ends them are the whole. -/
theorem flatMap_eq (h : Lines ends lines whole) : lines.flatMap (fun l => l.1 ++ l.2) = whole := by
  induction h with
  | nil => rfl
  | cons _ _ _ _ ih => rw [List.flatMap_cons, ih]

/-- A text that does not end with a carriage return consists of lines with line ends alone. -/
theorem ended (h : Lines (fun text ending left => LineEnds text ending left ∨
      ReturnAtEnd ending left) lines whole) (hlast : whole.getLast? ≠ some '\r') :
    Lines LineEnds lines whole := by
  induction h with
  | nil => exact .nil
  | @cons text ending left lines htaken hfeed hends _ ih =>
    rw [List.getLast?_append] at hlast
    refine .cons htaken hfeed ?_ (ih fun hleft => hlast (by rw [hleft]; rfl))
    obtain hends | ⟨rfl, rfl⟩ := hends
    · exact hends
    · simp at hlast

end Lines

end Leaf

namespace Matching
open Leaf (readLine?_eq_none_iff readLine?_eq_some LineEnds ReturnAtEnd Lines)

/-- A line is matched as its text, and the matcher goes on behind what ends it. -/
theorem matchLine_yields {s t : State} {c : Outcome} (h : Yields (matchLeaf .line) s c t) :
    c = none ∧ s.place.rest = [] ∧ t.place = s.place ∨
    ∃ text ending left, c = some (.text (.ofList text)) ∧ s.place.rest = text ++ ending ++ left ∧
      '\n' ∉ text ∧ (LineEnds text ending left ∨ ReturnAtEnd ending left) ∧
      t.place = ⟨s.place.offset + Text.byteLength (text ++ ending), left⟩ ∧
      text ++ ending ≠ [] := by
  obtain ⟨x, taken, hread, rfl, rfl⟩ | ⟨rfl, rfl, hread⟩ := matchLeaf_yields h
  · obtain ⟨text, ending, left, hrest, rfl, rfl, hfeed, hends⟩ := readLine?_eq_some hread
    have htaken := (Leaf.readLine?_takes hread).1
    refine .inr ⟨text, ending, left, rfl, hrest, hfeed, hends, ?_, List.length_pos_iff.1 htaken⟩
    simp only [Place.advance]
    rw [hrest, List.take_left, List.drop_left]
  · exact .inl ⟨rfl, readLine?_eq_none_iff.1 hread, rfl⟩

/-- Lines are read up to the end of the input, if there are rounds enough. -/
theorem repeatLine_yields {rounds : Nat} {s t : State} {items : List Capture}
    (hrounds : s.place.rest.length < rounds)
    (h : Yields (repeatUpTo (matchLeaf .line) rounds) s items t) :
    ∃ lines, items = lines.map (fun l => .text (.ofList l.1)) ∧ t.place.rest = [] ∧
      Lines (fun text ending left => LineEnds text ending left ∨ ReturnAtEnd ending left) lines
        s.place.rest := by
  induction rounds generalizing s items with
  | zero => exact absurd hrounds (Nat.not_lt_zero _)
  | succ rounds ih =>
    obtain ⟨c, u, more, hline, -, hmore, rfl⟩ | ⟨c, hline, hidle, -⟩ | ⟨u, hline, rfl, rfl⟩ :=
      repeatUpTo_yields h
    · obtain ⟨⟨⟩, -⟩ | ⟨text, ending, left, hc, hrest, hfeed, hends, hplace, htaken⟩ :=
        matchLine_yields hline
      have hlength := List.length_pos_iff.2 htaken
      rw [hrest, List.length_append] at hrounds
      obtain ⟨lines, rfl, hend, hlines⟩ := ih (by rw [hplace]; dsimp only; omega) hmore
      rw [hplace] at hlines
      refine ⟨(text, ending) :: lines, ?_, hend, ?_⟩
      · rw [Option.some.inj hc, List.map_cons]
      · rw [hrest]
        exact .cons htaken hfeed hends hlines
    · obtain ⟨⟨⟩, -⟩ | ⟨text, ending, left, -, -, -, -, hplace, htaken⟩ := matchLine_yields hline
      rw [hplace] at hidle
      have hbytes : 0 < Text.byteLength (text ++ ending) :=
        Nat.pos_of_ne_zero fun hzero => htaken (Text.byteLength_eq_zero.1 hzero)
      exact absurd (Nat.lt_add_of_pos_right hbytes) hidle
    · obtain ⟨-, hrest, -⟩ | ⟨_, _, _, ⟨⟩, -⟩ := matchLine_yields hline
      refine ⟨[], rfl, hrest, ?_⟩
      rw [hrest]
      exact .nil

/-- A repetition of lines reads all that is left of the input. -/
theorem repetition_line_yields (g : Grammar) (call : Nat → Matcher Outcome) (s : State) :
    ∃ lines t, Yields (matchPattern g call (.repetition (.leaf .line))) s
        (some (.list (lines.map fun l => .text (.ofList l.1)))) t ∧ t.place.rest = [] ∧
      Lines (fun text ending left => LineEnds text ending left ∨ ReturnAtEnd ending left) lines
        s.place.rest := by
  have hends : ∀ e, ¬Faults (matchPattern g call (.repetition (.leaf .line))) s e := fun e h =>
    repeatUpTo_not_faults (fun _ _ => matchLeaf_faults) _ _ _ (repeatGreedily_faults h)
  obtain ⟨c, t, h⟩ := exists_yields hends
  obtain ⟨items, hitems, rfl⟩ := repeatGreedily_yields h
  obtain ⟨lines, rfl, hrest, hlines⟩ := repeatLine_yields (Nat.lt_succ_self _) hitems
  exact ⟨lines, t, h, hrest, hlines⟩

theorem Place.Within.getLast?_eq {p : Place} {input : List Char} {c : Char} (h : p.Within input)
    (hlast : p.rest.getLast? = some c) : input.getLast? = some c := by
  obtain ⟨front, hcut⟩ := h
  obtain ⟨rfl, -⟩ := Text.cut?_eq_some.1 hcut
  rw [List.getLast?_append, hlast, Option.some_or]

theorem Place.Within.offset_eq_iff {p : Place} {input : List Char} (h : p.Within input) :
    p.offset = Text.byteLength input ↔ p.rest = [] := by
  obtain ⟨front, hcut⟩ := h
  obtain ⟨rfl, hoffset⟩ := Text.cut?_eq_some.1 hcut
  rw [hoffset, Text.byteLength_append, ← Text.byteLength_eq_zero]
  omega

/-- A line that is matched lies within the input, in front of where the matcher goes on. -/
theorem matchLine_within {input : List Char} {s t : State} {x : Capture}
    (hs : s.place.Within input) (h : Yields (matchLeaf .line) s (some x) t) :
    ∃ text ending, x = .text (.ofList text) ∧ '\n' ∉ text ∧ s.place.offset < t.place.offset ∧
      Text.slice? s.place.offset t.place.offset input = some (text ++ ending) ∧
      (LineEnds text ending t.place.rest ∨ ReturnAtEnd ending t.place.rest) ∧
      (input.getLast? ≠ some '\r' → LineEnds text ending t.place.rest) := by
  obtain ⟨⟨⟩, -⟩ | ⟨text, ending, left, hx, hrest, hfeed, hends, hplace, htaken⟩ :=
    matchLine_yields h
  have hbytes : Text.byteLength (text ++ ending) ≠ 0 :=
    fun hzero => htaken (Text.byteLength_eq_zero.1 hzero)
  rw [hplace]
  refine ⟨text, ending, Option.some.inj hx, hfeed, by dsimp only; omega, ?_, hends, ?_⟩
  · obtain ⟨front, hcut⟩ := hs
    obtain ⟨rfl, hoffset⟩ := Text.cut?_eq_some.1 hcut
    rw [hoffset, hrest]
    exact Text.slice?_append front (text ++ ending) left
  · intro hlast
    obtain hends | ⟨rfl, rfl⟩ := hends
    · exact hends
    · refine absurd (hs.getLast?_eq ?_) hlast
      rw [hrest]
      simp

end Matching

open Leaf (LineEnds ReturnAtEnd Lines)

/-- At every place of every input: a line fails at the end of the input, and only there, and stays
where it is. Otherwise its text has no line feed in it, and it is taken with what ends it. A
repetition of lines goes to the end of the input, and the texts of its lines with what ends them
are all of it. What ends a line is a line end, but for a carriage return at the end of the input. -/
theorem line_reading (g : Grammar) (limit levels : Nat) {input : List Char} {s : State}
    (hs : s.place.Within input) :
    (∃ c t, Matching.Yields (matchWithin g limit levels (.leaf .line)) s c t ∧
      (c = none ↔ s.place.offset = Text.byteLength input) ∧ (c = none → t.place = s.place) ∧
      ∀ x, c = some x → ∃ text ending, x = .text (.ofList text) ∧ '\n' ∉ text ∧
        s.place.offset < t.place.offset ∧ t.place.Within input ∧
        Text.slice? s.place.offset t.place.offset input = some (text ++ ending) ∧
        (LineEnds text ending t.place.rest ∨ ReturnAtEnd ending t.place.rest) ∧
        (input.getLast? ≠ some '\r' → LineEnds text ending t.place.rest)) ∧
    ∃ lines t, Matching.Yields (matchWithin g limit levels (.repetition (.leaf .line))) s
        (some (.list (lines.map fun l => .text (.ofList l.1)))) t ∧
      t.place.offset = Text.byteLength input ∧
      lines.flatMap (fun l => l.1 ++ l.2) = s.place.rest ∧
      Lines (fun text ending left => LineEnds text ending left ∨ ReturnAtEnd ending left) lines
        s.place.rest ∧
      (input.getLast? ≠ some '\r' → Lines LineEnds lines s.place.rest) := by
  constructor
  · obtain ⟨c, t, h⟩ := Matching.exists_yields (m := matchWithin g limit levels (.leaf .line))
      fun e => Matching.matchLeaf_faults (s := s) (e := e)
    have hwithin : t.place.Within input :=
      hs.ahead (matchPattern_atomic (callWithin_atomic g limit levels) _ h).1.ahead
    refine ⟨c, t, h, ?_, (matchPattern_atomic (callWithin_atomic g limit levels) _ h).2, ?_⟩
    · rw [hs.offset_eq_iff]
      obtain ⟨rfl, hrest, -⟩ | ⟨text, ending, left, rfl, hrest, -, -, -, htaken⟩ :=
        Matching.matchLine_yields h
      · exact iff_of_true rfl hrest
      · refine iff_of_false nofun fun hnil => htaken ?_
        rw [hrest] at hnil
        exact (List.append_eq_nil_iff.1 hnil).1
    · rintro x rfl
      obtain ⟨text, ending, hx, hfeed, hlt, hslice, hends⟩ := Matching.matchLine_within hs h
      exact ⟨text, ending, hx, hfeed, hlt, hwithin, hslice, hends⟩
  · obtain ⟨lines, t, h, hrest, hlines⟩ :=
      Matching.repetition_line_yields g (Matching.callWithin g limit levels) s
    have hwithin : t.place.Within input :=
      hs.ahead (matchPattern_atomic (callWithin_atomic g limit levels) _ h).1.ahead
    exact ⟨lines, t, h, hwithin.offset_eq_iff.2 hrest, hlines.flatMap_eq, hlines,
      fun hlast => hlines.ended fun hreturn => hlast (hs.getLast?_eq hreturn)⟩

def lineGrammar : Grammar := ⟨[⟨"lines", .repetition (.leaf .line)⟩], 0, by decide⟩

/-- Behind the first of three lines, of which the second one has only a line end. -/
theorem line_reading_blank : Place.Within ⟨3, "\r\nß\r\r\nü".toList⟩ "é\n\r\nß\r\r\nü".toList ∧
    ∃ lines t, Matching.Yields (matchWithin lineGrammar 1 1 (.repetition (.leaf .line)))
        ⟨⟨3, "\r\nß\r\r\nü".toList⟩, 0, 0, [], 0, 0, []⟩
        (some (.list (lines.map fun l => .text (.ofList l.1)))) t ∧
      Lines LineEnds lines "\r\nß\r\r\nü".toList := by
  have hwithin : Place.Within ⟨3, "\r\nß\r\r\nü".toList⟩ "é\n\r\nß\r\r\nü".toList :=
    ⟨"é\n".toList, by decide⟩
  obtain ⟨-, lines, t, h, -, -, -, hlines⟩ := line_reading lineGrammar 1 1
    (s := ⟨⟨3, "\r\nß\r\r\nü".toList⟩, 0, 0, [], 0, 0, []⟩) hwithin
  exact ⟨hwithin, lines, t, h, hlines (by decide)⟩

/-- The carriage return at the end of this input is taken, but it is neither in the text nor part
of a line end: the text with nothing, a line feed, or both behind it is not what was taken. -/
theorem line_reading_lost : (∃ t, Matching.Yields (matchWithin lineGrammar 1 1 (.leaf .line))
      (.start "a\r".toList 0) (some (.text "a")) t ∧ t.place.offset = 2 ∧ t.place.rest = []) ∧
    Text.slice? 0 2 "a\r".toList = some "a\r".toList ∧
    "a\r" ≠ "a" ∧ "a\r" ≠ "a" ++ "\n" ∧ "a\r" ≠ "a" ++ "\r\n" ∧
    lineGrammar.run {} "a\r" = .ok (.list [.str "a"]) := by
  refine ⟨⟨_, rfl, rfl, rfl⟩, by decide, by decide, by decide, by decide, rfl⟩

end TextGrammar
