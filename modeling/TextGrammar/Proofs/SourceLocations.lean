import TextGrammar.Proofs.Text.Columns

/-! # Locations in a source

A location counts: the line feeds in front of an offset, and the characters between the last of
them and the offset. Neither the search for a line, nor the way in which its characters are
counted, nor where in a character an offset is makes a difference. -/

namespace TextGrammar
open Text

namespace LineMap

/-- The same lines, none of them marked as ASCII, so that the characters of each are counted. -/
def counting (map : LineMap) : LineMap :=
  ⟨map.lines.map fun line => { line with ascii := false }, map.length⟩

theorem lineCount_counting (map : LineMap) : map.counting.lineCount = map.lineCount :=
  Array.size_map

theorem startOf_counting (map : LineMap) (index : Nat) :
    map.counting.startOf index = map.startOf index := by
  simp only [startOf, counting, Array.getElem?_map]
  cases map.lines[index]? <;> rfl

theorem bisect_counting (map : LineMap) (offset count low : Nat) :
    map.counting.bisect offset count low = map.bisect offset count low := by
  fun_induction bisect map offset count low with
  | case1 low => rw [bisect]
  | case2 count low half hle ih =>
    rw [bisect, if_pos (by rwa [startOf_counting]), ih]
  | case3 count low half hlt ih =>
    rw [bisect, if_neg (by rwa [startOf_counting]), ih]

/-- An offset in a line of ASCII characters is as many characters as bytes behind its start. -/
theorem location_counting (source : List Char) (offset : Nat) :
    (ofText source).counting.location offset = (ofText source).location offset := by
  obtain ⟨index, line, front, back, inner, hindex, hline, hstands, hstart, hoffset, hinner⟩ :=
    exists_stands (Nat.min_le_right offset (byteLength source))
  have hcounted : (ofText source).counting.lines[index]? = some { line with ascii := false } := by
    simp only [counting, Array.getElem?_map, hline, Option.map_some]
  simp only [location, bisect_counting, lineCount_counting]
  rw [show (ofText source).counting.length = byteLength source from rfl,
    show (ofText source).length = byteLength source from rfl, hindex, hline, hcounted]
  simp only [hoffset, hstart, Nat.add_sub_cancel_left]
  split
  · contradiction
  · split
    · rename_i hall
      rw [charactersWithin_ascii (hstands.ascii_eq ▸ hall) hinner]
    · rfl

/-- The line that is found is cut where it starts and at the last boundary up to the offset, and
what is between is counted. -/
theorem location_sliced {source : List Char} (hsize : byteLength source < 2 ^ 32 - 1)
    (offset : Nat) :
    let map := ofText source
    let stop := min offset (byteLength source)
    let index := map.bisect stop (map.lineCount - 1) 0
    ∃ line floor text, map.lines[index]? = some line ∧ line.start ≤ stop ∧
      IsGreatest {k | k ≤ stop ∧ (cut? k source).isSome} floor ∧
      slice? line.start floor source = some text ∧
      map.location offset = ⟨index + 1, text.length + 1⟩ := by
  intro map stop index
  obtain ⟨_, line, front, back, inner, rfl, hline, hstands, hstart, hstop, hinner⟩ :=
    exists_stands (Nat.min_le_right offset (byteLength source))
  replace hstop : stop = byteLength front + inner := hstop
  have hbefore : before stop source = front ++ before inner line.text := by
    rw [hstop, hstands.before_eq hinner]
  obtain ⟨more, hmore, -⟩ := exists_before inner line.text
  have hsource : source = front ++ (before inner line.text ++ (more ++ back)) := by
    rw [← List.append_assoc (before inner line.text), ← hmore]
    exact hstands.text_eq
  have hfeeds := hstands.count_eq ▸ List.count_le_length (a := '\n') (l := front)
  have hlength : (front ++ before inner line.text).length ≤ byteLength source := by
    refine (length_le_byteLength _).trans ?_
    conv_rhs => rw [hsource]
    simp only [byteLength_append]
    omega
  rw [List.length_append] at hlength
  refine ⟨line, byteLength (before stop source), before inner line.text, hline, ?_,
    isGreatest_byteLength_before stop source, ?_, ?_⟩
  · rw [hstart, hstop]
    exact Nat.le_add_right _ _
  · rw [hstart, hbefore, byteLength_append]
    conv_lhs => rw [hsource]
    exact slice?_append front _ _
  · change (ofText source).location offset = _
    rw [location_eq, ← before_min, show before _ source = _ from hbefore, hstands.behind_eq,
      ← length_before, saturate_eq (by omega), saturate_eq (by omega)]

end LineMap

/-- What the locations in a source are. -/
structure LocationsExact (source : List Char) : Prop where
  /-- The line is told by the line feeds before the offset, or before the end of the source. -/
  line_eq : ∀ offset, ((LineMap.ofText source).location offset).line =
    1 + lineFeeds (min offset (byteLength source)) source
  /-- The column is told by the characters up to the offset behind the last of these. -/
  column_eq : ∀ offset, ((LineMap.ofText source).location offset).column =
    1 + columns (min offset (byteLength source)) source
  /-- A line of ASCII characters is treated like all others. -/
  counting_eq : ∀ offset,
    (LineMap.ofText source).counting.location offset = (LineMap.ofText source).location offset
  /-- All offsets inside a character have the location of its start. -/
  inside : ∀ front c back, source = front ++ c :: back → ∀ offset, byteLength front ≤ offset →
    offset < byteLength front + c.utf8Size →
      (LineMap.ofText source).location offset = (LineMap.ofText source).location (byteLength front)
  /-- There is a line at the index that is found, and it can be cut in front of the offset. -/
  sliced : ∀ offset,
    let map := LineMap.ofText source
    let stop := min offset (byteLength source)
    let index := map.bisect stop (map.lineCount - 1) 0
    ∃ line floor text, map.lines[index]? = some line ∧ line.start ≤ stop ∧
      IsGreatest {k | k ≤ stop ∧ (cut? k source).isSome} floor ∧
      slice? line.start floor source = some text ∧
      map.location offset = ⟨index + 1, text.length + 1⟩
  /-- Locations are ordered like the offsets. -/
  mono : ∀ n m, n ≤ m → (LineMap.ofText source).location n ≤ (LineMap.ofText source).location m

/-- The locations in a source are exact, if all its lines and columns can be told with numbers of
32 bits. -/
theorem source_locations {source : List Char} (hsize : byteLength source < 2 ^ 32 - 1) :
    LocationsExact source := by
  have hnumbers : ∀ n, (before n source).count '\n' +
      ((before n source).rtakeWhile (· != '\n')).length < 2 ^ 32 - 1 := by
    intro n
    obtain ⟨back, heq, -⟩ := exists_before n source
    have hlength := LineMap.feeds_add_column_le (before n source)
    have hle : (before n source).length ≤ byteLength source := by
      refine (length_le_byteLength _).trans ?_
      conv_rhs => rw [heq, byteLength_append]
      exact Nat.le_add_right _ _
    omega
  constructor
  case line_eq =>
    intro offset
    have hnumber := hnumbers offset
    rw [LineMap.location_eq, lineFeeds_eq, before_min, LineMap.behind, Nat.add_comm]
    exact LineMap.saturate_eq (by omega)
  case column_eq =>
    intro offset
    have hnumber := hnumbers offset
    rw [LineMap.location_eq, columns_eq, before_min, LineMap.behind, Nat.add_comm 1]
    exact LineMap.saturate_eq (by omega)
  case counting_eq => exact LineMap.location_counting source
  case inside =>
    rintro front c back rfl offset hle hlt
    rw [LineMap.location_eq, LineMap.location_eq, before_of_inside hle hlt, before_byteLength]
  case sliced => exact LineMap.location_sliced hsize
  case mono => exact fun n m => LineMap.location_mono (by omega)

/-- Offsets in a text with accents, a carriage return and an empty line. -/
theorem source_locations_accented :
    byteLength "abcd\nÃ¬\r\n\náº¿".toList < 2 ^ 32 - 1 ∧
      (LineMap.ofText "abcd\nÃ¬\r\n\náº¿".toList).location 8 = ⟨2, 2⟩ ∧
      (LineMap.ofText "abcd\nÃ¬\r\n\náº¿".toList).location 6 =
        (LineMap.ofText "abcd\nÃ¬\r\n\náº¿".toList).location 5 ∧
      (LineMap.ofText "abcd\nÃ¬\r\n\náº¿".toList).location 11 ≤
        (LineMap.ofText "abcd\nÃ¬\r\n\náº¿".toList).location 90 := by
  have hsize : byteLength "abcd\nÃ¬\r\n\náº¿".toList < 2 ^ 32 - 1 := by decide
  have hexact := source_locations hsize
  refine ⟨hsize, ?_, ?_, hexact.mono 11 90 (by decide)⟩
  · have hline := hexact.line_eq 8
    have hcolumn := hexact.column_eq 8
    rw [show lineFeeds _ _ = 1 by decide] at hline
    rw [show columns _ _ = 1 by decide] at hcolumn
    exact congrArg₂ Location.mk hline hcolumn
  · exact hexact.inside "abcd\n".toList 'Ã' "¬\r\n\náº¿".toList rfl 6 (by decide) (by decide)

end TextGrammar
