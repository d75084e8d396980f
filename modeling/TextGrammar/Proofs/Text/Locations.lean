import Mathlib.Data.List.DropRight
import TextGrammar.LineMap

/-! # Locations

The location of an offset is told by the characters in front of it alone: it is in the line behind
the line feeds among them, and in the column behind those that follow the last line feed. -/

namespace TextGrammar

namespace Text

/-- The characters of a text that end within its first `n` bytes. -/
def before (n : Nat) (text : List Char) : List Char := text.take (charactersWithin n text)

@[simp] theorem charactersWithin_zero (text : List Char) : charactersWithin 0 text = 0 := by
  cases text with
  | nil => rfl
  | cons c cs =>
    have hc := c.utf8Size_pos
    rw [charactersWithin, if_neg (by omega)]

theorem charactersWithin_append_of_le {n : Nat} {s : List Char} (h : n ≤ byteLength s)
    (t : List Char) : charactersWithin n (s ++ t) = charactersWithin n s := by
  induction s generalizing n with
  | nil =>
    obtain rfl : n = 0 := Nat.le_zero.1 h
    simp
  | cons c cs ih =>
    rw [byteLength_cons] at h
    rw [List.cons_append, charactersWithin, charactersWithin, ih (by omega)]

theorem charactersWithin_of_le {n : Nat} {text : List Char} (h : byteLength text ≤ n) :
    charactersWithin n text = text.length := by
  induction text generalizing n with
  | nil => rfl
  | cons c cs ih =>
    rw [byteLength_cons] at h
    rw [charactersWithin, if_pos (by omega), ih (by omega), List.length_cons]

theorem charactersWithin_min (n : Nat) (text : List Char) :
    charactersWithin (min n (byteLength text)) text = charactersWithin n text := by
  obtain h | h := Nat.le_total n (byteLength text)
  · rw [Nat.min_eq_left h]
  · rw [Nat.min_eq_right h, charactersWithin_of_le h, charactersWithin_of_le (Nat.le_refl _)]

theorem charactersWithin_le_length (n : Nat) (text : List Char) :
    charactersWithin n text ≤ text.length := by
  induction text generalizing n with
  | nil => exact Nat.le_refl 0
  | cons c cs ih =>
    rw [charactersWithin]
    split
    · exact Nat.succ_le_succ (ih _)
    · exact Nat.zero_le _

/-- An ASCII text has as many characters as bytes in front of an offset. -/
theorem charactersWithin_ascii {n : Nat} {text : List Char} (hascii : text.all (·.val < 128))
    (h : n ≤ byteLength text) : charactersWithin n text = n := by
  induction text generalizing n with
  | nil => exact (Nat.le_zero.1 h).symm
  | cons c cs ih =>
    rw [List.all_cons, Bool.and_eq_true, decide_eq_true_iff] at hascii
    have hc : c.utf8Size = 1 :=
      Char.utf8Size_eq_one_iff.2 (UInt32.le_iff_toNat_le.2 (Nat.le_of_lt_succ hascii.1))
    rw [byteLength_cons, hc] at h
    rw [charactersWithin, hc]
    split
    · rw [ih hascii.2 (by omega)]
      omega
    · omega

theorem before_min (n : Nat) (text : List Char) :
    before (min n (byteLength text)) text = before n text := by
  rw [before, charactersWithin_min, before]

theorem before_append {n : Nat} {s : List Char} (front t : List Char) (h : n ≤ byteLength s) :
    before (byteLength front + n) (front ++ (s ++ t)) = front ++ before n s := by
  rw [before, charactersWithin_append, charactersWithin_append_of_le h, List.take_length_add_append,
    List.take_append_of_le_length (charactersWithin_le_length n s), before]

theorem before_byteLength (front back : List Char) :
    before (byteLength front) (front ++ back) = front := by
  simpa [before] using before_append (n := 0) (s := []) front back (Nat.le_refl 0)

end Text

open Text

/-- A text that a line may start behind: it is empty, or a line feed is its end. -/
def EndsLine (front : List Char) : Prop := front = [] ∨ ∃ init, front = init ++ ['\n']

theorem EndsLine.cons {front : List Char} (h : EndsLine front) (part : List Char) :
    EndsLine (part ++ '\n' :: front) := by
  obtain rfl | ⟨init, rfl⟩ := h
  · exact .inr ⟨part, rfl⟩
  · exact .inr ⟨part ++ '\n' :: init, by simp⟩

/-- The characters behind the last line feed. -/
theorem EndsLine.rtakeWhile_append {front text : List Char} (h : EndsLine front)
    (htext : '\n' ∉ text) : (front ++ text).rtakeWhile (· != '\n') = text := by
  have hall : ∀ c ∈ text.reverse, (c != '\n') = true := by
    intro c hc
    rw [bne_iff_ne]
    rintro rfl
    exact htext (List.mem_reverse.1 hc)
  have hstop : front.reverse.takeWhile (· != '\n') = [] := by
    obtain rfl | ⟨init, rfl⟩ := h
    · rfl
    · simp
  rw [List.rtakeWhile, List.reverse_append, List.takeWhile_append_of_pos hall, hstop,
    List.append_nil, List.reverse_reverse]

namespace LineMap

/-- The location behind a text: one line for each line feed in it and one more, one column for
each character behind the last of them and one more. -/
def behind (front : List Char) : Location :=
  ⟨saturate (front.count '\n' + 1), saturate ((front.rtakeWhile (· != '\n')).length + 1)⟩

/-- Lines are joined by line feeds. -/
theorem intercalate_cons (part : List Char) {rest : List (List Char)} (h : rest ≠ []) :
    ['\n'].intercalate (part :: rest) = part ++ '\n' :: ['\n'].intercalate rest := by
  obtain ⟨next, rest, rfl⟩ := List.exists_cons_of_ne_nil h
  rw [List.intercalate_cons_cons, List.append_assoc, List.singleton_append]

/-- A line stands in a text with something in front of it and something behind it: the line feeds
in front tell its index, and the last of them ends what is in front. -/
structure Stands (text front back : List Char) (index : Nat) (line : Line) : Prop where
  text_eq : text = front ++ (line.text ++ back)
  count_eq : front.count '\n' = index
  ends : EndsLine front
  free : '\n' ∉ line.text
  ascii_eq : line.ascii = line.text.all (·.val < 128)

/-- A line stands behind one more line if that one is put in front of the text. -/
theorem Stands.cons {text front back part : List Char} {index : Nat} {line : Line}
    (h : Stands text front back index line) (hpart : '\n' ∉ part) :
    Stands (part ++ '\n' :: text) (part ++ '\n' :: front) back (index + 1) line where
  text_eq := by rw [h.text_eq, List.append_assoc, List.cons_append]
  count_eq := by
    rw [List.count_append, List.count_eq_zero.2 hpart, List.count_cons_self, h.count_eq]
    exact Nat.zero_add _
  ends := h.ends.cons part
  free := h.free
  ascii_eq := h.ascii_eq

/-- Each line is placed where it stands in the text, with the next line, or the end of the text,
behind it and a line feed. -/
theorem exists_of_place {parts : List (List Char)} (hparts : ∀ part ∈ parts, '\n' ∉ part)
    {start index : Nat} {line : Line} (h : (place start parts)[index]? = some line) :
    ∃ front back, Stands (['\n'].intercalate parts) front back index line ∧
      line.start = start + byteLength front ∧
      ((place start parts)[index + 1]?.map Line.start).getD
        (start + byteLength (['\n'].intercalate parts) + 1) =
          line.start + byteLength line.text + 1 := by
  induction parts generalizing start index with
  | nil => cases h
  | cons part rest ih =>
    have hpart := hparts part List.mem_cons_self
    rw [place] at h ⊢
    cases index with
    | zero =>
      cases h
      cases rest with
      | nil => exact ⟨[], [], ⟨by simp, rfl, .inl rfl, hpart, rfl⟩, rfl, by simp [place]⟩
      | cons next rest =>
        exact ⟨[], '\n' :: ['\n'].intercalate (next :: rest),
          ⟨intercalate_cons part nofun, rfl, .inl rfl, hpart, rfl⟩, rfl, rfl⟩
    | succ index =>
      rw [List.getElem?_cons_succ] at h ⊢
      obtain ⟨front, back, hstands, hstart, hnext⟩ :=
        ih (fun part hmem => hparts part (List.mem_cons_of_mem _ hmem)) h
      have hrest : rest ≠ [] := by
        rintro rfl
        cases h
      have hfeed : '\n'.utf8Size = 1 := rfl
      rw [intercalate_cons part hrest]
      refine ⟨part ++ '\n' :: front, back, hstands.cons hpart, ?_, ?_⟩
      · rw [hstart, byteLength_append, byteLength_cons, hfeed]
        omega
      · rw [← hnext, byteLength_append, byteLength_cons, hfeed]
        congr 1
        omega

theorem startOf_ofText (source : List Char) (index : Nat) :
    (ofText source).startOf index =
      ((place 0 (split '\n' source))[index]?.map Line.start).getD (byteLength source + 1) := by
  simp only [startOf, ofText, List.getElem?_toArray]
  cases (place 0 (split '\n' source))[index]? <;> rfl

/-- The line with an index stands in the source, from its start on. -/
theorem exists_of_lines {source : List Char} {index : Nat} {line : Line}
    (h : (ofText source).lines[index]? = some line) :
    ∃ front back, Stands source front back index line ∧ line.start = byteLength front ∧
      (ofText source).startOf (index + 1) = byteLength front + byteLength line.text + 1 := by
  obtain ⟨front, back, hstands, hstart, hnext⟩ :=
    exists_of_place (fun _ => notMem_of_mem_split) (by simpa [ofText] using h)
  rw [intercalate_split, Nat.zero_add] at *
  refine ⟨front, back, hstands, hstart, ?_⟩
  rw [startOf_ofText, hnext, hstart]

/-- What is left in the end is the last line that starts at or before the offset. -/
theorem bisect_spec {map : LineMap} {offset count low : Nat} (hlow : map.startOf low ≤ offset)
    (hhigh : offset < map.startOf (low + count + 1)) :
    map.startOf (map.bisect offset count low) ≤ offset ∧
      offset < map.startOf (map.bisect offset count low + 1) := by
  fun_induction bisect map offset count low with
  | case1 low => exact ⟨hlow, hhigh⟩
  | case2 count low half hle ih =>
    refine ih hle ?_
    rwa [show low + half + (count + 1 - half) + 1 = low + (count + 1) + 1 by omega]
  | case3 count low half hlt ih =>
    refine ih hlow ?_
    rw [show low + (half - 1) + 1 = low + half by omega]
    exact Nat.lt_of_not_le hlt

theorem startOf_zero (source : List Char) : (ofText source).startOf 0 = 0 := by
  rw [startOf_ofText]
  obtain ⟨part, rest, heq⟩ := List.exists_cons_of_ne_nil (split_ne_nil '\n' source)
  rw [heq]
  rfl

theorem startOf_of_lines_eq_none {map : LineMap} {index : Nat} (h : map.lines[index]? = none) :
    map.startOf index = map.length + 1 := by
  rw [startOf, h]

theorem startOf_of_lines_eq_some {map : LineMap} {index : Nat} {line : Line}
    (h : map.lines[index]? = some line) : map.startOf index = line.start := by
  rw [startOf, h]

/-- The line that is found for an offset starts at or before it, and the next one behind it. -/
theorem exists_line {source : List Char} {offset : Nat} (hle : offset ≤ byteLength source) :
    ∃ index line, (ofText source).bisect offset ((ofText source).lineCount - 1) 0 = index ∧
      (ofText source).lines[index]? = some line ∧ line.start ≤ offset ∧
      offset < (ofText source).startOf (index + 1) := by
  have hend : (ofText source).startOf (0 + ((ofText source).lineCount - 1) + 1) =
      byteLength source + 1 := by
    apply startOf_of_lines_eq_none
    rw [Array.getElem?_eq_none_iff, lineCount]
    omega
  obtain ⟨hlow, hhigh⟩ := bisect_spec ((startOf_zero source).trans_le (Nat.zero_le offset))
    (Nat.lt_of_lt_of_eq (Nat.lt_succ_of_le hle) hend.symm)
  cases hline : (ofText source).lines[(ofText source).bisect offset
      ((ofText source).lineCount - 1) 0]? with
  | none =>
    rw [startOf_of_lines_eq_none hline] at hlow
    exact absurd (Nat.lt_of_lt_of_le (Nat.lt_succ_self _) hlow) (Nat.not_lt.2 hle)
  | some line =>
    rw [startOf_of_lines_eq_some hline] at hlow
    exact ⟨_, line, rfl, hline, hlow, hhigh⟩

/-- The line that is found for an offset stands around it. -/
theorem exists_stands {source : List Char} {offset : Nat} (hle : offset ≤ byteLength source) :
    ∃ index line front back inner,
      (ofText source).bisect offset ((ofText source).lineCount - 1) 0 = index ∧
      (ofText source).lines[index]? = some line ∧ Stands source front back index line ∧
      line.start = byteLength front ∧ offset = byteLength front + inner ∧
      inner ≤ byteLength line.text := by
  obtain ⟨index, line, hindex, hline, hlow, hhigh⟩ := exists_line hle
  obtain ⟨front, back, hstands, hstart, hnext⟩ := exists_of_lines hline
  rw [hnext] at hhigh
  rw [hstart] at hlow
  obtain ⟨inner, rfl⟩ := Nat.exists_eq_add_of_le hlow
  exact ⟨index, line, front, back, inner, hindex, hline, hstands, hstart, rfl, by omega⟩

/-- What is in front of an offset is what is in front of its line, and what is in front of the
offset in the line. -/
theorem Stands.before_eq {source front back : List Char} {index : Nat} {line : Line}
    (h : Stands source front back index line) {inner : Nat}
    (hinner : inner ≤ byteLength line.text) :
    before (byteLength front + inner) source = front ++ before inner line.text := by
  rw [h.text_eq, before_append front back hinner]

theorem length_before (n : Nat) (text : List Char) :
    (before n text).length = charactersWithin n text := by
  rw [before, List.length_take, Nat.min_eq_left (charactersWithin_le_length _ _)]

/-- The location behind a part of a line tells the index of the line, and how long the part is. -/
theorem Stands.behind_eq {source front back : List Char} {index : Nat} {line : Line}
    (h : Stands source front back index line) (inner : Nat) :
    behind (front ++ before inner line.text) =
      ⟨saturate (index + 1), saturate (charactersWithin inner line.text + 1)⟩ := by
  have hfree : '\n' ∉ before inner line.text := fun hmem => h.free (List.mem_of_mem_take hmem)
  rw [behind, h.ends.rtakeWhile_append hfree, List.count_append, List.count_eq_zero.2 hfree,
    h.count_eq, length_before, Nat.add_zero]

/-- The location of an offset is the one behind the characters that end at or before it. -/
theorem location_eq (source : List Char) (offset : Nat) :
    (ofText source).location offset = behind (before offset source) := by
  rw [← before_min]
  obtain ⟨index, line, front, back, inner, hindex, hline, hstands, hstart, hoffset, hinner⟩ :=
    exists_stands (Nat.min_le_right offset (byteLength source))
  have hlocation : (ofText source).location offset =
      ⟨saturate (index + 1), saturate ((if line.ascii then
        min offset (byteLength source) - line.start
        else charactersWithin (min offset (byteLength source) - line.start) line.text) + 1)⟩ := by
    simp only [location]
    rw [show (ofText source).length = byteLength source from rfl, hindex, hline]
  rw [hlocation, hoffset, hstart, hstands.before_eq hinner, hstands.behind_eq,
    Nat.add_sub_cancel_left]
  split
  · rename_i hall
    rw [charactersWithin_ascii (hstands.ascii_eq ▸ hall) hinner]
  · rfl

end LineMap

end TextGrammar
