import Mathlib.Algebra.Order.Ring.Nat
import Mathlib.Order.Bounds.Basic
import TextGrammar.Proofs.Text.Locations

/-! # Lines and columns counted over a text

The characters in front of an offset are told apart by where they start and end. Counted that way,
line feeds give the line of the offset, and the characters behind the last of them its column. More
characters in front never lead to an earlier location. -/

namespace TextGrammar

namespace Text

/-- The characters of a text with the offsets at which they start, the first one at `start`. -/
def placed (start : Nat) : List Char → List (Nat × Char)
  | [] => []
  | c :: cs => (start, c) :: placed (start + c.utf8Size) cs

theorem placed_append (start : Nat) (s t : List Char) :
    placed start (s ++ t) = placed start s ++ placed (start + byteLength s) t := by
  induction s generalizing start with
  | nil => rfl
  | cons c cs ih =>
    rw [List.cons_append, placed, placed, ih, byteLength_cons, List.cons_append, Nat.add_assoc]

@[simp] theorem map_snd_placed (start : Nat) (text : List Char) :
    (placed start text).map Prod.snd = text := by
  induction text generalizing start with
  | nil => rfl
  | cons c cs ih => rw [placed, List.map_cons, ih]

@[simp] theorem length_placed (start : Nat) (text : List Char) :
    (placed start text).length = text.length := by
  rw [← List.length_map (f := Prod.snd), map_snd_placed]

theorem snd_mem_of_mem_placed {start : Nat} {text : List Char} {p : Nat × Char}
    (h : p ∈ placed start text) : p.2 ∈ text := by
  simpa using List.mem_map_of_mem (f := Prod.snd) h

/-- A character takes its place within the text. -/
theorem within_of_mem_placed {start : Nat} {text : List Char} {p : Nat × Char}
    (h : p ∈ placed start text) :
    start ≤ p.1 ∧ p.1 + p.2.utf8Size ≤ start + byteLength text := by
  induction text generalizing start with
  | nil => cases h
  | cons c cs ih =>
    rw [byteLength_cons]
    obtain rfl | hmem := List.mem_cons.1 h
    · exact ⟨Nat.le_refl _, by dsimp only; omega⟩
    · obtain ⟨hle, hend⟩ := ih hmem
      omega

/-- The characters in front of an offset end at or before it, and the next one ends behind it. -/
theorem exists_before (n : Nat) (text : List Char) :
    ∃ back, text = before n text ++ back ∧ byteLength (before n text) ≤ n ∧
      ∀ c ∈ back.head?, n < byteLength (before n text) + c.utf8Size := by
  induction text generalizing n with
  | nil => exact ⟨[], rfl, Nat.zero_le n, nofun⟩
  | cons c cs ih =>
    by_cases hc : c.utf8Size ≤ n
    · have hbefore : before n (c :: cs) = c :: before (n - c.utf8Size) cs := by
        rw [before, charactersWithin, if_pos hc, List.take_succ_cons, before]
      obtain ⟨back, heq, hle, hnext⟩ := ih (n - c.utf8Size)
      rw [hbefore, byteLength_cons]
      refine ⟨back, congrArg (c :: ·) heq, by omega, fun d hd => ?_⟩
      have := hnext d hd
      omega
    · have hbefore : before n (c :: cs) = [] := by
        rw [before, charactersWithin, if_neg hc, List.take_zero]
      rw [hbefore]
      refine ⟨c :: cs, rfl, Nat.zero_le n, ?_⟩
      rintro d hd
      obtain rfl := Option.some.inj hd
      rw [byteLength_nil]
      omega

/-- What is not in front of an offset ends behind it. -/
theorem lt_of_mem_placed {n start : Nat} {back : List Char}
    (hnext : ∀ c ∈ back.head?, n < start + c.utf8Size) {p : Nat × Char}
    (h : p ∈ placed start back) : n < p.1 + p.2.utf8Size := by
  cases back with
  | nil => cases h
  | cons c cs =>
    have hc := hnext c rfl
    obtain rfl | hmem := List.mem_cons.1 h
    · exact hc
    · have := (within_of_mem_placed hmem).1
      omega

/-- Further offsets have more in front of them. -/
theorem before_mono {n m : Nat} (h : n ≤ m) (text : List Char) :
    ∃ more, before m text = before n text ++ more := by
  have hcount : charactersWithin n text ≤ charactersWithin m text := by
    induction text generalizing n m with
    | nil => exact Nat.le_refl 0
    | cons c cs ih =>
      rw [charactersWithin, charactersWithin]
      split
      · rw [if_pos (by omega)]
        exact Nat.succ_le_succ (ih (Nat.sub_le_sub_right h _))
      · exact Nat.zero_le _
  obtain ⟨more, hmore⟩ := List.take_prefix_take_left (l := text) hcount
  exact ⟨more, hmore.symm⟩

/-- The characters in front of an offset stay the same up to the end of the next one. -/
theorem before_of_inside {front back : List Char} {c : Char} {n : Nat}
    (hle : byteLength front ≤ n) (hlt : n < byteLength front + c.utf8Size) :
    before n (front ++ c :: back) = front := by
  obtain ⟨inner, rfl⟩ := Nat.exists_eq_add_of_le hle
  rw [before, charactersWithin_append, charactersWithin, if_neg (by omega), Nat.add_zero,
    List.take_left']
  rfl

/-- What is in front of an offset ends at the last boundary between characters up to it. -/
theorem isGreatest_byteLength_before (n : Nat) (text : List Char) :
    IsGreatest {k | k ≤ n ∧ (cut? k text).isSome} (byteLength (before n text)) := by
  obtain ⟨back, heq, hle, hnext⟩ := exists_before n text
  constructor
  · refine ⟨hle, ?_⟩
    exact Option.isSome_iff_exists.2 ⟨_, cut?_eq_some.2 ⟨heq, rfl⟩⟩
  · rintro k ⟨hk, hcut⟩
    obtain ⟨⟨front, rest⟩, hfront⟩ := Option.isSome_iff_exists.1 hcut
    obtain ⟨rfl, rfl⟩ := cut?_eq_some.1 hfront
    obtain ⟨more, hmore⟩ := before_mono hk (front ++ rest)
    rw [before_byteLength] at hmore
    rw [hmore, byteLength_append]
    exact Nat.le_add_right _ _

def lineFeeds (n : Nat) (text : List Char) : Nat :=
  (placed 0 text).countP fun p => p.2 = '\n' ∧ p.1 < n

/-- How many characters of a text end at or before an offset and start behind each line feed
before it. -/
def columns (n : Nat) (text : List Char) : Nat :=
  (placed 0 text).countP fun p =>
    p.1 + p.2.utf8Size ≤ n ∧ ∀ q ∈ placed 0 text, q.2 = '\n' → q.1 < n → q.1 < p.1

/-- A line feed that starts before an offset ends at or before it. -/
theorem feed_end_le {p : Nat × Char} {n : Nat} (hp : p.2 = '\n') (h : p.1 < n) :
    p.1 + p.2.utf8Size ≤ n := by
  rw [hp]
  exact h

theorem lineFeeds_eq (n : Nat) (text : List Char) :
    lineFeeds n text = (before n text).count '\n' := by
  obtain ⟨back, heq, hle, hnext⟩ := exists_before n text
  have hback : (placed (byteLength (before n text)) back).countP
      (fun p => p.2 = '\n' ∧ p.1 < n) = 0 := by
    rw [List.countP_eq_zero]
    intro p hp hfeed
    obtain ⟨hchar, hlt⟩ := of_decide_eq_true hfeed
    exact Nat.not_lt.2 (feed_end_le hchar hlt) (lt_of_mem_placed hnext hp)
  have hfront : (placed 0 (before n text)).countP (fun p => p.2 = '\n' ∧ p.1 < n) =
      (placed 0 (before n text)).countP ((· == '\n') ∘ Prod.snd) := by
    refine List.countP_congr fun p hp => ?_
    have hend := (within_of_mem_placed hp).2
    have hsize := p.2.utf8Size_pos
    simp only [decide_eq_true_eq, Function.comp_apply, beq_iff_eq, and_iff_left_iff_imp]
    intro _
    omega
  rw [lineFeeds]
  conv_lhs => rw [heq]
  rw [placed_append, List.countP_append, Nat.zero_add, hback, hfront, ← List.countP_map,
    map_snd_placed]
  rfl

end Text

open Text

/-- A text is cut behind its last line feed. -/
theorem exists_endsLine (text : List Char) :
    ∃ head, text = head ++ text.rtakeWhile (· != '\n') ∧ EndsLine head ∧
      '\n' ∉ text.rtakeWhile (· != '\n') := by
  refine ⟨text.rdropWhile (· != '\n'), (List.rdropWhile_append_rtakeWhile ..).symm, ?_, ?_⟩
  · obtain hnil | hne := eq_or_ne (text.rdropWhile (· != '\n')) []
    · exact .inl hnil
    · have hlast := List.rdropWhile_last_not (· != '\n') text hne
      rw [bne_iff_ne, not_not] at hlast
      exact .inr ⟨_, hlast ▸ (List.dropLast_append_getLast hne).symm⟩
  · intro hmem
    have := List.mem_rtakeWhile_imp hmem
    rw [bne_self_eq_false] at this
    cases this

namespace Text

theorem columns_eq (n : Nat) (text : List Char) :
    columns n text = ((before n text).rtakeWhile (· != '\n')).length := by
  obtain ⟨back, heq, hle, hnext⟩ := exists_before n text
  obtain ⟨head, hhead, hends, hfree⟩ := exists_endsLine (before n text)
  generalize (before n text).rtakeWhile (· != '\n') = tail at hhead hfree ⊢
  have hlength : byteLength (before n text) = byteLength head + byteLength tail := by
    rw [hhead, byteLength_append]
  have hsplit : placed 0 text = placed 0 head ++ placed (byteLength head) tail ++
      placed (byteLength (before n text)) back := by
    rw [← Nat.zero_add (byteLength head), ← placed_append, ← hhead,
      ← Nat.zero_add (byteLength (before n text)), ← placed_append, ← heq]
  have hback : ∀ p ∈ placed (byteLength (before n text)) back, ¬ p.1 + p.2.utf8Size ≤ n :=
    fun p hp => Nat.not_le.2 (lt_of_mem_placed hnext hp)
  -- The last line feed in front starts behind no character of the lines that it ends.
  have hlines : ∀ p ∈ placed 0 head,
      ¬ ∀ q ∈ placed 0 text, q.2 = '\n' → q.1 < n → q.1 < p.1 := by
    intro p hp hall
    have hend := (within_of_mem_placed hp).2
    have hsize := p.2.utf8Size_pos
    obtain rfl | ⟨init, rfl⟩ := hends
    · cases hp
    have hfeed : '\n'.utf8Size = 1 := rfl
    rw [byteLength_append, byteLength_cons, hfeed, byteLength_nil] at hend hlength
    have hmem : (byteLength init, '\n') ∈ placed 0 text := by
      rw [hsplit, placed_append, placed, Nat.zero_add]
      simp
    have := hall _ hmem rfl (by dsimp only; omega)
    dsimp only at this
    omega
  have htail : ∀ p ∈ placed (byteLength head) tail, p.1 + p.2.utf8Size ≤ n ∧
      ∀ q ∈ placed 0 text, q.2 = '\n' → q.1 < n → q.1 < p.1 := by
    intro p hp
    obtain ⟨hstart, hend⟩ := within_of_mem_placed hp
    refine ⟨by omega, fun q hq hchar hlt => ?_⟩
    have hqend := feed_end_le hchar hlt
    rw [hsplit, List.mem_append, List.mem_append] at hq
    obtain (hmem | hmem) | hmem := hq
    · have := (within_of_mem_placed hmem).2
      have := q.2.utf8Size_pos
      omega
    · exact absurd (hchar ▸ snd_mem_of_mem_placed hmem) hfree
    · exact absurd hqend (hback q hmem)
  refine (congrArg (List.countP _) hsplit).trans ?_
  rw [List.countP_append, List.countP_append,
    List.countP_eq_zero.2 fun p hp h => hlines p hp (of_decide_eq_true h).2,
    List.countP_eq_zero.2 fun p hp h => hback p hp (of_decide_eq_true h).1,
    List.countP_eq_length.2 fun p hp => decide_eq_true (htail p hp), length_placed]
  omega

end Text

/-- Locations are ordered by their lines, those in one line by their columns. -/
instance : LE Location where
  le a b := a.line < b.line ∨ a.line = b.line ∧ a.column ≤ b.column

theorem Location.le_iff {a b : Location} :
    a ≤ b ↔ a.line < b.line ∨ a.line = b.line ∧ a.column ≤ b.column := Iff.rfl

theorem Text.length_le_byteLength (text : List Char) : text.length ≤ byteLength text := by
  induction text with
  | nil => exact Nat.le_refl 0
  | cons c cs ih =>
    have := c.utf8Size_pos
    rw [List.length_cons, byteLength_cons]
    omega

namespace LineMap

theorem saturate_eq_min (n : Nat) : saturate n = min n (2 ^ 32 - 1) := rfl

/-- Up to the largest number, none is replaced. -/
theorem saturate_eq {n : Nat} (h : n < 2 ^ 32) : saturate n = n :=
  Nat.min_eq_left (Nat.le_sub_one_of_lt h)

/-- The line feeds of a text and the characters behind the last of them are different ones. -/
theorem feeds_add_column_le (text : List Char) :
    text.count '\n' + (text.rtakeWhile (· != '\n')).length ≤ text.length := by
  obtain ⟨head, heq, -, hfree⟩ := exists_endsLine text
  generalize text.rtakeWhile (· != '\n') = tail at heq hfree ⊢
  rw [heq, List.count_append, List.count_eq_zero.2 hfree, List.length_append]
  exact Nat.add_le_add_right List.count_le_length _

/-- Characters without a line feed only move on in the line. -/
theorem rtakeWhile_append_of_free (front : List Char) {more : List Char} (h : '\n' ∉ more) :
    (front ++ more).rtakeWhile (· != '\n') = front.rtakeWhile (· != '\n') ++ more := by
  obtain ⟨head, heq, hends, hfree⟩ := exists_endsLine front
  have hmore : '\n' ∉ front.rtakeWhile (· != '\n') ++ more := by
    rw [List.mem_append, not_or]
    exact ⟨hfree, h⟩
  conv_lhs => rw [heq, List.append_assoc, hends.rtakeWhile_append hmore]

/-- The location behind more characters is not an earlier one, in a text whose offsets have
32 bits. -/
theorem behind_le_append {front more : List Char} (h : byteLength (front ++ more) < 2 ^ 32) :
    behind front ≤ behind (front ++ more) := by
  rw [Location.le_iff]
  simp only [behind, List.count_append]
  by_cases hmem : '\n' ∈ more
  · have hcount := List.one_le_count_iff.2 hmem
    have hlength := (List.length_append ▸ length_le_byteLength (front ++ more)).trans_lt h
    have hfront := feeds_add_column_le front
    have hmore := List.count_le_length (a := '\n') (l := more)
    -- Where the numbers end, all characters in front are line feeds, and their column is the first.
    simp only [saturate_eq_min]
    omega
  · rw [List.count_eq_zero.2 hmem, rtakeWhile_append_of_free front hmem, List.length_append]
    refine .inr ⟨rfl, ?_⟩
    simp only [saturate_eq_min]
    omega

/-- Further offsets have no earlier locations, as far as offsets have 32 bits. -/
theorem location_mono {source : List Char} {n m : Nat}
    (hsize : min m (byteLength source) < 2 ^ 32) (h : n ≤ m) :
    (ofText source).location n ≤ (ofText source).location m := by
  rw [location_eq, location_eq]
  have hle : byteLength (before m source) ≤ min m (byteLength source) := by
    rw [← before_min]
    exact (isGreatest_byteLength_before _ source).1.1
  obtain ⟨more, hmore⟩ := before_mono h source
  rw [hmore] at hle ⊢
  exact behind_le_append (hle.trans_lt hsize)

end LineMap

end TextGrammar
