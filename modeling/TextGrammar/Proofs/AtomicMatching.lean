import TextGrammar.Proofs.Matching.Reach

/-! # A pattern matches as a whole or not at all

A pattern that fails leaves no trace but the furthest place, and one that matches moves the place
alone. The place stays between two characters of the input all the while, so that the input can
always be cut there. -/

namespace TextGrammar
open Matching (Place State Stage Outcome Reaches matchWithin matchPattern_atomic callWithin_atomic)

namespace Matching

/-- A place is between two characters of an input, or at one of its ends: the input can be cut
there, and what is behind the cut is left. -/
def Place.Within (p : Place) (input : List Char) : Prop :=
  ∃ front, Text.cut? p.offset input = some (front, p.rest)

namespace Place.Within
variable {p q : Place} {input : List Char}

theorem start (input : List Char) : Place.Within ⟨0, input⟩ input :=
  ⟨[], Text.cut?_byteLength_append [] input⟩

theorem offset_le (h : p.Within input) : p.offset ≤ Text.byteLength input := by
  obtain ⟨front, hcut⟩ := h
  obtain ⟨rfl, hoffset⟩ := Text.cut?_eq_some.1 hcut
  rw [hoffset, Text.byteLength_append]
  exact Nat.le_add_right _ _

/-- Going on behind some characters does not leave the input. -/
theorem ahead (h : p.Within input) (hpq : p.Before q) : q.Within input := by
  obtain ⟨front, hcut⟩ := h
  obtain ⟨rfl, hoffset⟩ := Text.cut?_eq_some.1 hcut
  obtain ⟨characters, rfl⟩ := hpq
  refine ⟨front ++ p.rest.take characters, Text.cut?_eq_some.2 ⟨?_, ?_⟩⟩
  · rw [Place.advance, List.append_assoc, List.take_append_drop]
  · rw [Place.advance, Text.byteLength_append, hoffset]

end Place.Within

end Matching

/-- A pattern that is matched without an error leaves the nesting, the base, the rule and all
frames as they were. Where it fails it leaves the place as well, and where it matches it has not
gone back, and is still within the input. However it ends, every place that it comes to on the way
is one where the input can be cut. -/
theorem matching_atomic (g : Grammar) (limit levels : Nat) (p : Pattern) {input : List Char}
    {s : State} (hs : s.place.Within input) :
    (∀ c t, Matching.Yields (matchWithin g limit levels p) s c t →
      t.depth = s.depth ∧ t.base = s.base ∧ t.rule = s.rule ∧ t.frames = s.frames ∧
        (c = none → t.place = s.place) ∧
        (c ≠ none → s.place.offset ≤ t.place.offset ∧
          t.place.offset ≤ Text.byteLength input ∧ t.place.Within input)) ∧
    ∀ b, Reaches g limit (.pattern levels p, s) b →
      b.2.place.offset ≤ Text.byteLength input ∧ b.2.place.Within input := by
  constructor
  · intro c t h
    obtain ⟨hresumes, hplace⟩ := matchPattern_atomic (callWithin_atomic g limit levels) p h
    have hwithin := hs.ahead hresumes.ahead
    exact ⟨hresumes.depth, hresumes.base, hresumes.rule, hresumes.frames, hplace,
      fun _ => ⟨hresumes.ahead.offset_le, hwithin.offset_le, hwithin⟩⟩
  · intro b hb
    have hwithin := hs.ahead hb.ahead
    exact ⟨hwithin.offset_le, hwithin⟩

/-- Two alternatives, of which the first has bound a letter before it fails at a number. -/
def letterOrLine : Pattern :=
  .choice [.sequence 1 [(some ⟨"letter", 0⟩, .literal "é"), (none, .leaf .integer)], .leaf .line]

def letterGrammar : Grammar := ⟨[⟨"letterOrLine", letterOrLine⟩], 0, by decide⟩

def behindLetter : State :=
  ⟨⟨2, "éa".toList⟩, 2, 1, [[some (.text "é"), none]], 0, 0, []⟩

theorem matching_atomic_letter : behindLetter.place.Within "ééa".toList ∧
    ∃ c t, Matching.Yields (matchWithin letterGrammar 4 3 letterOrLine) behindLetter c t ∧
      c ≠ none ∧ t.frames = behindLetter.frames ∧ t.place.Within "ééa".toList := by
  have hwithin : behindLetter.place.Within "ééa".toList := ⟨['é'], by decide⟩
  have hyields : Matching.Yields (matchWithin letterGrammar 4 3 letterOrLine) behindLetter
      (some (.text "éa")) { behindLetter with place := ⟨5, []⟩, furthest := 4 } := by
    rfl
  obtain ⟨hall, -⟩ := matching_atomic letterGrammar 4 3 letterOrLine hwithin
  obtain ⟨-, -, -, hframes, -, hmatched⟩ := hall _ _ hyields
  exact ⟨hwithin, _, _, hyields, nofun, hframes, (hmatched nofun).2.2⟩

end TextGrammar
