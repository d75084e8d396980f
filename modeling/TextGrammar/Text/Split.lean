/-! # Splitting texts

A text is split at each occurrence of a separator. Main statement: the parts with separators
between them are the text again, and none of them holds a separator. -/

namespace TextGrammar.Text

def split (separator : Char) : List Char → List (List Char)
  | [] => [[]]
  | c :: cs =>
    if c = separator then [] :: split separator cs
    else match split separator cs with
      | [] => [[c]]
      | part :: parts => (c :: part) :: parts

theorem split_ne_nil (separator : Char) (text : List Char) : split separator text ≠ [] := by
  cases text with
  | nil => simp [split]
  | cons c cs =>
    rw [split]
    split
    · simp
    · split <;> simp

/-- The parts with separators between them are the text again. -/
theorem intercalate_split (separator : Char) (text : List Char) :
    [separator].intercalate (split separator text) = text := by
  induction text with
  | nil => rfl
  | cons c cs ih =>
    rw [split]
    cases h : split separator cs with
    | nil => exact absurd h (split_ne_nil separator cs)
    | cons part parts =>
      rw [h] at ih
      split
      · rename_i hc
        subst hc
        rw [List.intercalate_cons_cons, ih]
        rfl
      · cases parts with
        | nil => simpa using ih
        | cons next rest =>
          rw [List.intercalate_cons_cons] at ih
          rw [List.intercalate_cons_cons, ← ih]
          simp

/-- No part has a separator in it. -/
theorem notMem_of_mem_split {separator : Char} {text part : List Char}
    (h : part ∈ split separator text) : separator ∉ part := by
  induction text generalizing part with
  | nil =>
    simp only [split, List.mem_singleton] at h
    simp [h]
  | cons c cs ih =>
    rw [split] at h
    split at h
    · rcases List.mem_cons.1 h with rfl | h
      · simp
      · exact ih h
    · rename_i hc
      cases hs : split separator cs with
      | nil => exact absurd hs (split_ne_nil separator cs)
      | cons first rest =>
        simp only [hs] at h ih
        rcases List.mem_cons.1 h with rfl | h
        · intro hm
          rcases List.mem_cons.1 hm with heq | hm
          · exact hc heq.symm
          · exact ih List.mem_cons_self hm
        · exact ih (List.mem_cons_of_mem _ h)

end TextGrammar.Text
