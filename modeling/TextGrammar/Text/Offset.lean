/-! # Byte offsets into a text

Positions count the bytes of the UTF-8 form, while a text is a list of characters. A text can be
cut exactly at the offsets between two characters; an offset inside a character or past the end
gives no cut. -/

namespace TextGrammar.Text

def byteLength : List Char → Nat
  | [] => 0
  | c :: cs => c.utf8Size + byteLength cs

@[simp] theorem byteLength_nil : byteLength [] = 0 := rfl

@[simp] theorem byteLength_cons (c : Char) (cs : List Char) :
    byteLength (c :: cs) = c.utf8Size + byteLength cs := rfl

@[simp] theorem byteLength_append (s t : List Char) :
    byteLength (s ++ t) = byteLength s + byteLength t := by
  induction s with
  | nil => simp
  | cons c cs ih => simp [ih, Nat.add_assoc]

theorem byteLength_eq_zero {cs : List Char} : byteLength cs = 0 ↔ cs = [] := by
  cases cs with
  | nil => simp
  | cons c cs =>
    have hc := c.utf8Size_pos
    simp only [byteLength_cons, reduceCtorEq, iff_false]
    omega

/-- Cuts a text after `n` bytes, if that is between two characters. -/
def cut? : Nat → List Char → Option (List Char × List Char)
  | 0, cs => some ([], cs)
  | _ + 1, [] => none
  | n + 1, c :: cs =>
    if c.utf8Size ≤ n + 1 then
      (cut? (n + 1 - c.utf8Size) cs).map fun (front, back) => (c :: front, back)
    else none

theorem cut?_byteLength_append (s t : List Char) : cut? (byteLength s) (s ++ t) = some (s, t) := by
  induction s with
  | nil => simp [cut?]
  | cons c cs ih =>
    have hc := c.utf8Size_pos
    obtain ⟨n, hn⟩ : ∃ n, byteLength (c :: cs) = n + 1 :=
      ⟨byteLength (c :: cs) - 1, by simp only [byteLength_cons]; omega⟩
    have hsub : n + 1 - c.utf8Size = byteLength cs := by
      rw [← hn, byteLength_cons]; omega
    have hle : c.utf8Size ≤ n + 1 := by rw [← hn, byteLength_cons]; omega
    rw [hn, List.cons_append, cut?, if_pos hle, hsub, ih]
    rfl

/-- A text is cut where its front ends, and nowhere else. -/
theorem cut?_eq_some {n : Nat} {text front back : List Char} :
    cut? n text = some (front, back) ↔ text = front ++ back ∧ n = byteLength front := by
  constructor
  · intro h
    induction text generalizing n front with
    | nil => cases n <;> simp_all [cut?]
    | cons c cs ih =>
      cases n with
      | zero => simp_all [cut?]
      | succ n =>
        unfold cut? at h
        split at h
        · obtain ⟨⟨rest, _⟩, hrest, heq⟩ := Option.map_eq_some_iff.1 h
          cases heq
          obtain ⟨rfl, hlength⟩ := ih hrest
          exact ⟨rfl, by rw [byteLength_cons]; omega⟩
        · cases h
  · rintro ⟨rfl, rfl⟩
    exact cut?_byteLength_append front back

/-- The part of a text between two offsets, if both are between characters and in order. -/
def slice? (start stop : Nat) (text : List Char) : Option (List Char) := do
  let (_, back) ← cut? start text
  if start ≤ stop then
    let (front, _) ← cut? (stop - start) back
    return front
  else none

theorem slice?_append (s t u : List Char) :
    slice? (byteLength s) (byteLength s + byteLength t) (s ++ (t ++ u)) = some t := by
  simp [slice?, cut?_byteLength_append]

/-- How many characters of a text end within its first `n` bytes. -/
def charactersWithin : Nat → List Char → Nat
  | _, [] => 0
  | n, c :: cs => if c.utf8Size ≤ n then charactersWithin (n - c.utf8Size) cs + 1 else 0

theorem charactersWithin_append (s t : List Char) (n : Nat) :
    charactersWithin (byteLength s + n) (s ++ t) = s.length + charactersWithin n t := by
  induction s with
  | nil => simp
  | cons c cs ih =>
    have hsub : byteLength (c :: cs) + n - c.utf8Size = byteLength cs + n := by simp; omega
    have hle : c.utf8Size ≤ byteLength (c :: cs) + n := by simp; omega
    rw [List.cons_append, charactersWithin, if_pos hle, hsub, ih]
    simp only [List.length_cons]
    omega

end TextGrammar.Text
