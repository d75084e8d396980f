import TextGrammar.Proofs.Compile.Nullability
import TextGrammar.Proofs.Matching.Atomic

/-! # Matching without consuming

A pattern that matches and leaves as much of the input as there was is nullable: no leaf matches
empty input, and the nullable rules are closed. -/

namespace TextGrammar

theorem Text.byteLength_drop_lt {n : Nat} {cs : List Char} (hn : 0 < n) (hcs : cs ≠ []) :
    Text.byteLength (cs.drop n) < Text.byteLength cs := by
  cases cs with
  | nil => exact absurd rfl hcs
  | cons c cs =>
    obtain ⟨n, rfl⟩ : ∃ k, n = k + 1 := ⟨n - 1, by omega⟩
    have hsplit : Text.byteLength (cs.take n) + Text.byteLength (cs.drop n) =
        Text.byteLength cs := by
      rw [← Text.byteLength_append, List.take_append_drop]
    have hc := c.utf8Size_pos
    rw [List.drop_succ_cons, Text.byteLength_cons]
    omega

namespace Leaf

theorem readLine?_takes {rest : List Char} {c : Capture} {taken : Nat}
    (h : readLine? rest = some (c, taken)) : 0 < taken ∧ rest ≠ [] := by
  unfold readLine? at h
  split at h
  · cases h
  · rename_i hrest
    have hne : rest ≠ [] := by simpa using hrest
    have hpos := List.length_pos_iff.2 hne
    simp only [Option.some.injEq, Prod.mk.injEq] at h
    obtain ⟨-, rfl⟩ := h
    refine ⟨?_, hne⟩
    split <;> omega

def Substantial (lexeme? : List Char → Option (List Char)) : Prop :=
  ∀ cs lexeme, lexeme? cs = some lexeme → lexeme ≠ [] ∧ cs ≠ []

theorem integerLexeme?_substantial : Substantial integerLexeme? := by
  intro cs lexeme h
  unfold integerLexeme? at h
  simp only at h
  split at h
  · cases h
  · rename_i hdigits
    cases h
    constructor
    · intro hnil
      exact hdigits (List.isEmpty_iff.2 (List.append_eq_nil_iff.1 hnil).2)
    · rintro rfl
      exact hdigits rfl

theorem floatLexeme?_substantial : Substantial floatLexeme? := by
  intro cs lexeme h
  unfold floatLexeme? at h
  simp only at h
  split at h
  · cases h
  · rename_i hdigits
    cases h
    constructor
    · intro hnil
      simp only [List.append_eq_nil_iff] at hnil
      obtain ⟨⟨⟨-, hwhole⟩, hfraction⟩, -⟩ := hnil
      exact hdigits (by rw [hwhole] at hfraction ⊢; rw [hfraction]; rfl)
    · rintro rfl
      exact hdigits rfl

theorem readNumber?_takes {lexeme? : List Char → Option (List Char)}
    {capture? : List Char → Option Capture} (hlexeme : Substantial lexeme?) {rest : List Char}
    {c : Capture} {taken : Nat} (h : readNumber? lexeme? capture? rest = some (c, taken)) :
    0 < taken ∧ rest ≠ [] := by
  unfold readNumber? at h
  simp only [Option.bind_eq_bind, Option.bind_eq_some_iff] at h
  obtain ⟨lexeme, hfound, capture, -, htaken⟩ := h
  obtain ⟨hne, hrest⟩ := hlexeme _ _ hfound
  have hpos := List.length_pos_iff.2 hne
  simp only [Option.pure_def, Option.some.injEq, Prod.mk.injEq] at htaken
  refine ⟨by omega, ?_⟩
  rintro rfl
  exact hrest rfl

/-- A leaf takes something. -/
theorem read?_takes {l : Leaf} {rest : List Char} {c : Capture} {taken : Nat}
    (h : l.read? rest = some (c, taken)) :
    Text.byteLength (rest.drop taken) < Text.byteLength rest := by
  have htakes : 0 < taken ∧ rest ≠ [] := by
    cases l with
    | line => exact readLine?_takes h
    | float => exact readNumber?_takes floatLexeme?_substantial h
    | integer => exact readNumber?_takes integerLexeme?_substantial h
  exact Text.byteLength_drop_lt htakes.1 htakes.2

end Leaf

namespace Matching
open Compile (isNullable areNullable anyNullable Closed)

def State.left (s : State) : Nat := Text.byteLength s.place.rest

theorem State.Follows.left_le {s t : State} (h : t.Follows s) : t.left ≤ s.left :=
  h.ahead.byteLength_le

@[simp] theorem left_keep (s : State) (b : Option Binding) (c : Capture) :
    (s.keep b c).left = s.left := by
  simp [State.left]

/-- A matcher that matches and consumes nothing has a property. -/
def Idle (m : Matcher Outcome) (property : Prop) : Prop :=
  ∀ ⦃s : State⦄ ⦃c : Capture⦄ ⦃t : State⦄, Yields m s (some c) t → t.left = s.left → property

section
variable {g : Grammar} {call : Nat → Matcher Outcome} {known : List Nat}

mutual

theorem matchPattern_idle (hatomic : ∀ index, Atomic (call index))
    (hcall : ∀ index, Idle (call index) (index ∈ known)) :
    ∀ p : Pattern, Idle (matchPattern g call p) (isNullable known p = true)
  | .leaf l, s, c, t, h, hleft => by
    obtain ⟨x, taken, hread, -, rfl⟩ | ⟨⟨⟩, -⟩ := matchLeaf_yields h
    exact absurd hleft (Nat.ne_of_lt (Leaf.read?_takes hread))
  | .literal text, s, c, t, h, hleft => by
    obtain ⟨-, rfl, hfront⟩ | ⟨⟨⟩, -⟩ := matchLiteral_yields h
    obtain ⟨back, hback⟩ := List.isPrefixOf_iff_prefix.1 hfront
    cases htext : text.toList with
    | nil => simpa [isNullable] using htext
    | cons first rest =>
      have hne : s.place.rest ≠ [] := by
        rw [← hback, htext]
        nofun
      have hpos : 0 < text.toList.length := by simp [htext]
      exact absurd hleft (Nat.ne_of_lt (Text.byteLength_drop_lt hpos hne))
  | .sequence slots fields, s, c, t, h, hleft => by
    obtain ⟨u, v, hu, hv, rfl⟩ | ⟨-, -, ⟨⟩, -⟩ := inFrame_yields h
    obtain ⟨-, rfl⟩ := yieldRecord_yields.1 hv
    exact matchFields_idle hatomic hcall fields hu hleft
  | .action slots fields locals body, s, c, t, h, hleft => by
    obtain ⟨u, v, hu, hv, rfl⟩ | ⟨-, -, ⟨⟩, -⟩ := inFrame_yields h
    obtain ⟨-, -, -, rfl⟩ := yieldValue_yields hv
    exact matchFields_idle hatomic hcall fields hu hleft
  | .repetition _, _, _, _, _, _ => rfl
  | .choice alternatives, _, _, _, h, hleft => matchFirst_idle hatomic hcall alternatives h hleft
  | .negation _, _, _, _, _, _ => rfl
  | .rule index _, _, _, _, h, hleft => by simpa [isNullable] using hcall index h hleft

theorem matchFields_idle (hatomic : ∀ index, Atomic (call index))
    (hcall : ∀ index, Idle (call index) (index ∈ known)) :
    ∀ (fields : List (Option Binding × Pattern)) ⦃s t : State⦄,
      Yields (matchFields g call fields) s true t → t.left = s.left →
      areNullable known fields = true
  | [], _, _, _, _ => rfl
  | (b, p) :: rest, s, t, h, hleft => by
    obtain ⟨c, u, hp, hrest⟩ | ⟨-, ⟨⟩⟩ := matchFields_yields h
    have hfirst := (matchPattern_atomic hatomic p hp).1.left_le
    have hlast := (matchFields_follows hatomic rest hrest).left_le
    rw [left_keep] at hlast
    have hp' := matchPattern_idle hatomic hcall p hp (by omega)
    have hrest' := matchFields_idle hatomic hcall rest hrest (by rw [left_keep]; omega)
    simp [areNullable, hp', hrest']

theorem matchFirst_idle (hatomic : ∀ index, Atomic (call index))
    (hcall : ∀ index, Idle (call index) (index ∈ known)) :
    ∀ ps : List Pattern, Idle (matchFirst g call ps) (anyNullable known ps = true)
  | [], _, _, _, h, _ => absurd (yields_pure.1 h).1 nofun
  | p :: rest, s, c, t, h, hleft => by
    obtain ⟨-, hp⟩ | ⟨u, hp, hrest⟩ := matchFirst_yields h
    · simp [anyNullable, matchPattern_idle hatomic hcall p hp hleft]
    · simp [anyNullable, matchFirst_idle hatomic hcall rest hrest hleft]

end

end

/-- A rule that matches without consuming is one of the nullable rules. -/
theorem callWithin_idle {g : Grammar} {known : List Nat} (limit : Nat)
    (hclosed : Closed g.rules known) (levels index : Nat) :
    Idle (callWithin g limit levels index) (index ∈ known) := by
  induction levels generalizing index with
  | zero =>
    intro s c t h hleft
    obtain ⟨r, left, -, hlevels, -⟩ := callWithin_yields h
    cases hlevels
  | succ levels ih =>
    intro s c t h hleft
    obtain ⟨r, left, hr, hlevels, u, hu, rfl⟩ := callWithin_yields h
    cases hlevels
    exact hclosed index r hr
      (matchPattern_idle (callWithin_atomic g limit levels) ih r.body hu hleft)

end Matching

end TextGrammar
