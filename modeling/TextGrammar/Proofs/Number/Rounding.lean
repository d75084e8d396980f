import Mathlib.Algebra.Order.Ring.Nat
import Mathlib.Tactic.SplitIfs
import TextGrammar.Number.Integer

/-! # Integers rounded to 53 bits

A float has 53 bits for the digits of a number. An integer with more of them is rounded to a
multiple of the power of two that is left of its last digits, of two that are equally near to the
even one. -/

namespace TextGrammar.Number

/-- A quotient rounded to the nearest integer, and to the even one of two that are equally near. -/
def roundedQuotient (n d : Nat) : Nat :=
  if 2 * (n % d) < d then n / d
  else if d < 2 * (n % d) then n / d + 1
  else n / d + n / d % 2

/-- The distance of the floats around a natural number, where it is one at least. -/
def grain (n : Nat) : Nat := 2 ^ (n.log2 - 52)

/-- The natural number that is the float nearest to one. -/
def nearest (n : Nat) : Nat := roundedQuotient n (grain n) * grain n

/-- The integer that is the float nearest to one. -/
def nearestInt (n : Int) : Int := if n < 0 then -(nearest n.natAbs : Int) else nearest n.natAbs

section
variable {m n d : Nat}

theorem div_le_roundedQuotient (n d : Nat) : n / d ≤ roundedQuotient n d := by
  unfold roundedQuotient
  split
  · exact le_rfl
  · split <;> exact Nat.le_add_right _ _

theorem roundedQuotient_le (n d : Nat) : roundedQuotient n d ≤ n / d + 1 := by
  unfold roundedQuotient
  split
  · exact Nat.le_succ _
  · split
    · exact le_rfl
    · have hparity : n / d % 2 < 2 := Nat.mod_lt _ (by decide)
      omega

theorem roundedQuotient_of_dvd (hd : 0 < d) (h : d ∣ n) : roundedQuotient n d = n / d := by
  unfold roundedQuotient
  rw [Nat.mod_eq_zero_of_dvd h, if_pos (by omega)]

theorem roundedQuotient_mono (hle : m ≤ n) : roundedQuotient m d ≤ roundedQuotient n d := by
  obtain hlt | heq := (Nat.div_le_div_right hle : m / d ≤ n / d).lt_or_eq
  · calc roundedQuotient m d ≤ m / d + 1 := roundedQuotient_le m d
      _ ≤ n / d := hlt
      _ ≤ roundedQuotient n d := div_le_roundedQuotient n d
  · have hm := Nat.div_add_mod m d
    have hn := Nat.div_add_mod n d
    rw [heq] at hm
    have hmod : m % d ≤ n % d := by omega
    have hparity : n / d % 2 < 2 := Nat.mod_lt _ (by decide)
    unfold roundedQuotient
    rw [heq]
    split_ifs <;> omega

end

section
variable {m n : Nat}

theorem grain_pos (n : Nat) : 0 < grain n := Nat.two_pow_pos _

/-- A number with no more than 53 bits, followed by zeros, is a float. -/
theorem nearest_of_dvd (h : grain n ∣ n) : nearest n = n := by
  rw [nearest, roundedQuotient_of_dvd (grain_pos n) h, Nat.div_mul_cancel h]

theorem grain_eq_one (h : n < 2 ^ 53) : grain n = 1 := by
  have hlog : n.log2 ≤ 52 := by
    rcases Nat.eq_zero_or_pos n with rfl | hpos
    · decide
    · exact Nat.le_of_lt_succ ((Nat.log2_lt hpos.ne').2 h)
  rw [grain, Nat.sub_eq_zero_of_le hlog, Nat.pow_zero]

theorem nearest_of_le (h : n ≤ 2 ^ 53) : nearest n = n := by
  refine nearest_of_dvd ?_
  obtain hlt | rfl := h.lt_or_eq
  · rw [grain_eq_one hlt]
    exact one_dvd n
  · decide

/-- The digits that a float keeps are 53. -/
theorem roundedQuotient_grain_bounds (h : 2 ^ 52 ≤ n) :
    2 ^ 52 ≤ roundedQuotient n (grain n) ∧ roundedQuotient n (grain n) ≤ 2 ^ 53 := by
  have hpos : n ≠ 0 := by omega
  have hlog : 52 ≤ n.log2 := (Nat.le_log2 hpos).2 h
  have hlow : 2 ^ 52 ≤ n / grain n := by
    rw [Nat.le_div_iff_mul_le (grain_pos n), grain, ← Nat.pow_add, Nat.add_sub_cancel' hlog]
    exact Nat.log2_self_le hpos
  have hhigh : n / grain n < 2 ^ 53 := by
    rw [Nat.div_lt_iff_lt_mul (grain_pos n), grain, ← Nat.pow_add]
    have hexponent : 53 + (n.log2 - 52) = n.log2 + 1 := by omega
    rw [hexponent]
    exact Nat.lt_log2_self
  exact ⟨hlow.trans (div_le_roundedQuotient _ _), (roundedQuotient_le _ _).trans hhigh⟩

/-- Rounding does not pass a power of two. -/
theorem nearest_bounds (h : n ≠ 0) : 2 ^ n.log2 ≤ nearest n ∧ nearest n ≤ 2 ^ (n.log2 + 1) := by
  rcases Nat.lt_or_ge n (2 ^ 52) with hlt | hge
  · rw [nearest_of_le (hlt.le.trans (by decide))]
    exact ⟨Nat.log2_self_le h, Nat.lt_log2_self.le⟩
  · obtain ⟨hlow, hhigh⟩ := roundedQuotient_grain_bounds hge
    have hlog : 52 ≤ n.log2 := (Nat.le_log2 h).2 hge
    have hgrain : 2 ^ n.log2 = 2 ^ 52 * grain n := by
      rw [grain, ← Nat.pow_add, Nat.add_sub_cancel' hlog]
    have hdouble : 2 ^ (n.log2 + 1) = 2 ^ 53 * grain n := by
      rw [Nat.pow_succ, hgrain]
      omega
    rw [hgrain, hdouble, nearest]
    exact ⟨Nat.mul_le_mul_right _ hlow, Nat.mul_le_mul_right _ hhigh⟩

theorem log2_mono (h : m ≤ n) : m.log2 ≤ n.log2 := by
  rcases Nat.eq_zero_or_pos m with rfl | hpos
  · exact Nat.zero_le _
  · exact (Nat.le_log2 (by omega)).2 ((Nat.log2_self_le hpos.ne').trans h)

theorem nearest_mono (h : m ≤ n) : nearest m ≤ nearest n := by
  rcases (log2_mono h).lt_or_eq with hlt | heq
  · rcases Nat.eq_zero_or_pos m with rfl | hpos
    · exact Nat.zero_le _
    · calc nearest m ≤ 2 ^ (m.log2 + 1) := (nearest_bounds hpos.ne').2
        _ ≤ 2 ^ n.log2 := Nat.pow_le_pow_right (by decide) hlt
        _ ≤ nearest n := (nearest_bounds (by omega)).1
  · have hgrain : grain m = grain n := by rw [grain, grain, heq]
    rw [nearest, nearest, hgrain]
    exact Nat.mul_le_mul_right _ (roundedQuotient_mono h)

end

theorem nearestInt_mono {m n : Int} (h : m ≤ n) : nearestInt m ≤ nearestInt n := by
  unfold nearestInt
  split_ifs with hm hn hn
  · have hle := nearest_mono (show n.natAbs ≤ m.natAbs by omega)
    omega
  · omega
  · omega
  · have hle := nearest_mono (show m.natAbs ≤ n.natAbs by omega)
    omega

theorem nearestInt_of_natAbs_le {n : Int} (h : n.natAbs ≤ 2 ^ 53) : nearestInt n = n := by
  unfold nearestInt
  rw [nearest_of_le h]
  split_ifs <;> omega

end TextGrammar.Number
