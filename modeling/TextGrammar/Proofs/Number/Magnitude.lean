import Mathlib.Algebra.Order.Field.Basic
import Mathlib.Data.Rat.Cast.Order
import Mathlib.Tactic.Linarith
import Mathlib.Tactic.NormNum
import Mathlib.Tactic.Positivity
import Mathlib.Tactic.Ring
import TextGrammar.Number.Shortest

/-! # How large shortest decimals are

The shortest decimal of a number is found on a grid that is no coarser than the leading digit of
the number, and lies in the band of what reads back to it. So it has the leading place of the
number at least, and is below every bound that the band is below. -/

namespace TextGrammar.Number

def Decimal.value (d : Decimal) : ℚ := d.digits * 10 ^ d.exponent

def Decimal.places (d : Decimal) : Int := (Nat.toDigits 10 d.digits).length + d.exponent

/-- The number that a band is about. -/
def Band.exact (b : Band) : ℚ := b.value / b.denominator

def Band.upper (b : Band) : ℚ := b.high / b.denominator

theorem ten_zpow_pos (e : Int) : (0 : ℚ) < 10 ^ e := zpow_pos (by norm_num) e

theorem pow_toNat {a : ℚ} (ha : a ≠ 0) (e : Int) : a ^ e * a ^ (-e).toNat = a ^ e.toNat := by
  rw [← zpow_natCast, ← zpow_natCast a e.toNat, ← zpow_add₀ ha]
  congr 1
  omega

theorem pow_length_toDigits {n : Nat} (h : 0 < n) :
    10 ^ ((Nat.toDigits 10 n).length - 1) ≤ n ∧ n < 10 ^ (Nat.toDigits 10 n).length := by
  have hpos : 0 < (Nat.toDigits 10 n).length := Nat.length_toDigits_pos
  refine ⟨?_, (Nat.length_toDigits_le_iff (by decide) hpos).1 le_rfl⟩
  by_contra hlt
  have hlength : 0 < (Nat.toDigits 10 n).length - 1 := by
    by_contra hzero
    rw [Nat.eq_zero_of_not_pos hzero] at hlt
    omega
  have hle := (Nat.length_toDigits_le_iff (by decide) hlength).2 (Nat.lt_of_not_le hlt)
  omega

/-- The first digit of a decimal stands right before its place. -/
theorem Decimal.places_spec {d : Decimal} (h : 0 < d.digits) :
    (10 : ℚ) ^ (d.places - 1) ≤ d.value ∧ d.value < 10 ^ d.places := by
  obtain ⟨hle, hlt⟩ := pow_length_toDigits h
  have hpos : 0 < (Nat.toDigits 10 d.digits).length := Nat.length_toDigits_pos
  have hten : (10 : ℚ) ≠ 0 := by norm_num
  have hexponent := ten_zpow_pos d.exponent
  constructor
  · have hsplit : d.places - 1 = ((Nat.toDigits 10 d.digits).length - 1 : Nat) + d.exponent := by
      unfold places
      omega
    rw [hsplit, zpow_add₀ hten, zpow_natCast]
    exact mul_le_mul_of_nonneg_right (by exact_mod_cast hle) hexponent.le
  · rw [places, zpow_add₀ hten, zpow_natCast]
    exact mul_lt_mul_of_pos_right (by exact_mod_cast hlt) hexponent

/-- Removing zeros does not change the number. -/
theorem Decimal.strip_value (zeros : Nat) (d : Decimal) : (d.strip zeros).value = d.value := by
  induction zeros generalizing d with
  | zero => rfl
  | succ zeros ih =>
    unfold strip
    split
    · rename_i h
      have htenth : d.digits = d.digits / 10 * 10 := by omega
      have hcast : (d.digits : ℚ) = (d.digits / 10 : Nat) * 10 := by exact_mod_cast htenth
      rw [ih]
      simp only [value]
      rw [hcast, zpow_add₀ (by norm_num : (10 : ℚ) ≠ 0), zpow_one]
      ring
    · rfl

theorem Decimal.strip_pos {zeros : Nat} {d : Decimal} (h : 0 < d.digits) :
    0 < (d.strip zeros).digits := by
  induction zeros generalizing d with
  | zero => exact h
  | succ zeros ih =>
    unfold strip
    split
    · apply ih
      dsimp only
      omega
    · exact h

def Band.below (b : Band) (exponent : Int) : Nat :=
  b.value * 10 ^ (-exponent).toNat / (b.denominator * 10 ^ exponent.toNat)

/-- A decimal of a grid is no less than the number rounded down, and no more than the upper end of
the band. -/
def Band.Near (b : Band) (d : Decimal) : Prop :=
  b.below d.exponent ≤ d.digits ∧
    d.digits * 10 ^ d.exponent.toNat * b.denominator ≤ b.high * 10 ^ (-d.exponent).toNat

theorem Band.le_high_of_holds {b : Band} {numerator denominator : Nat}
    (h : b.holds numerator denominator = true) :
    numerator * b.denominator ≤ b.high * denominator := by
  unfold holds at h
  dsimp only at h
  split at h
  · simp only [Bool.and_eq_true, decide_eq_true_eq] at h
    exact h.2
  · simp only [Bool.and_eq_true, decide_eq_true_eq] at h
    exact h.2.le

/-- Of a grid the number rounded down or the one above it is taken, whichever of them is nearer
and in the band. -/
theorem Band.onGrid?_eq (b : Band) (tie : Tie) (exponent : Int) :
    ∃ nearer, b.below exponent ≤ nearer ∧ nearer ≤ b.below exponent + 1 ∧
      b.onGrid? tie exponent =
        if b.holds (nearer * 10 ^ exponent.toNat) (10 ^ (-exponent).toNat) then
          some ⟨nearer, exponent⟩
        else if b.holds ((2 * b.below exponent + 1 - nearer) * 10 ^ exponent.toNat)
            (10 ^ (-exponent).toNat) then
          some ⟨2 * b.below exponent + 1 - nearer, exponent⟩
        else none := by
  refine ⟨_, ?_, ?_, rfl⟩
  · split
    · exact le_rfl
    · split
      · exact Nat.le_succ _
      · cases tie with
        | up => exact Nat.le_succ _
        | even =>
          dsimp only
          split
          · exact le_rfl
          · exact Nat.le_succ _
  · split
    · exact Nat.le_succ _
    · split
      · exact le_rfl
      · cases tie with
        | up => exact le_rfl
        | even =>
          dsimp only
          split
          · exact Nat.le_succ _
          · exact le_rfl

theorem Band.near_of_onGrid {b : Band} {tie : Tie} {exponent : Int} {d : Decimal}
    (h : b.onGrid? tie exponent = some d) : d.exponent = exponent ∧ b.Near d := by
  obtain ⟨nearer, hle, hge, heq⟩ := b.onGrid?_eq tie exponent
  rw [heq] at h
  split at h
  · rename_i hholds
    cases h
    exact ⟨rfl, hle, le_high_of_holds hholds⟩
  · split at h
    · rename_i hholds
      cases h
      refine ⟨rfl, ?_, le_high_of_holds hholds⟩
      change b.below exponent ≤ 2 * b.below exponent + 1 - nearer
      omega
    · cases h

/-- The decimal that is found is on a grid that is no coarser than the first one. -/
theorem Band.near_shortestFrom {b : Band} (hvalue : b.value ≤ b.high) (tie : Tie) (tries : Nat)
    (exponent : Int) : (b.shortestFrom tie tries exponent).exponent ≤ exponent ∧
      b.Near (b.shortestFrom tie tries exponent) := by
  induction tries generalizing exponent with
  | zero =>
    refine ⟨le_rfl, le_rfl, ?_⟩
    calc b.below exponent * 10 ^ exponent.toNat * b.denominator
        = b.below exponent * (b.denominator * 10 ^ exponent.toNat) := by ring
      _ ≤ b.value * 10 ^ (-exponent).toNat := Nat.div_mul_le_self _ _
      _ ≤ b.high * 10 ^ (-exponent).toNat := Nat.mul_le_mul_right _ hvalue
  | succ tries ih =>
    unfold shortestFrom
    split
    · rename_i d hd
      obtain ⟨hexponent, hnear⟩ := near_of_onGrid hd
      exact ⟨hexponent.le, hnear⟩
    · obtain ⟨hexponent, hnear⟩ := ih (exponent - 1)
      exact ⟨by omega, hnear⟩

/-- A decimal near a number is no more than the upper end of its band. -/
theorem Band.Near.value_le {b : Band} {d : Decimal} (h : b.Near d)
    (hdenominator : 0 < b.denominator) : d.value ≤ b.upper := by
  have hden : (0 : ℚ) < b.denominator := by exact_mod_cast hdenominator
  have hdown : (0 : ℚ) < 10 ^ (-d.exponent).toNat := by positivity
  have hcast : (d.digits : ℚ) * 10 ^ d.exponent.toNat * b.denominator ≤
      b.high * 10 ^ (-d.exponent).toNat := by exact_mod_cast h.2
  rw [Band.upper, le_div_iff₀ hden, Decimal.value]
  rw [← pow_toNat (by norm_num)] at hcast
  refine le_of_mul_le_mul_right ?_ hdown
  calc (d.digits : ℚ) * 10 ^ d.exponent * b.denominator * 10 ^ (-d.exponent).toNat
      = d.digits * (10 ^ d.exponent * 10 ^ (-d.exponent).toNat) * b.denominator := by ring
    _ ≤ b.high * 10 ^ (-d.exponent).toNat := hcast

/-- A decimal near a number has its leading place, if its grid has it. -/
theorem Band.Near.le_value {b : Band} {d : Decimal} (h : b.Near d)
    (hdenominator : 0 < b.denominator) {e : Int} (hexponent : d.exponent ≤ e)
    (he : (10 : ℚ) ^ e ≤ b.exact) : 10 ^ e ≤ d.value := by
  have hden : (0 : ℚ) < b.denominator := by exact_mod_cast hdenominator
  have hdown : (0 : ℚ) < 10 ^ (-d.exponent).toNat := by positivity
  have hten : (10 : ℚ) ≠ 0 := by norm_num
  -- the leading place is a whole number of steps of the grid
  obtain ⟨steps, hsteps⟩ : ∃ steps : Nat, e = steps + d.exponent :=
    ⟨(e - d.exponent).toNat, by omega⟩
  rw [hsteps, zpow_add₀ hten, zpow_natCast] at he ⊢
  have hcount : 10 ^ steps ≤ b.below d.exponent := by
    rw [Band.below, Nat.le_div_iff_mul_le (Nat.mul_pos hdenominator (Nat.pow_pos (by decide)))]
    rw [Band.exact, le_div_iff₀ hden] at he
    have hcast : (10 : ℚ) ^ steps * (b.denominator * 10 ^ d.exponent.toNat) ≤
        b.value * 10 ^ (-d.exponent).toNat := by
      rw [← pow_toNat hten]
      calc (10 : ℚ) ^ steps * (b.denominator * (10 ^ d.exponent * 10 ^ (-d.exponent).toNat))
          = 10 ^ steps * 10 ^ d.exponent * b.denominator * 10 ^ (-d.exponent).toNat := by ring
        _ ≤ b.value * 10 ^ (-d.exponent).toNat := mul_le_mul_of_nonneg_right he hdown.le
    exact_mod_cast hcast
  rw [Decimal.value]
  refine mul_le_mul_of_nonneg_right ?_ (ten_zpow_pos _).le
  exact_mod_cast hcount.trans h.1

theorem zpow_le_div {a b n : Nat} (hb : 0 < b) (h : b ≤ a * 10 ^ n) :
    (10 : ℚ) ^ (-(n : Int)) ≤ a / b := by
  have hpos : (0 : ℚ) < b := by exact_mod_cast hb
  have hpow : (0 : ℚ) < 10 ^ n := by positivity
  rw [zpow_neg, zpow_natCast, le_div_iff₀ hpos, inv_mul_le_iff₀ hpow, mul_comm]
  exact_mod_cast h

theorem div_lt_zpow {a b n : Nat} (hb : 0 < b) (h : a * 10 ^ n < b) :
    (a / b : ℚ) < 10 ^ (-(n : Int)) := by
  have hpos : (0 : ℚ) < b := by exact_mod_cast hb
  have hpow : (0 : ℚ) < 10 ^ n := by positivity
  rw [zpow_neg, zpow_natCast, div_lt_iff₀ hpos, lt_inv_mul_iff₀ hpow, mul_comm]
  exact_mod_cast h

theorem div_le_zpow {a b n : Nat} (hb : 0 < b) (h : a * 10 ^ n ≤ b) :
    (a / b : ℚ) ≤ 10 ^ (-(n : Int)) := by
  have hpos : (0 : ℚ) < b := by exact_mod_cast hb
  have hpow : (0 : ℚ) < 10 ^ n := by positivity
  rw [zpow_neg, zpow_natCast, div_le_iff₀ hpos, le_inv_mul_iff₀ hpow, mul_comm]
  exact_mod_cast h

/-- The magnitude of a number is the least power of ten that is more than it. -/
theorem Band.magnitude_spec {b : Band} (hvalue : 0 < b.value) (hdenominator : 0 < b.denominator) :
    (10 : ℚ) ^ (b.magnitude - 1) ≤ b.exact ∧ b.exact < 10 ^ b.magnitude := by
  have hden : (0 : ℚ) < b.denominator := by exact_mod_cast hdenominator
  unfold magnitude exact
  split
  · rename_i hle
    obtain ⟨hlower, hupper⟩ := pow_length_toDigits (Nat.div_pos hle hdenominator)
    generalize hplaces : (Nat.toDigits 10 (b.value / b.denominator)).length = places at *
    rw [Nat.le_div_iff_mul_le hdenominator] at hlower
    rw [Nat.div_lt_iff_lt_mul hdenominator] at hupper
    have hpos : 0 < places := hplaces ▸ Nat.length_toDigits_pos
    have hpred : (places : Int) - 1 = (places - 1 : Nat) := by omega
    rw [hpred, zpow_natCast, zpow_natCast, le_div_iff₀ hden, div_lt_iff₀ hden]
    exact ⟨by exact_mod_cast hlower, by exact_mod_cast hupper⟩
  · rename_i hlt
    have hquotient : 0 < b.denominator / b.value := Nat.div_pos (by omega) hvalue
    obtain ⟨hlower, hupper⟩ := pow_length_toDigits hquotient
    generalize hplaces : (Nat.toDigits 10 (b.denominator / b.value)).length = places at *
    have hpos : 0 < places := hplaces ▸ Nat.length_toDigits_pos
    rw [Nat.le_div_iff_mul_le hvalue, mul_comm] at hlower
    rw [Nat.div_lt_iff_lt_mul hvalue, mul_comm] at hupper
    dsimp only
    split
    · rename_i hexact
      have hpred : (2 : Int) - places - 1 = -((places - 1 : Nat) : Int) := by omega
      refine ⟨hpred ▸ zpow_le_div hdenominator hexact, ?_⟩
      calc (b.value / b.denominator : ℚ) ≤ 10 ^ (-((places - 1 : Nat) : Int)) :=
            div_le_zpow hdenominator hlower
        _ < 10 ^ (2 - (places : Int)) := zpow_lt_zpow_right₀ (by norm_num) (by omega)
    · rename_i hexact
      have hpred : (1 : Int) - places = -((places - 1 : Nat) : Int) := by omega
      have hnext : (1 : Int) - places - 1 = -(places : Int) := by omega
      rw [hnext, hpred]
      exact ⟨zpow_le_div hdenominator hupper.le, div_lt_zpow hdenominator (Nat.lt_of_not_le hexact)⟩

theorem Decimal.pos_of_value {d : Decimal} (h : 0 < d.value) : 0 < d.digits := by
  by_contra hzero
  rw [value, Nat.eq_zero_of_not_pos hzero, Nat.cast_zero, zero_mul] at h
  exact lt_irrefl _ h

/-- The shortest decimal of a number has its leading place, and is in its band. -/
theorem shortest_spec (tie : Tie) {m : Nat} {q : Int} (hm : 0 < m) :
    (10 : ℚ) ^ ((Band.ofParts m q).magnitude - 1) ≤ (shortest tie m q).value ∧
      (shortest tie m q).value ≤ (Band.ofParts m q).upper ∧ 0 < (shortest tie m q).digits := by
  have hscale : 0 < Nat.pow 2 (q - 2).toNat := Nat.pow_pos (by decide)
  have hden : 0 < (Band.ofParts m q).denominator := Nat.pow_pos (by decide)
  have hvalue : 0 < (Band.ofParts m q).value := Nat.mul_pos (by omega) hscale
  have hhigh : (Band.ofParts m q).value ≤ (Band.ofParts m q).high :=
    Nat.mul_le_mul_right _ (by omega)
  obtain ⟨hexponent, hnear⟩ :=
    Band.near_shortestFrom hhigh tie 17 ((Band.ofParts m q).magnitude - 1)
  have hlower := hnear.le_value hden hexponent (Band.magnitude_spec hvalue hden).1
  have hpos := Decimal.pos_of_value ((ten_zpow_pos _).trans_le hlower)
  unfold shortest
  dsimp only
  rw [Decimal.strip_value]
  exact ⟨hlower, hnear.value_le hden, Decimal.strip_pos hpos⟩

end TextGrammar.Number
