import Mathlib.Algebra.Order.Field.Power
import Mathlib.Data.Rat.Cast.Order
import Mathlib.Tactic.FieldSimp
import Mathlib.Tactic.NormNum
import Mathlib.Tactic.Positivity
import TextGrammar.Proofs.Number.Floating

/-! # Floats that are integers

A finite float is a rational number. The integers among them are those with 53 binary digits
before their zeros; the conversion of an integer leaves them as they are, and that of a float
finds them, except for `-2 ^ 63`. -/

namespace TextGrammar.Number
open Float.Model Float.Model.UnpackedFloat

/-- The number that the parts of a float are, if they are those of a number. -/
def Parts.value? : Parts → Option ℚ
  | .finite negative m q => some ((if negative then -1 else 1) * (m * 2 ^ q))
  | _ => none

/-- The number that a float is exactly, if it is finite. -/
def value? (x : Float) : Option ℚ := (parts x).value?

def isMinus : Sign → Bool
  | .negative => true
  | .positive => false

def partsOf : UnpackedFloat → Parts
  | .notANumber => .nan
  | .infinity s => .infinite (isMinus s)
  | .zero s => .finite (isMinus s) 0 (-1074)
  | .finite s m q _ => .finite (isMinus s) m q

@[simp] theorem partsOf_notANumber : partsOf .notANumber = .nan := rfl

@[simp] theorem partsOf_infinity (s : Sign) : partsOf (.infinity s) = .infinite (isMinus s) := rfl

@[simp] theorem partsOf_zero (s : Sign) :
    partsOf (.zero s) = .finite (isMinus s) 0 (-1074) := rfl

@[simp] theorem partsOf_finite (s : Sign) (m : Nat) (q : Int) (hm : 0 < m) :
    partsOf (.finite s m q hm) = .finite (isMinus s) m q := rfl

section
variable (b : BitVec Format.binary64.numBits)

theorem toNat_unpackMantissa : (unpackMantissa b).toNat = b.toNat % 2 ^ 52 := by
  simp [unpackMantissa, BitVec.extractLsb]

theorem toNat_unpackExponent : (unpackExponent b).toNat = b.toNat / 2 ^ 52 % 2 ^ 11 := by
  simp [unpackExponent, BitVec.extractLsb, Nat.shiftRight_eq_div_pow]

theorem isMinus_unpackSign :
    isMinus (Sign.ofBitVec (unpackSign b)) = decide (b.toNat / 2 ^ 63 % 2 = 1) := by
  have hbit : (unpackSign b).toNat = b.toNat / 2 ^ 63 % 2 := by
    unfold unpackSign
    simp [BitVec.extractLsb, Nat.shiftRight_eq_div_pow]
  rw [← hbit]
  generalize unpackSign b = s
  revert s
  decide

/-- The parts that bits encode are those of the float that they unpack to. -/
theorem ofBits_toNat : Parts.ofBits b.toNat = partsOf (UnpackedFloat.unpack .binary64 b) := by
  have hexponent : (unpackExponent b).toNat = b.toNat / Nat.pow 2 52 % Nat.pow 2 11 :=
    toNat_unpackExponent b
  have hmantissa : (unpackMantissa b).toNat = b.toNat % Nat.pow 2 52 := toNat_unpackMantissa b
  have hspecial : unpackExponent b = -1#(Format.binary64.exponentBits) ↔
      (unpackExponent b).toNat = Nat.pow 2 11 - 1 := BitVec.toNat_inj.symm
  have hzero : unpackExponent b = 0#(Format.binary64.exponentBits) ↔ (unpackExponent b).toNat = 0 :=
    BitVec.toNat_inj.symm
  have hnone : unpackMantissa b = 0#(Format.binary64.mantissaBitsWithoutImplicit) ↔
      (unpackMantissa b).toNat = 0 := BitVec.toNat_inj.symm
  have hlead : (1#1 ++ unpackMantissa b).toNat = Nat.pow 2 52 + (unpackMantissa b).toNat := by
    rw [BitVec.toNat_append, ← Nat.shiftLeft_add_eq_or_of_lt (unpackMantissa b).isLt]
    rfl
  unfold Parts.ofBits UnpackedFloat.unpack
  dsimp only
  rw [← hexponent, ← hmantissa]
  by_cases hall : (unpackExponent b).toNat = Nat.pow 2 11 - 1
  · rw [if_pos hall, if_pos (hspecial.2 hall)]
    by_cases hno : (unpackMantissa b).toNat = 0
    · rw [if_pos hno, if_pos (hnone.2 hno), partsOf_infinity, isMinus_unpackSign]
      rfl
    · rw [if_neg hno, if_neg (mt hnone.1 hno), partsOf_notANumber]
  · rw [if_neg hall, if_neg (mt hspecial.1 hall)]
    by_cases hfew : (unpackExponent b).toNat = 0
    · rw [if_pos hfew, if_pos (hzero.2 hfew)]
      by_cases hno : (unpackMantissa b).toNat = 0
      · rw [dif_pos (hnone.2 hno), partsOf_zero, isMinus_unpackSign, hno]
        rfl
      · rw [dif_neg (mt hnone.1 hno), partsOf_finite, isMinus_unpackSign, hfew]
        rfl
    · rw [if_neg hfew, if_neg (mt hzero.1 hfew), partsOf_finite, isMinus_unpackSign, hlead]
      rfl

end

theorem parts_eq (x : Float) : parts x = partsOf x.toModel.unpack :=
  ofBits_toNat x.toModel.toBits.toBitVec

/-- A number that is a float has no more than 53 binary digits before its zeros. -/
theorem exists_of_value? {x : Float} {r : ℚ} (h : value? x = some r) :
    ∃ negative m q, parts x = .finite negative m q ∧ m < 2 ^ 53 ∧
      (if negative then -1 else 1) * (m * 2 ^ q : ℚ) = r := by
  unfold value? parts at *
  unfold Parts.ofBits at *
  have hfraction : x.toBits.toNat % Nat.pow 2 52 < 2 ^ 52 := Nat.mod_lt _ (by decide)
  generalize x.toBits.toNat % Nat.pow 2 52 = fraction at *
  dsimp only at h ⊢
  split_ifs at h ⊢ with hall hno hfew
  · cases h
  · cases h
  · exact ⟨_, _, _, rfl, by omega, Option.some.inj h⟩
  · have hlead : Nat.pow 2 52 = 2 ^ 52 := rfl
    exact ⟨_, _, _, rfl, by omega, Option.some.inj h⟩

section
variable {m n : Nat} {q : Int}

theorem scaled?_eq_some : scaled? m q = some n ↔ (n : ℚ) = m * 2 ^ q := by
  unfold scaled?
  split_ifs with hq hdvd
  · lift q to Nat using hq
    rw [Option.some_inj, zpow_natCast, Int.toNat_natCast]
    exact ⟨fun h => by exact_mod_cast h.symm, fun h => by exact_mod_cast h.symm⟩
  all_goals
    obtain ⟨k, rfl⟩ : ∃ k : Nat, q = -(k : Int) := ⟨(-q).toNat, by omega⟩
    rw [neg_neg, Int.toNat_natCast] at hdvd
    have hpow : (2 : ℚ) ^ k ≠ 0 := by positivity
    rw [zpow_neg, zpow_natCast, ← div_eq_mul_inv, eq_div_iff hpow]
  · rw [Option.some_inj, neg_neg, Int.toNat_natCast]
    have hmul : m / Nat.pow 2 k * 2 ^ k = m := Nat.div_mul_cancel (Nat.dvd_of_mod_eq_zero hdvd)
    refine ⟨fun h => by rw [← h]; exact_mod_cast hmul, fun h => ?_⟩
    have hcast : n * 2 ^ k = m := by exact_mod_cast h
    exact Nat.eq_of_mul_eq_mul_right (Nat.two_pow_pos k) (hmul.trans hcast.symm)
  · refine ⟨nofun, fun h => absurd ?_ hdvd⟩
    have hcast : n * 2 ^ k = m := by exact_mod_cast h
    exact Nat.mod_eq_zero_of_dvd ⟨n, by rw [← hcast, Nat.mul_comm]; rfl⟩

/-- An integer with 53 digits before its zeros is the float nearest to it. -/
theorem nearest_of_scaled (hm : m < 2 ^ 53) (h : (n : ℚ) = m * 2 ^ q) : nearest n = n := by
  rcases lt_or_ge q 0 with hneg | hpos
  · refine nearest_of_le (le_trans ?_ hm.le)
    have hle : (2 : ℚ) ^ q ≤ 1 := zpow_le_one_of_nonpos₀ (by norm_num) hneg.le
    have hcast : (n : ℚ) ≤ m := h ▸ mul_le_of_le_one_right (Nat.cast_nonneg m) hle
    exact_mod_cast hcast
  · lift q to Nat using hpos
    rw [zpow_natCast] at h
    have hn : n = m * 2 ^ q := by exact_mod_cast h
    have hlog : n.log2 - 52 ≤ q := by
      rcases Nat.eq_zero_or_pos n with rfl | hpos
      · exact Nat.zero_le q
      · have hlt : n < 2 ^ (53 + q) := by
          rw [hn, Nat.pow_add]
          exact Nat.mul_lt_mul_of_pos_right hm (Nat.two_pow_pos q)
        have hlog := (Nat.log2_lt hpos.ne').2 hlt
        omega
    refine nearest_of_dvd ((Nat.pow_dvd_pow 2 hlog).trans ?_)
    rw [hn]
    exact Nat.dvd_mul_left _ _

end

section
variable {x : Float} {z : Int}

/-- The magnitude of a float that is an integer. -/
theorem natAbs_of_signed {negative : Bool} {m : Nat} {q : Int}
    (h : (if negative then -1 else 1) * (m * 2 ^ q : ℚ) = z) :
    (z.natAbs : ℚ) = m * 2 ^ q ∧ z = if negative then -(z.natAbs : Int) else z.natAbs := by
  have hnonneg : (0 : ℚ) ≤ m * 2 ^ q := by positivity
  cases negative with
  | false =>
    rw [if_neg Bool.false_ne_true, one_mul] at h
    have hz : 0 ≤ z := by exact_mod_cast h ▸ hnonneg
    have habs : (z.natAbs : Int) = z := Int.natAbs_of_nonneg hz
    refine ⟨?_, habs.symm⟩
    rw [h, ← Int.cast_natCast, habs]
  | true =>
    rw [if_pos rfl, neg_one_mul, neg_eq_iff_eq_neg] at h
    have hz : z ≤ 0 := by
      have hcast : (0 : ℚ) ≤ -z := h ▸ hnonneg
      have hint : 0 ≤ -z := by exact_mod_cast hcast
      omega
    have habs : (z.natAbs : Int) = -z := Int.ofNat_natAbs_of_nonpos hz
    refine ⟨?_, by rw [if_pos rfl]; omega⟩
    rw [h, ← Int.cast_natCast, habs, Int.cast_neg]

/-- An integer that is a float is the float nearest to it. -/
theorem nearestInt_of_value? (h : value? x = some (z : ℚ)) : nearestInt z = z := by
  obtain ⟨negative, m, q, -, hm, hsigned⟩ := exists_of_value? h
  have hnearest := nearest_of_scaled hm (natAbs_of_signed hsigned).1
  unfold nearestInt
  rw [hnearest]
  split_ifs <;> omega

/-- The float of an integer is the nearest one exactly. -/
theorem value?_toFloat (n : Int64) : value? (toFloat n) = some (nearestInt n.toInt : ℚ) := by
  have hequals := toFloat_equals n
  rw [value?, parts_eq]
  generalize (toFloat n).toModel.unpack = u at hequals
  generalize nearestInt n.toInt = z at hequals
  cases hequals with
  | zero s => simp [Parts.value?]
  | @finite s m n e _ _ _ hexponent hvalue =>
    obtain ⟨k, rfl⟩ : ∃ k : Nat, e = k - 52 := ⟨(e + 52).toNat, by omega⟩
    have hn : (n : ℚ) = m * 2 ^ ((k : Int) - 52) := by
      have hcast : (n : ℚ) * 2 ^ 52 = m * 2 ^ k := by
        have hk : ((k : Int) - 52 + 52).toNat = k := by omega
        rw [hk] at hvalue
        exact_mod_cast hvalue
      rw [zpow_sub₀ two_ne_zero, zpow_natCast]
      field_simp
      exact_mod_cast hcast
    rw [partsOf_finite, Parts.value?]
    cases s <;> simp [isMinus, Sign.apply, hn]

/-- The integer of a float is the number that it is, if that is above `-2 ^ 63`. -/
theorem ofFloat?_eq_some {n : Int64} :
    ofFloat? x = some n ↔ value? x = some (n.toInt : ℚ) ∧ -2 ^ 63 < n.toInt := by
  have hbound : Nat.pow 2 63 = 2 ^ 63 := rfl
  unfold ofFloat? value?
  rcases parts x with _ | _ | ⟨negative, m, q⟩
  · exact ⟨nofun, nofun⟩
  · exact ⟨nofun, nofun⟩
  · rw [Parts.value?, Option.some_inj]
    dsimp only
    constructor
    · intro h
      split at h
      · rename_i k hk
        split_ifs at h with hlt hminus
        all_goals
          rw [← Option.some.inj h, Int64.toInt_ofInt_of_le (by omega) (by omega)]
          exact ⟨by simp [hminus, ← scaled?_eq_some.1 hk], by omega⟩
      · cases h
    · rintro ⟨hsigned, hlow⟩
      obtain ⟨habs, hsign⟩ := natAbs_of_signed hsigned
      have hhigh := n.toInt_lt
      rw [scaled?_eq_some.2 habs]
      dsimp only
      rw [if_pos (by omega), ← hsign, Int64.ofInt_toInt]

end

end TextGrammar.Number
