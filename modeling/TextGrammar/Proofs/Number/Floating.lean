import TextGrammar.Proofs.Number.Rounding

/-! # Integers as floats

The float of an integer is the integer that is rounded to 53 bits, and floats of integers are
compared as the integers that they are. -/

namespace TextGrammar.Number
open Float.Model Float.Model.UnpackedFloat

/-- A mantissa holds a quotient, and its two further bits say where the remainder lies: whether it
is a half of the divisor at least, and whether it is neither none nor a half. -/
structure Quotes (em : ExtendedMantissa) (n d : Nat) : Prop where
  mantissa : em.mantissa = n / d
  round : em.roundBit = true ↔ d ≤ 2 * (n % d)
  sticky : em.stickyBit = true ↔ 2 * (n % d) ≠ 0 ∧ 2 * (n % d) ≠ d

section
variable {em : ExtendedMantissa} {n d : Nat}

theorem quotes_exact (n : Nat) : Quotes (.ofMantissaAndAccuracy n .exact) n 1 where
  mantissa := (Nat.div_one n).symm
  round := by simp [ExtendedMantissa.ofMantissaAndAccuracy, Nat.mod_one]
  sticky := by simp [ExtendedMantissa.ofMantissaAndAccuracy, Nat.mod_one]

/-- Dropping a bit halves the quotient. -/
theorem Quotes.shiftRightOne (h : Quotes em n d) (hd : 0 < d) :
    Quotes em.shiftRightOne n (d * 2) := by
  have hmod : n % (d * 2) = n % d + d * (n / d % 2) := Nat.mod_mul
  have hlt : n % d < d := Nat.mod_lt n hd
  have hbit : n / d % 2 = 0 ∨ n / d % 2 = 1 := by omega
  refine ⟨?_, ?_, ?_⟩
  · rw [ExtendedMantissa.shiftRightOne, h.mantissa, Nat.div_div_eq_div_mul]
  · rw [ExtendedMantissa.shiftRightOne, h.mantissa, hmod]
    rcases hbit with hzero | hone
    · simp [hzero]
      omega
    · simp [hone]
      omega
  · rw [ExtendedMantissa.shiftRightOne, Bool.or_eq_true, h.round, h.sticky, hmod]
    rcases hbit with hzero | hone
    · rw [hzero]
      omega
    · rw [hone]
      omega

theorem quotes_shift (n k : Nat) :
    Quotes (ExtendedMantissa.ofMantissaAndAccuracy n .exact >>> k) n (2 ^ k) := by
  induction k with
  | zero => exact quotes_exact n
  | succ k ih => exact ih.shiftRightOne (Nat.two_pow_pos k)

theorem Quotes.roundedMantissa (h : Quotes em n d) : em.roundedMantissa = roundedQuotient n d := by
  obtain ⟨m, round, sticky⟩ := em
  obtain ⟨rfl, hround, hsticky⟩ := h
  dsimp only at hround hsticky
  unfold roundedQuotient
  cases round with
  | false =>
    have hbelow : 2 * (n % d) < d := by simpa using hround
    rw [if_pos hbelow]
    cases sticky <;> rfl
  | true =>
    have hreached : d ≤ 2 * (n % d) := by simpa using hround
    rw [if_neg (Nat.not_lt.2 hreached)]
    cases sticky with
    | false =>
      have htie : ¬d < 2 * (n % d) := by
        simp only [Bool.false_eq_true, false_iff] at hsticky
        omega
      rw [if_neg htie]
      rfl
    | true =>
      have habove : d < 2 * (n % d) := by
        simp only [true_iff] at hsticky
        omega
      rw [if_pos habove]
      rfl

end

inductive Equals : UnpackedFloat → Int → Prop
  | zero (s : Sign) : Equals (.zero s) 0
  | finite {s : Sign} {m n : Nat} {e : Int} (hm : 0 < m) (hlow : 2 ^ 52 ≤ m) (hhigh : m < 2 ^ 53)
    (hexponent : -52 ≤ e ∧ e ≤ 971) (hvalue : n * 2 ^ 52 = m * 2 ^ (e + 52).toNat) :
    Equals (.finite s m e hm) (s.apply n)

section
variable {s : Sign} {m n k : Nat} {e : Int}

theorem log2_of_normal (hlow : 2 ^ 52 ≤ m) (hhigh : m < 2 ^ 53) : m.log2 = 52 :=
  (Nat.log2_eq_iff (by omega)).2 ⟨hlow, hhigh⟩

/-- The exponent that leaves 53 bits of a mantissa, unless it would be too small. -/
theorem targetExponent_eq (h : -1074 ≤ m.log2 + e - 52) :
    Format.binary64.targetExponent (totalExponent m e) = m.log2 + e - 52 := by
  have hmin : Format.binary64.minExponent = -1074 := rfl
  have hbits : (Format.binary64.mantissaBits : Int) = 53 := rfl
  rw [Format.targetExponent, totalExponent, hmin, hbits]
  omega

/-- Shifting a mantissa to the exponent that leaves 53 bits of it. -/
theorem shiftToTargetExponent_eq (h : m.log2 + e - 52 = e + k) (he : -1074 ≤ e) :
    shiftToTargetExponent .binary64 m e .exact =
      (ExtendedMantissa.ofMantissaAndAccuracy m .exact >>> k, e + k) := by
  have hshift : (e + k - e).toNat = k := by omega
  rw [shiftToTargetExponent, targetExponent_eq (by omega), h, shiftToExponent, hshift]

/-- A mantissa of 53 bits, or the next power of two, is brought into normal form. -/
theorem carried_equals {r : Nat} (hlow : 2 ^ 52 ≤ r) (hhigh : r ≤ 2 ^ 53) (he : -52 ≤ e)
    (he' : e ≤ 970) (hvalue : n * 2 ^ 52 = r * 2 ^ (e + 52).toNat) :
    ∃ m' e', ∃ hm : 0 < m', (shiftToTargetExponent .binary64 r e .exact).1.mantissa = m' ∧
      (shiftToTargetExponent .binary64 r e .exact).2 = e' ∧
      Equals (.finite s m' e' hm) (s.apply n) := by
  rcases Nat.lt_or_eq_of_le hhigh with hlt | heq
  · have hlog := log2_of_normal hlow hlt
    rw [shiftToTargetExponent_eq (k := 0) (by omega) (by omega)]
    refine ⟨r, e, by omega, rfl, Int.add_zero e, .finite _ hlow hlt ⟨he, by omega⟩ hvalue⟩
  · have hlog : r.log2 = 53 := by rw [heq, Nat.log2_two_pow]
    have hpow : (e + 1 + 52).toNat = (e + 52).toNat + 1 := by omega
    rw [shiftToTargetExponent_eq (k := 1) (by omega) (by omega)]
    refine ⟨2 ^ 52, e + 1, by decide, ?_, rfl,
      .finite _ le_rfl (by decide) ⟨by omega, by omega⟩ ?_⟩
    · rw [(quotes_shift r 1).mantissa, heq]
      rfl
    · rw [hvalue, heq, hpow, Nat.pow_succ 2 (e + 52).toNat]
      omega

theorem roundWithAccuracy_equals (h : m.log2 + e - 52 = e + k) (he : -52 ≤ e) (hk : e + k ≤ 970)
    (hlow : 2 ^ 52 ≤ roundedQuotient m (2 ^ k)) (hhigh : roundedQuotient m (2 ^ k) ≤ 2 ^ 53)
    (hvalue : n * 2 ^ 52 = roundedQuotient m (2 ^ k) * 2 ^ (e + k + 52).toNat) :
    Equals (roundWithAccuracy .binary64 s m e .exact) (s.apply n) := by
  obtain ⟨_, _, hm, rfl, rfl, hequals⟩ :=
    carried_equals (s := s) hlow hhigh (by omega) hk hvalue
  unfold roundWithAccuracy
  rw [shiftToTargetExponent_eq h (by omega)]
  dsimp only
  rw [(quotes_shift m k).roundedMantissa, dif_neg hm.ne']
  exact hequals

theorem decreaseExponent_eq (n : Nat) :
    decreaseExponent n 0 (n.log2 + 0 - 52) =
      (n * 2 ^ (52 - n.log2), -((52 - n.log2 : Nat) : Int)) := by
  have hshift : (0 - ((n.log2 : Int) + 0 - 52)).toNat = 52 - n.log2 := by omega
  rw [decreaseExponent, hshift, Nat.shiftLeft_eq, Int.zero_sub]

/-- Rounding a positive integer gives the normal form of the float nearest to it. -/
theorem round_equals (s : Sign) (hn : n ≠ 0) (hlog : n.log2 ≤ 970) :
    Equals (Float.Model.UnpackedFloat.round .binary64 s n 0) (s.apply (nearest n)) := by
  unfold Float.Model.UnpackedFloat.round
  rw [targetExponent_eq (by omega)]
  dsimp only
  rw [decreaseExponent_eq]
  dsimp only
  obtain ⟨hself, hdouble⟩ : 2 ^ n.log2 ≤ n ∧ n < 2 ^ (n.log2 + 1) :=
    ⟨Nat.log2_self_le hn, Nat.lt_log2_self⟩
  rcases Nat.le_total 52 n.log2 with hlong | hshort
  · -- The last digits are dropped.
    have hpad : 52 - n.log2 = 0 := Nat.sub_eq_zero_of_le hlong
    rw [hpad, Nat.pow_zero, Nat.mul_one]
    obtain ⟨hlow, hhigh⟩ :=
      roundedQuotient_grain_bounds ((Nat.pow_le_pow_right (by decide) hlong).trans hself)
    refine roundWithAccuracy_equals (k := n.log2 - 52) (by omega) (by omega) (by omega) hlow
      hhigh ?_
    have hexponent : (-((0 : Nat) : Int) + ((n.log2 - 52 : Nat) : Int) + 52).toNat =
        n.log2 - 52 + 52 := by omega
    rw [hexponent, Nat.pow_add, ← Nat.mul_assoc]
    rfl
  · -- Zeros are put behind the digits.
    have hsplit : 2 ^ n.log2 * 2 ^ (52 - n.log2) = 2 ^ 52 := by
      rw [← Nat.pow_add, Nat.add_sub_cancel' hshort]
    have hlow : 2 ^ 52 ≤ n * 2 ^ (52 - n.log2) :=
      hsplit ▸ Nat.mul_le_mul_right _ hself
    have hhigh : n * 2 ^ (52 - n.log2) < 2 ^ 53 := by
      calc n * 2 ^ (52 - n.log2) < 2 ^ (n.log2 + 1) * 2 ^ (52 - n.log2) :=
            Nat.mul_lt_mul_of_pos_right hdouble (Nat.two_pow_pos _)
        _ = 2 ^ 53 := by rw [Nat.pow_succ, Nat.mul_right_comm, hsplit, ← Nat.pow_succ]
    have hexact : roundedQuotient (n * 2 ^ (52 - n.log2)) (2 ^ 0) = n * 2 ^ (52 - n.log2) := by
      rw [Nat.pow_zero, roundedQuotient_of_dvd one_pos (one_dvd _), Nat.div_one]
    have hlog' := log2_of_normal hlow hhigh
    have hexponent : (-((52 - n.log2 : Nat) : Int) + ((0 : Nat) : Int) + 52).toNat = n.log2 := by
      omega
    refine roundWithAccuracy_equals (k := 0) (by omega) (by omega) (by omega) ?_ ?_ ?_
    · rwa [hexact]
    · rw [hexact]
      exact hhigh.le
    · have hfits : n ≤ 2 ^ 53 := (Nat.le_mul_of_pos_right n (Nat.two_pow_pos _)).trans hhigh.le
      rw [hexact, hexponent, nearest_of_le hfits, Nat.mul_assoc, Nat.mul_comm (2 ^ (52 - n.log2)),
        hsplit]

end

/-- The unpacked float of an integer is the integer that is nearest to it. -/
theorem ofInt_equals {n : Int} (h : n.natAbs.log2 ≤ 970) :
    Equals (UnpackedFloat.ofInt .binary64 n) (nearestInt n) := by
  unfold UnpackedFloat.ofInt UnpackedFloat.normalize nearestInt
  rcases lt_trichotomy n 0 with hneg | rfl | hpos
  · have hround := round_equals .negative (n := n.natAbs) (by omega) h
    have habs : (-n).toNat = n.natAbs := by omega
    rw [Int.compare_eq_lt.2 hneg, if_pos hneg, habs]
    exact hround
  · exact .zero .positive
  · have hround := round_equals .positive (n := n.natAbs) (by omega) h
    have habs : n.toNat = n.natAbs := by omega
    rw [Int.compare_eq_gt.2 hpos, if_neg (by omega), habs]
    exact hround

theorem unpackSign_packComponents (s : Sign) (e : BitVec 11) (m : BitVec 52) :
    Sign.ofBitVec (unpackSign (packComponents .binary64 s e m)) = s := by
  have hbit : unpackSign (packComponents .binary64 s e m) = s.toBitVec := by
    unfold unpackSign packComponents BitVec.extractLsb
    rw [BitVec.extractLsb'_append_eq_of_le (by decide),
      BitVec.extractLsb'_append_eq_of_le (by decide)]
    cases s <;> rfl
  rw [hbit]
  cases s <;> rfl

theorem unpack_of_zero {b : BitVec Format.binary64.numBits}
    (hexponent : unpackExponent b = 0#11) (hmantissa : unpackMantissa b = 0#52) :
    UnpackedFloat.unpack .binary64 b = .zero (Sign.ofBitVec (unpackSign b)) := by
  unfold UnpackedFloat.unpack
  dsimp only
  rw [if_neg (by rw [hexponent]; decide), if_pos hexponent, dif_pos hmantissa]

/-- Unpacking gives a float in normal form if the exponent is neither of the special ones. -/
theorem unpack_of_normal {b : BitVec Format.binary64.numBits}
    (hfinite : unpackExponent b ≠ -1#11) (hnormal : unpackExponent b ≠ 0#11)
    (hpos : 0 < (1#1 ++ unpackMantissa b).toNat) :
    UnpackedFloat.unpack .binary64 b =
      .finite (Sign.ofBitVec (unpackSign b)) (1#1 ++ unpackMantissa b).toNat
        ((unpackExponent b).toNat - (Format.binary64.exponentBias + (52 : Nat))) hpos := by
  unfold UnpackedFloat.unpack
  dsimp only
  rw [if_neg hfinite, if_neg hnormal]

/-- The digits of a mantissa in normal form, without the first one, which is always there. -/
theorem toNat_one_append {m : Nat} (hlow : 2 ^ 52 ≤ m) (hhigh : m < 2 ^ 53) :
    (1#1 ++ BitVec.ofNat 52 m).toNat = m := by
  have hone : (1#1).toNat = 1 := rfl
  have hrest : (BitVec.ofNat 52 m).toNat = m % 2 ^ 52 := BitVec.toNat_ofNat m 52
  rw [BitVec.toNat_append, ← Nat.shiftLeft_add_eq_or_of_lt (BitVec.ofNat 52 m).isLt, hone, hrest,
    Nat.shiftLeft_eq]
  omega

theorem toNat_exponent {k : Nat} (hlt : k < 2047) : (BitVec.ofNat 11 k).toNat = k := by
  rw [BitVec.toNat_ofNat]
  exact Nat.mod_eq_of_lt (by omega)

/-- An exponent between the special ones is neither of them. -/
theorem exponent_ne_special {k : Nat} (hpos : 0 < k) (hlt : k < 2047) :
    BitVec.ofNat 11 k ≠ -1#11 ∧ BitVec.ofNat 11 k ≠ 0#11 := by
  have htoNat := toNat_exponent hlt
  have hall : (-1#11 : BitVec 11).toNat = 2047 := by decide
  have hzero : (0#11 : BitVec 11).toNat = 0 := rfl
  constructor <;> intro heq <;> have hvalue := congrArg BitVec.toNat heq <;> omega

theorem pack_of_normal {s : Sign} {m : Nat} {e : Int} {hm : 0 < m} (hlog : m.log2 = 52)
    (he : e ≤ 971) : UnpackedFloat.pack .binary64 (.finite s m e hm) =
      packComponents .binary64 s (BitVec.ofNat 11 (e + 1075).toNat) (BitVec.ofNat 52 m) := by
  have hbiased : (e + Format.binary64.exponentBias + (52 : Nat)).toNat = (e + 1075).toNat := by
    have hbias : (Format.binary64.exponentBias : Int) = 1023 := rfl
    omega
  have hbits : 52 + 1 = Format.binary64.mantissaBits := rfl
  change (if 2 ^ 11 ≤ (e + Format.binary64.exponentBias + (52 : Nat)).toNat + 1 then _
    else if m.log2 + 1 = Format.binary64.mantissaBits then _ else _) = _
  rw [hbiased, hlog, if_neg (by omega), if_pos hbits]

/-- Packing a float in normal form loses nothing. -/
theorem Equals.unpack_pack {u : UnpackedFloat} {n : Int} (h : Equals u n) :
    UnpackedFloat.unpack .binary64 (UnpackedFloat.pack .binary64 u) = u := by
  cases h with
  | zero s =>
    have hunpack : UnpackedFloat.unpack .binary64 (packComponents .binary64 s 0 0) = _ :=
      unpack_of_zero unpackExponent_packComponents unpackMantissa_packComponents
    rw [unpackSign_packComponents] at hunpack
    exact hunpack
  | @finite s m n e hm hlow hhigh hexponent _ =>
    obtain ⟨hsmall, hlarge⟩ := hexponent
    obtain ⟨hfinite, hnormal⟩ := exponent_ne_special (k := (e + 1075).toNat) (by omega) (by omega)
    have hpos : 0 < (1#1 ++ BitVec.ofNat 52 m).toNat := by
      rw [toNat_one_append hlow hhigh]
      exact hm
    rw [pack_of_normal (log2_of_normal hlow hhigh) hlarge,
      unpack_of_normal (by rwa [unpackExponent_packComponents])
        (by rwa [unpackExponent_packComponents]) (by rwa [unpackMantissa_packComponents]),
      UnpackedFloat.finite.injEq, unpackSign_packComponents, unpackMantissa_packComponents,
      unpackExponent_packComponents]
    refine ⟨rfl, toNat_one_append hlow hhigh, ?_⟩
    have hbias : (Format.binary64.exponentBias : Int) = 1023 := rfl
    rw [toNat_exponent (by omega)]
    omega

section
variable {m m' n n' : Nat} {e e' : Int}

theorem pos_of_normal (hlow : 2 ^ 52 ≤ m) (hvalue : n * 2 ^ 52 = m * 2 ^ e.toNat) : 0 < n := by
  have hpos : 0 < m * 2 ^ e.toNat := Nat.mul_pos (by omega) (Nat.two_pow_pos _)
  omega

/-- A normal form with a higher exponent is larger. -/
theorem lt_of_exponent_lt (hhigh : m < 2 ^ 53) (hlow' : 2 ^ 52 ≤ m') (he : -52 ≤ e) (h : e < e')
    (hvalue : n * 2 ^ 52 = m * 2 ^ (e + 52).toNat)
    (hvalue' : n' * 2 ^ 52 = m' * 2 ^ (e' + 52).toNat) : n < n' := by
  have hdouble : 2 ^ (e + 52).toNat * 2 ≤ 2 ^ (e' + 52).toNat := by
    rw [← Nat.pow_succ]
    exact Nat.pow_le_pow_right (by decide) (by omega)
  refine Nat.lt_of_mul_lt_mul_right (a := 2 ^ 52) ?_
  calc n * 2 ^ 52 = m * 2 ^ (e + 52).toNat := hvalue
    _ < 2 ^ 53 * 2 ^ (e + 52).toNat := Nat.mul_lt_mul_of_pos_right hhigh (Nat.two_pow_pos _)
    _ = 2 ^ 52 * (2 ^ (e + 52).toNat * 2) := by omega
    _ ≤ 2 ^ 52 * 2 ^ (e' + 52).toNat := Nat.mul_le_mul_left _ hdouble
    _ ≤ m' * 2 ^ (e' + 52).toNat := Nat.mul_le_mul_right _ hlow'
    _ = n' * 2 ^ 52 := hvalue'.symm

/-- Of two normal forms with one exponent that with the larger mantissa is larger. -/
theorem compare_mantissas {d : Nat} (hvalue : n * 2 ^ 52 = m * 2 ^ d)
    (hvalue' : n' * 2 ^ 52 = m' * 2 ^ d) : compare m m' = compare (n : Int) n' := by
  have hscale := Nat.two_pow_pos d
  rcases lt_trichotomy m m' with hlt | rfl | hgt
  · have hmul := Nat.mul_lt_mul_of_pos_right hlt hscale
    rw [Nat.compare_eq_lt.2 hlt, Int.compare_eq_lt.2 (by omega)]
  · rw [Nat.compare_eq_eq.2 rfl, Int.compare_eq_eq.2 (by omega)]
  · have hmul := Nat.mul_lt_mul_of_pos_right hgt hscale
    rw [Nat.compare_eq_gt.2 hgt, Int.compare_eq_gt.2 (by omega)]

/-- Magnitudes in normal form are compared by their exponents first. -/
theorem compare_magnitudes (hlow : 2 ^ 52 ≤ m) (hhigh : m < 2 ^ 53) (hlow' : 2 ^ 52 ≤ m')
    (hhigh' : m' < 2 ^ 53) (he : -52 ≤ e) (he' : -52 ≤ e')
    (hvalue : n * 2 ^ 52 = m * 2 ^ (e + 52).toNat)
    (hvalue' : n' * 2 ^ 52 = m' * 2 ^ (e' + 52).toNat) :
    (compare e e').then (compare m m') = compare (n : Int) n' := by
  rcases lt_trichotomy e e' with hlt | rfl | hgt
  · have hless := lt_of_exponent_lt hhigh hlow' he hlt hvalue hvalue'
    rw [Int.compare_eq_lt.2 hlt, Int.compare_eq_lt.2 (Int.ofNat_lt.2 hless)]
    rfl
  · rw [Int.compare_eq_eq.2 rfl]
    exact compare_mantissas hvalue hvalue'
  · have hmore := lt_of_exponent_lt hhigh' hlow he' hgt hvalue' hvalue
    rw [Int.compare_eq_gt.2 hgt, Int.compare_eq_gt.2 (Int.ofNat_lt.2 hmore)]
    rfl

end

theorem swap_compare (a b : Int) : (compare a b).swap = compare (-a) (-b) := by
  rcases lt_trichotomy a b with hlt | rfl | hgt
  · rw [Int.compare_eq_lt.2 hlt, Int.compare_eq_gt.2 (by omega)]
    rfl
  · rw [Int.compare_eq_eq.2 rfl, Int.compare_eq_eq.2 rfl]
    rfl
  · rw [Int.compare_eq_gt.2 hgt, Int.compare_eq_lt.2 (by omega)]
    rfl

/-- Floats in normal form are compared as the integers that they are. -/
theorem Equals.compare {u v : UnpackedFloat} {a b : Int} (hu : Equals u a) (hv : Equals v b) :
    u.compare v = some (compare a b) := by
  cases hu with
  | zero s =>
    cases hv with
    | zero => rfl
    | @finite s' m' n' e' hm' hlow' hhigh' hexponent' hvalue' =>
      have hpos := pos_of_normal hlow' hvalue'
      cases s' with
      | positive => exact congrArg some (Int.compare_eq_lt.2 (Int.natCast_pos.2 hpos)).symm
      | negative =>
        exact congrArg some (Int.compare_eq_gt.2 (Int.neg_neg_of_pos (Int.natCast_pos.2 hpos))).symm
  | @finite s m n e hm hlow hhigh hexponent hvalue =>
    have hpos := pos_of_normal hlow hvalue
    cases hv with
    | zero =>
      cases s with
      | positive => exact congrArg some (Int.compare_eq_gt.2 (Int.natCast_pos.2 hpos)).symm
      | negative =>
        exact congrArg some (Int.compare_eq_lt.2 (Int.neg_neg_of_pos (Int.natCast_pos.2 hpos))).symm
    | @finite s' m' n' e' hm' hlow' hhigh' hexponent' hvalue' =>
      -- The magnitudes count only if the signs are the same.
      have hpos' := pos_of_normal hlow' hvalue'
      have hcompare := compare_magnitudes hlow hhigh hlow' hhigh' hexponent.1 hexponent'.1 hvalue
        hvalue'
      cases s with
      | positive =>
        cases s' with
        | positive => exact congrArg some hcompare
        | negative =>
          have hgt : -(n' : Int) < n := by omega
          exact congrArg some (Int.compare_eq_gt.2 hgt).symm
      | negative =>
        cases s' with
        | positive =>
          have hlt : -(n : Int) < n' := by omega
          exact congrArg some (Int.compare_eq_lt.2 hlt).symm
        | negative =>
          rw [Sign.apply, Sign.apply, ← swap_compare, ← hcompare]
          rfl

/-- The float of an integer is in normal form. -/
theorem toFloat_equals (n : Int64) : Equals (toFloat n).toModel.unpack (nearestInt n.toInt) := by
  have hlog : n.toInt.natAbs.log2 ≤ 970 := by
    have hlow := n.le_toInt
    have hhigh := n.toInt_lt
    calc n.toInt.natAbs.log2 ≤ (2 ^ 63).log2 := log2_mono (by omega)
      _ ≤ 970 := by rw [Nat.log2_two_pow]; decide
  have hequals := ofInt_equals hlog
  have hunpack : (toFloat n).toModel.unpack = UnpackedFloat.ofInt .binary64 n.toInt :=
    hequals.unpack_pack
  rw [hunpack]
  exact hequals

theorem compare_toFloat (a b : Int64) :
    (toFloat a).toModel.compare (toFloat b).toModel =
      some (compare (nearestInt a.toInt) (nearestInt b.toInt)) :=
  (toFloat_equals a).compare (toFloat_equals b)

theorem toFloat_lt (a b : Int64) :
    toFloat a < toFloat b ↔ nearestInt a.toInt < nearestInt b.toInt := by
  change decide (((toFloat a).toModel.compare (toFloat b).toModel == some .lt) = true) = true ↔ _
  rw [decide_eq_true_iff, beq_iff_eq, compare_toFloat, Option.some_inj, Int.compare_eq_lt]

theorem toFloat_beq (a b : Int64) :
    (toFloat a == toFloat b) = true ↔ nearestInt a.toInt = nearestInt b.toInt := by
  change ((toFloat a).toModel.compare (toFloat b).toModel == some .eq) = true ↔ _
  rw [beq_iff_eq, compare_toFloat, Option.some_inj, Int.compare_eq_eq]

end TextGrammar.Number
