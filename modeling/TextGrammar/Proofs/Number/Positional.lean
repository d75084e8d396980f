import TextGrammar.Number.Layout
import TextGrammar.Proofs.Display.Literals
import TextGrammar.Proofs.Display.Writing
import TextGrammar.Proofs.Number.Magnitude

/-! # Floats without an exponent

The text of a float that is zero, or neither below `10 ^ -4` nor from `10 ^ 16` on, is digits, a
point and digits. No such number is rounded up to `10 ^ 16`, since that is a multiple of the
spacing of the floats below it. -/

namespace TextGrammar.Number

/-- A finite float is zero, or from `10 ^ -4` on and below `10 ^ 16` in magnitude. -/
def Parts.IsModerate : Parts → Prop
  | .finite _ m q => m = 0 ∨ (10 : ℚ) ^ (-4 : Int) ≤ m * 2 ^ q ∧ (m * 2 ^ q : ℚ) < 10 ^ 16
  | _ => False

theorem Parts.fraction_large {bits m : Nat} {negative : Bool} {q : Int}
    (h : Parts.ofBits bits = .finite negative m q) : q = -1074 ∨ 2 ^ 52 ≤ m := by
  unfold ofBits at h
  dsimp only at h
  split at h
  · split at h <;> cases h
  · split at h
    · cases h
      exact .inl rfl
    · cases h
      exact .inr (Nat.le_add_right _ _)

theorem quarter_step (n : Nat) (q : Int) :
    ((n * Nat.pow 2 (q - 2).toNat : Nat) : ℚ) / (Nat.pow 2 (2 - q).toNat : Nat) =
      n / 4 * 2 ^ q := by
  have htwo : (2 : ℚ) ≠ 0 := by norm_num
  have hscale := pow_toNat htwo (q - 2)
  rw [neg_sub] at hscale
  have hpos : (0 : ℚ) < 2 ^ (2 - q).toNat := by positivity
  have hquarter : (2 : ℚ) ^ q = 2 ^ (q - 2) * 4 := by
    rw [zpow_sub₀ htwo]
    norm_num
  rw [Nat.pow_eq, Nat.pow_eq]
  push_cast
  rw [← hscale, hquarter, ← mul_assoc, mul_div_assoc, div_self hpos.ne']
  ring

theorem ofParts_exact (m : Nat) (q : Int) : (Band.ofParts m q).exact = m * 2 ^ q := by
  have hstep := quarter_step (4 * m) q
  rw [Band.exact, Band.ofParts]
  refine hstep.trans ?_
  push_cast
  ring

theorem ofParts_upper (m : Nat) (q : Int) :
    (Band.ofParts m q).upper = m * 2 ^ q + 2 ^ q / 2 := by
  have hstep := quarter_step (4 * m + 2) q
  rw [Band.upper, Band.ofParts]
  refine hstep.trans ?_
  push_cast
  ring

/-- The spacing of the floats below `10 ^ 16` divides it, so nothing reads back to one of them
that is not below it as well. -/
theorem upper_lt {m : Nat} {q : Int} (hq : q = -1074 ∨ 2 ^ 52 ≤ m)
    (hlt : (m * 2 ^ q : ℚ) < 10 ^ 16) : (Band.ofParts m q).upper < 10 ^ 16 := by
  have hpos : (0 : ℚ) < 2 ^ q := zpow_pos (by norm_num) q
  have hsmall : q ≤ 16 := by
    rcases hq with rfl | hm
    · decide
    · by_contra hlarge
      have hspacing : (2 : ℚ) ^ (17 : Int) ≤ 2 ^ q := zpow_le_zpow_right₀ (by norm_num) (by omega)
      have hm' : (2 : ℚ) ^ 52 ≤ m := by exact_mod_cast hm
      have hmul := mul_le_mul hm' hspacing (by positivity) (by positivity)
      norm_num at hmul
      linarith
  obtain ⟨n, hn⟩ : ∃ n : Nat, (16 : Int) = n + q := ⟨(16 - q).toNat, by omega⟩
  have hmultiple : (10 : ℚ) ^ 16 = (5 ^ 16 * 2 ^ n : Nat) * 2 ^ q := by
    have hpow : (2 : ℚ) ^ (16 : Int) = 2 ^ n * 2 ^ q := by
      rw [hn, zpow_add₀ (by norm_num), zpow_natCast]
    push_cast
    rw [mul_assoc, ← hpow]
    norm_num
  rw [hmultiple] at hlt ⊢
  rw [ofParts_upper]
  have hcount : m < 5 ^ 16 * 2 ^ n := by exact_mod_cast lt_of_mul_lt_mul_right hlt hpos.le
  have hnext : (m + 1 : ℚ) ≤ (5 ^ 16 * 2 ^ n : Nat) := by exact_mod_cast hcount
  calc (m * 2 ^ q + 2 ^ q / 2 : ℚ) < (m + 1) * 2 ^ q := by linarith
    _ ≤ (5 ^ 16 * 2 ^ n : Nat) * 2 ^ q := mul_le_mul_of_nonneg_right hnext hpos.le

/-- The shortest decimal of a moderate float has its point near its first digit. -/
theorem shortest_positional {m : Nat} {q : Int} (hm : 0 < m) (hq : q = -1074 ∨ 2 ^ 52 ≤ m)
    (hge : (10 : ℚ) ^ (-4 : Int) ≤ m * 2 ^ q) (hlt : (m * 2 ^ q : ℚ) < 10 ^ 16) :
    valueLayout.positional ((shortest .up m q).places - 1) = true := by
  have hten : (1 : ℚ) < 10 := by norm_num
  have hvalue : 0 < (Band.ofParts m q).value :=
    Nat.mul_pos (by omega) (Nat.pow_pos (by decide))
  have hden : 0 < (Band.ofParts m q).denominator := Nat.pow_pos (by decide)
  obtain ⟨-, hmagnitude⟩ := Band.magnitude_spec hvalue hden
  obtain ⟨hlower, hupper, hpos⟩ := shortest_spec .up (q := q) hm
  obtain ⟨hfirst, hplaces⟩ := Decimal.places_spec hpos
  rw [ofParts_exact] at hmagnitude
  have hleast := (zpow_lt_zpow_iff_right₀ hten).1 (hge.trans_lt hmagnitude)
  have hleading := (zpow_lt_zpow_iff_right₀ hten).1 (hlower.trans_lt hplaces)
  have hmost : (10 : ℚ) ^ ((shortest .up m q).places - 1) < 10 ^ (16 : Int) :=
    (hfirst.trans hupper).trans_lt (upper_lt hq hlt)
  have hmost' := (zpow_lt_zpow_iff_right₀ hten).1 hmost
  simp only [valueLayout, Bool.and_eq_true, decide_eq_true_eq]
  omega

theorem Decimal.text_positional {layout : Layout} {d : Decimal}
    (h : layout.positional (d.places - 1) = true) :
    d.text layout = withPoint layout (Nat.toDigits 10 d.digits) d.places :=
  if_pos h

theorem all_isDigit_zeros (n : Nat) : (List.replicate n '0').all Char.isDigit = true := by
  induction n with
  | zero => rfl
  | succ n ih => exact ih

theorem IsDecimal.signed {text whole fraction : List Char} (h : IsDecimal text false whole fraction)
    (negative : Bool) :
    IsDecimal ((if negative = true then ['-'] else []) ++ text) negative whole fraction :=
  { h with text_eq := congrArg _ h.text_eq }

/-- Digits are written with digits in front of the point and behind it. -/
theorem withPoint_isDecimal {digits : List Char} (hne : digits ≠ [])
    (hdigits : digits.all Char.isDigit = true) (places : Int) :
    ∃ whole fraction, IsDecimal (withPoint valueLayout digits places) false whole fraction := by
  unfold withPoint
  split
  · refine ⟨['0'], List.replicate (-places).toNat '0' ++ digits, by simp, rfl, by simp [hne], ?_,
      rfl⟩
    rw [List.all_append, all_isDigit_zeros, hdigits]
    rfl
  · split
    · refine ⟨digits ++ List.replicate (places.toNat - digits.length) '0', ['0'], by simp [hne], ?_,
        by simp, rfl, by simp [valueLayout]⟩
      rw [List.all_append, all_isDigit_zeros, hdigits]
      rfl
    · rename_i hplaces hlength
      have hall : ∀ c ∈ digits, c.isDigit = true := List.all_eq_true.1 hdigits
      refine ⟨digits.take places.toNat, digits.drop places.toNat, ?_, ?_, ?_, ?_, rfl⟩
      · rw [← List.length_pos_iff, List.length_take]
        omega
      · exact List.all_eq_true.2 fun c hc => hall c (List.mem_of_mem_take hc)
      · rw [← List.length_pos_iff, List.length_drop]
        omega
      · exact List.all_eq_true.2 fun c hc => hall c (List.mem_of_mem_drop hc)

/-- The text of a moderate float is digits, a point and digits. -/
theorem isDecimal_of_moderate {x : Float} (h : (parts x).IsModerate) :
    ∃ negative whole fraction, IsDecimal (valueLayout.text x).toList negative whole fraction := by
  rw [Layout.text, String.toList_ofList]
  cases hparts : parts x with
  | nan =>
    rw [hparts] at h
    cases h
  | infinite negative =>
    rw [hparts] at h
    cases h
  | finite negative m q =>
    rw [hparts] at h
    have hmagnitude : ∃ whole fraction, IsDecimal (if m = 0 then withPoint valueLayout ['0'] 1
        else (shortest .up m q).text valueLayout) false whole fraction := by
      split
      · exact withPoint_isDecimal (by simp) rfl 1
      · rename_i hm
        rcases h with hzero | ⟨hge, hlt⟩
        · exact absurd hzero hm
        · have hpositional := shortest_positional (Nat.pos_of_ne_zero hm)
            (Parts.fraction_large hparts) hge hlt
          rw [Decimal.text_positional hpositional]
          exact withPoint_isDecimal Nat.toDigits_ne_nil (toDigits_all_isDigit _) _
    obtain ⟨whole, fraction, hdecimal⟩ := hmagnitude
    exact ⟨negative, whole, fraction, hdecimal.signed negative⟩

end TextGrammar.Number
