import TextGrammar.Action.Arithmetic
import TextGrammar.Proofs.Number.Floating

/-! # Comparing integers

Integers are compared as floats, also two of them. So what is compared are the integers rounded to
53 bits, and distinct integers with one nearest float count as equal. Arithmetic on integers and
equality of lists are exact, and do not agree with that. -/

namespace TextGrammar
open Number (nearestInt)

def Operator.isComparison : Operator → Bool
  | .equal | .notEqual | .less | .lessEqual | .greater | .greaterEqual => true
  | .add | .sub | .mul => false

def Operator.holds (op : Operator) (a b : Int) : Bool :=
  match op with
  | .equal => a = b
  | .notEqual => a ≠ b
  | .less => a < b
  | .lessEqual => a ≤ b
  | .greater => b < a
  | .greaterEqual => b ≤ a
  | .add | .sub | .mul => false

namespace Action
variable {op : Operator} {a b : Int64}

theorem equal_int (a b : Int64) :
    equal (.int a) (.int b) = decide (nearestInt a.toInt = nearestInt b.toInt) := by
  rw [Bool.eq_iff_iff, decide_eq_true_iff]
  exact Number.toFloat_beq a b

theorem floatOrder?_int (a b : Int64) :
    floatOrder? (Number.toFloat a) (Number.toFloat b) =
      some (Ord.compare (nearestInt a.toInt) (nearestInt b.toInt)) := by
  unfold floatOrder?
  simp only [Number.toFloat_lt, Number.toFloat_beq]
  rcases lt_trichotomy (nearestInt a.toInt) (nearestInt b.toInt) with hlt | heq | hgt
  · rw [if_pos hlt, Int.compare_eq_lt.2 hlt]
  · rw [if_neg (by omega), if_neg (by omega), if_pos heq, Int.compare_eq_eq.2 heq]
  · rw [if_neg (by omega), if_pos hgt, Int.compare_eq_gt.2 hgt]

/-- An order of integers satisfies what is true of the integers. -/
theorem satisfies_compare (m n : Int) :
    satisfies .less (Ord.compare m n) = decide (m < n) ∧
      satisfies .lessEqual (Ord.compare m n) = decide (m ≤ n) ∧
      satisfies .greater (Ord.compare m n) = decide (n < m) ∧
      satisfies .greaterEqual (Ord.compare m n) = decide (n ≤ m) := by
  rcases lt_trichotomy m n with hlt | rfl | hgt
  · rw [Int.compare_eq_lt.2 hlt]
    simp [satisfies, hlt, hlt.le]
  · rw [Int.compare_eq_eq.2 rfl]
    simp [satisfies]
  · rw [Int.compare_eq_gt.2 hgt]
    simp [satisfies, hgt, hgt.le]

/-- Two integers are compared as the floats nearest to them. -/
theorem binary_int (hop : op.isComparison = true) : binary op (.int a) (.int b) =
    .ok (.bool (op.holds (nearestInt a.toInt) (nearestInt b.toInt))) := by
  have horder : ∀ op, compare op (.int a) (.int b) =
      .ok (.bool (satisfies op (Ord.compare (nearestInt a.toInt) (nearestInt b.toInt)))) := by
    intro op
    have h : order? (.int a) (.int b) = _ := floatOrder?_int a b
    rw [compare, h]
  obtain ⟨hless, hlessEqual, hgreater, hgreaterEqual⟩ :=
    satisfies_compare (nearestInt a.toInt) (nearestInt b.toInt)
  cases op with
  | add | sub | mul => cases hop
  | equal => rw [binary, equal_int, Operator.holds]
  | notEqual => rw [binary, equal_int, Operator.holds, decide_not]
  | less => rw [binary, horder, hless, Operator.holds] <;> nofun
  | lessEqual => rw [binary, horder, hlessEqual, Operator.holds] <;> nofun
  | greater => rw [binary, horder, hgreater, Operator.holds] <;> nofun
  | greaterEqual => rw [binary, horder, hgreaterEqual, Operator.holds] <;> nofun

theorem binary_int_eq_true (hop : op.isComparison = true) :
    binary op (.int a) (.int b) = .ok (.bool true) ↔
      op.holds (nearestInt a.toInt) (nearestInt b.toInt) = true := by
  rw [binary_int hop, Except.ok.injEq, Value.bool.injEq]

/-- Exactly one of less, equal and greater is true of integers. -/
theorem existsUnique_holds (m n : Int) :
    ∃! op, op ∈ [Operator.less, .equal, .greater] ∧ op.holds m n = true := by
  have hcases : ∀ op ∈ [Operator.less, .equal, .greater], op.holds m n = true ↔
      op = if m < n then .less else if m = n then .equal else .greater := by
    simp only [List.forall_mem_cons, Operator.holds, decide_eq_true_iff]
    split_ifs <;> simp <;> omega
  have hmem : (if m < n then .less else if m = n then .equal else .greater) ∈
      [Operator.less, .equal, .greater] := by
    split_ifs <;> simp
  exact ⟨_, ⟨hmem, (hcases _ hmem).2 rfl⟩, fun op hop => (hcases op hop.1).1 hop.2⟩

/-- A difference of integers that does not overflow is zero if they are equal, and only then. -/
theorem sub_int {v : Value} (h : binary .sub (.int a) (.int b) = .ok v) : v = .int 0 ↔ a = b := by
  change exact (· - ·) a b = .ok v at h
  unfold exact at h
  split at h
  · rename_i n hn
    cases h
    have hvalue := Number.toInt_of_integer? hn
    rw [Value.int.injEq, ← Int64.toInt_inj, ← Int64.toInt_inj, hvalue]
    change a.toInt - b.toInt = 0 ↔ _
    omega
  · cases h

/-- Lists of integers are compared exactly. -/
theorem equal_list_int (a b : Int64) :
    binary .equal (.list [.int a]) (.list [.int b]) = .ok (.bool (decide (a = b))) := by
  change Except.ok (Value.bool ((a == b) && true)) = _
  rw [Bool.and_true]
  rfl

/-- Integers with nearest floats that are apart are compared as they are. -/
theorem holds_nearestInt {m n : Int} (h : nearestInt m = nearestInt n → m = n) (op : Operator) :
    op.holds (nearestInt m) (nearestInt n) = op.holds m n := by
  have hsign : (nearestInt m < nearestInt n ↔ m < n) ∧ (nearestInt n < nearestInt m ↔ n < m) := by
    have hle := Number.nearestInt_mono (m := m) (n := n)
    have hge := Number.nearestInt_mono (m := n) (n := m)
    omega
  cases op <;> simp only [Operator.holds, decide_eq_decide] <;> omega

end Action

open TextGrammar.Action (binary)

/-- For all integers: the comparisons tell what is true of the floats nearest to the integers. So
they are exact if the integers are equal or their nearest floats are apart, as those of integers
up to `2 ^ 53` are; and if not, the integers count as equal. Exactly one of less, equal and greater
holds, and what is less is so exactly. A difference is zero for equal integers only, and lists of
integers are compared exactly. -/
theorem integer_comparison (a b : Int64) :
    (∀ op, op.isComparison = true → binary op (.int a) (.int b) =
      .ok (.bool (op.holds (nearestInt a.toInt) (nearestInt b.toInt)))) ∧
    ((nearestInt a.toInt = nearestInt b.toInt → a = b) → ∀ op, op.isComparison = true →
      binary op (.int a) (.int b) = .ok (.bool (op.holds a.toInt b.toInt))) ∧
    (a.toInt.natAbs ≤ 2 ^ 53 → b.toInt.natAbs ≤ 2 ^ 53 →
      nearestInt a.toInt = nearestInt b.toInt → a = b) ∧
    (∃! op, op ∈ [Operator.less, .equal, .greater] ∧
      binary op (.int a) (.int b) = .ok (.bool true)) ∧
    (binary .less (.int a) (.int b) = .ok (.bool true) → a.toInt < b.toInt) ∧
    (∀ v, binary .sub (.int a) (.int b) = .ok v → (v = .int 0 ↔ a = b)) ∧
    binary .equal (.list [.int a]) (.list [.int b]) = .ok (.bool (decide (a = b))) := by
  refine ⟨fun op hop => Action.binary_int hop, ?_, ?_, ?_, ?_, fun v => Action.sub_int,
    Action.equal_list_int a b⟩
  · intro hapart op hop
    rw [Action.binary_int hop, Action.holds_nearestInt fun h => congrArg _ (hapart h)]
  · intro ha hb h
    rw [Number.nearestInt_of_natAbs_le ha, Number.nearestInt_of_natAbs_le hb] at h
    exact Int64.toInt_inj.1 h
  · refine (existsUnique_congr fun op => and_congr_right fun hmem => ?_).2
      (Action.existsUnique_holds (nearestInt a.toInt) (nearestInt b.toInt))
    exact Action.binary_int_eq_true (by revert op; decide)
  · intro h
    have hless : nearestInt a.toInt < nearestInt b.toInt :=
      of_decide_eq_true ((Action.binary_int_eq_true rfl).1 h)
    by_contra hle
    have hmono := Number.nearestInt_mono (Int.not_lt.1 hle)
    omega

/-- Two integers above `2 ^ 53` that are floats themselves. -/
theorem integer_comparison_apart :
    (nearestInt (9007199254740994 : Int64).toInt = nearestInt (9007199254740992 : Int64).toInt →
      (9007199254740994 : Int64) = 9007199254740992) ∧
    binary .greater (.int 9007199254740994) (.int 9007199254740992) = .ok (.bool true) := by
  have hapart : nearestInt (9007199254740994 : Int64).toInt =
      nearestInt (9007199254740992 : Int64).toInt →
      (9007199254740994 : Int64) = 9007199254740992 := by decide +kernel
  exact ⟨hapart, (integer_comparison 9007199254740994 9007199254740992).2.1 hapart .greater rfl⟩

/-- Neighbours with one nearest float: they count as equal and neither of them as greater, but
their difference is one, and lists of them are not equal. -/
theorem integer_comparison_inexact :
    (9007199254740993 : Int64) ≠ 9007199254740992 ∧
      binary .equal (.int 9007199254740993) (.int 9007199254740992) = .ok (.bool true) ∧
      binary .greater (.int 9007199254740993) (.int 9007199254740992) = .ok (.bool false) ∧
      binary .sub (.int 9007199254740993) (.int 9007199254740992) = .ok (.int 1) ∧
      binary .equal (.list [.int 9007199254740993]) (.list [.int 9007199254740992]) =
        .ok (.bool false) := by
  have hsame : nearestInt (9007199254740993 : Int64).toInt =
      nearestInt (9007199254740992 : Int64).toInt := by decide +kernel
  refine ⟨by decide, ?_, ?_, rfl, Action.equal_list_int _ _⟩
  · rw [Action.binary_int rfl, hsame]
    rfl
  · rw [Action.binary_int rfl, hsame]
    rfl

end TextGrammar
