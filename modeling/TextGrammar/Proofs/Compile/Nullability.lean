import Mathlib.Dynamics.FixedPoints.Basic
import Mathlib.Order.Bounds.Defs
import TextGrammar.Compile.Nullable

/-! # The nullable rules are the least closed set

The rounds over a table stop at the first one that finds nothing, which is one of the first after
as many as there are rules. They stop at a set of rules that contains every rule whose pattern is
nullable when the rules in the set are, and every other such set contains it. -/

namespace TextGrammar.Compile

/-- A set of rules contains every rule of a table that is nullable when they are. -/
def Closed (rules : List Rule) (known : List Nat) : Prop :=
  ∀ i r, rules[i]? = some r → isNullable known r.body = true → i ∈ known

/-- What a round over the rules from a place on finds is added in front. -/
theorem suffix_sweep (index : Nat) (known : List Nat) (rules : List Rule) :
    known <:+ sweep index known rules := by
  induction rules generalizing index known with
  | nil => exact List.suffix_refl known
  | cons r rest ih =>
    unfold sweep
    split
    · exact (List.suffix_cons index known).trans (ih _ _)
    · exact ih _ _

/-- A round that finds nothing has gone past every nullable rule. -/
theorem mem_of_sweep_eq {index : Nat} {known : List Nat} {rules : List Rule}
    (h : sweep index known rules = known) {i : Nat} {r : Rule} (hr : rules[i]? = some r)
    (hnullable : isNullable known r.body = true) : index + i ∈ known := by
  induction rules generalizing index i with
  | nil => cases hr
  | cons first rest ih =>
    unfold sweep at h
    split at h
    · have hsuffix := suffix_sweep (index + 1) (index :: known) rest
      rw [h] at hsuffix
      have hlength := hsuffix.length_le
      rw [List.length_cons] at hlength
      omega
    · rename_i hfound
      cases i with
      | zero =>
        cases hr
        simpa [hnullable] using hfound
      | succ i =>
        have hmem := ih h hr
        rwa [Nat.add_right_comm] at hmem

/-- A round finds places in the table, each once. -/
theorem sweep_nodup {total index : Nat} {known : List Nat} {rules : List Rule}
    (hnodup : known.Nodup) (hlt : ∀ i ∈ known, i < total) (hend : index + rules.length ≤ total) :
    (sweep index known rules).Nodup ∧ ∀ i ∈ sweep index known rules, i < total := by
  induction rules generalizing index known with
  | nil => exact ⟨hnodup, hlt⟩
  | cons r rest ih =>
    rw [List.length_cons] at hend
    unfold sweep
    split
    · rename_i hfound
      have hnew : index ∉ known := by
        rw [Bool.and_eq_true] at hfound
        simpa using hfound.1
      refine ih (List.nodup_cons.2 ⟨hnew, hnodup⟩) ?_ (by omega)
      intro i hi
      rcases List.mem_cons.1 hi with rfl | hi
      · omega
      · exact hlt i hi
    · exact ih hnodup hlt (by omega)

theorem length_le_of_nodup {total : Nat} {known : List Nat} (hnodup : known.Nodup)
    (hlt : ∀ i ∈ known, i < total) : known.length ≤ total := by
  have hsubset : known ⊆ List.range total := fun i hi => List.mem_range.2 (hlt i hi)
  have hle := hnodup.length_le_of_subset hsubset
  rwa [List.length_range] at hle

def roundOver (rules : List Rule) (known : List Nat) : List Nat := sweep 0 known rules

theorem closed_of_roundOver_eq {rules : List Rule} {known : List Nat}
    (h : roundOver rules known = known) : Closed rules known := by
  intro i r hr hnullable
  rw [← Nat.zero_add i]
  exact mem_of_sweep_eq h hr hnullable

theorem roundOver_eq_of_length {rules : List Rule} {known : List Nat}
    (h : (roundOver rules known).length = known.length) : roundOver rules known = known :=
  ((suffix_sweep 0 known rules).eq_of_length h.symm).symm

/-- The rounds go on up to the first one that finds nothing. The measure is the number of rules
that are not found yet, since each round before that one finds a rule. -/
theorem settle_eq_iterate {rules : List Rule} {rounds : Nat} {known : List Nat}
    (hnodup : known.Nodup) (hlt : ∀ i ∈ known, i < rules.length)
    (hrounds : rules.length < known.length + rounds) :
    ∃ n, known.length + n ≤ rules.length ∧
      IsLeast {m | Function.IsFixedPt (roundOver rules) ((roundOver rules)^[m] known)} n ∧
      settle rules rounds known = (roundOver rules)^[n] known := by
  have hle := length_le_of_nodup hnodup hlt
  induction rounds generalizing known with
  | zero => omega
  | succ rounds ih =>
    by_cases hlength : (roundOver rules known).length = known.length
    · refine ⟨0, hle, ⟨roundOver_eq_of_length hlength, fun m _ => Nat.zero_le m⟩, ?_⟩
      exact if_pos hlength
    · have hgrows : known.length ≤ (roundOver rules known).length :=
        (suffix_sweep 0 known rules).length_le
      obtain ⟨hnodup', hlt'⟩ : (roundOver rules known).Nodup ∧
          ∀ i ∈ roundOver rules known, i < rules.length :=
        sweep_nodup hnodup hlt (Nat.zero_add rules.length).le
      obtain ⟨n, hn, ⟨hfixed, hleast⟩, heq⟩ :=
        ih hnodup' hlt' (by omega) (length_le_of_nodup hnodup' hlt')
      refine ⟨n + 1, by omega, ⟨hfixed, fun m hm => ?_⟩, (if_neg hlength).trans heq⟩
      cases m with
      | zero => exact absurd (congrArg List.length hm) hlength
      | succ m => exact Nat.succ_le_succ (hleast hm)

/-- The nullable rules are what the first round that finds nothing starts from. -/
theorem nullableRules_eq_iterate (rules : List Rule) :
    ∃ n ≤ rules.length,
      IsLeast {m | Function.IsFixedPt (roundOver rules) ((roundOver rules)^[m] [])} n ∧
      nullableRules rules = (roundOver rules)^[n] [] := by
  have hrounds : rules.length < ([] : List Nat).length + (rules.length + 1) := by simp
  obtain ⟨n, hn, hleast, heq⟩ := settle_eq_iterate List.nodup_nil nofun hrounds
  exact ⟨n, by simpa using hn, hleast, heq⟩

/-- The nullable rules of a table are closed. -/
theorem nullableRules_closed (rules : List Rule) : Closed rules (nullableRules rules) := by
  obtain ⟨n, -, ⟨hfixed, -⟩, heq⟩ := nullableRules_eq_iterate rules
  rw [heq]
  exact closed_of_roundOver_eq hfixed

section
variable {P : Nat → Prop} {rules : List Rule}

/-- A property of rules that a rule has whenever it is nullable by rules that have it. -/
def Inherited (P : Nat → Prop) (rules : List Rule) : Prop :=
  ∀ known, (∀ i ∈ known, P i) → ∀ i r, rules[i]? = some r → isNullable known r.body = true → P i

theorem sweep_inherits (hP : Inherited P rules) {rest : List Rule} {index : Nat} {known : List Nat}
    (hrest : rest = rules.drop index) (hknown : ∀ i ∈ known, P i) :
    ∀ i ∈ sweep index known rest, P i := by
  induction rest generalizing index known with
  | nil => exact hknown
  | cons r rest ih =>
    have hr : rules[index]? = some r := by
      rw [← List.head?_drop, ← hrest, List.head?_cons]
    have hnext : rest = rules.drop (index + 1) := by
      rw [← List.tail_drop, ← hrest, List.tail_cons]
    unfold sweep
    split
    · rename_i hfound
      rw [Bool.and_eq_true] at hfound
      exact ih hnext (List.forall_mem_cons.2 ⟨hP known hknown index r hr hfound.2, hknown⟩)
    · exact ih hnext hknown

theorem settle_inherits (hP : Inherited P rules) {rounds : Nat} {known : List Nat}
    (hknown : ∀ i ∈ known, P i) : ∀ i ∈ settle rules rounds known, P i := by
  induction rounds generalizing known with
  | zero => exact hknown
  | succ rounds ih =>
    unfold settle
    dsimp only
    split
    · exact hknown
    · exact ih (sweep_inherits hP rfl hknown)

/-- The nullable rules are those that must be: they have every property that is inherited. -/
theorem nullableRules_inherit (hP : Inherited P rules) : ∀ i ∈ nullableRules rules, P i :=
  settle_inherits hP nofun

end

mutual

/-- More rules that can match empty input make no fewer patterns do so. -/
theorem isNullable_mono {known other : List Nat} (h : known ⊆ other) :
    ∀ p : Pattern, isNullable known p = true → isNullable other p = true
  | .leaf _, hp => hp
  | .literal _, hp => hp
  | .sequence _ fields, hp => areNullable_mono h fields hp
  | .action _ fields _ _, hp => areNullable_mono h fields hp
  | .repetition _, hp => hp
  | .negation _, hp => hp
  | .choice alternatives, hp => anyNullable_mono h alternatives hp
  | .rule index _, hp => by
    simp only [isNullable, List.contains_iff_mem] at hp ⊢
    exact h hp

theorem areNullable_mono {known other : List Nat} (h : known ⊆ other) :
    ∀ fields : List (Option Binding × Pattern),
      areNullable known fields = true → areNullable other fields = true
  | [], hfields => hfields
  | (_, p) :: rest, hfields => by
    simp only [areNullable, Bool.and_eq_true] at hfields ⊢
    exact ⟨isNullable_mono h p hfields.1, areNullable_mono h rest hfields.2⟩

theorem anyNullable_mono {known other : List Nat} (h : known ⊆ other) :
    ∀ ps : List Pattern, anyNullable known ps = true → anyNullable other ps = true
  | [], hps => hps
  | p :: rest, hps => by
    simp only [anyNullable, Bool.or_eq_true] at hps ⊢
    exact hps.imp (isNullable_mono h p) (anyNullable_mono h rest)

end

theorem nullableRules_subset {rules : List Rule} {known : List Nat} (h : Closed rules known) :
    nullableRules rules ⊆ known := by
  apply nullableRules_inherit (P := (· ∈ known))
  intro found hfound i r hr hnullable
  exact h i r hr (isNullable_mono hfound r.body hnullable)

theorem lt_length_of_mem_nullableRules {rules : List Rule} {i : Nat}
    (h : i ∈ nullableRules rules) : i < rules.length := by
  refine nullableRules_inherit (P := (· < rules.length)) ?_ i h
  intro _ _ i r hr _
  exact (List.getElem?_eq_some_iff.1 hr).1

end TextGrammar.Compile
