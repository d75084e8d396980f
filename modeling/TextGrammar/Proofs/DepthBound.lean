import TextGrammar.Proofs.Compile.Clean
import TextGrammar.Proofs.Compile.LeftRecursion
import TextGrammar.Proofs.Matching.Consumption
import TextGrammar.Proofs.Matching.Outcome
import TextGrammar.Proofs.Matching.Reach

/-! # How deep rules nest

Without left recursion a rule that calls another one has consumed input, or is of a higher rank.
Input and rank are both bounded, and so is the number of rules that are open at a time. -/

namespace TextGrammar
open Matching (State Stage Leads Reaches Task ComesTo matchWithin callWithin_atomic
  callWithin_comesTo matchPattern_atomic matchPattern_idle callWithin_idle)
open Compile (Enters EntersFields EntersAny isNullable nullableRules enteredFrom mem_enteredFrom
  rank rank_lt rank_lt_rank cycles nullableRules_closed)

namespace Matching

section
variable (g : Grammar) (limit total : Nat)

/-- A rule is open that came here with `bytes` left of the input: it is not nested too deep for
the input and the rank it has, and where it has consumed nothing it may enter what is entered
next. -/
def Open (levels : Nat) (next : Nat → Prop) (s : State) : Prop :=
  s.depth + levels = limit ∧ s.rule < g.rules.length ∧
    ∃ bytes, s.left ≤ bytes ∧
      s.depth + g.rules.length * bytes + rank g.rules (nullableRules g.rules) s.rule ≤ total ∧
      (s.left = bytes → ∀ j, next j → j ∈ enteredFrom g.rules (nullableRules g.rules) s.rule)

/-- A stage is not nested too deep. -/
def Shallow : Stage → Prop
  | (.call levels index, s) =>
    s.depth + levels = limit ∧ s.depth ≤ total ∧
      (index < g.rules.length →
        s.depth + 1 + g.rules.length * s.left + rank g.rules (nullableRules g.rules) index ≤ total)
  | (.pattern levels p, s) => Open g limit total levels (Enters (nullableRules g.rules) · p) s
  | (.fields levels rest _, s) =>
    Open g limit total levels (EntersFields (nullableRules g.rules) · rest) s
  | (.first levels ps, s) => Open g limit total levels (EntersAny (nullableRules g.rules) · ps) s
  | (.rounds levels p _, s) => Open g limit total levels (Enters (nullableRules g.rules) · p) s
  | (.evaluation _ _, s) => s.depth ≤ total

end

section
variable {g : Grammar} {limit total levels : Nat} {next later : Nat → Prop} {s t : State}

theorem Open.depth_le (h : Open g limit total levels next s) : s.depth ≤ total := by
  obtain ⟨-, -, bytes, -, hdepth, -⟩ := h
  omega

/-- Going on to a part, or past a part that consumed nothing. -/
theorem Open.advance (h : Open g limit total levels next s) (hrule : t.rule = s.rule)
    (hdepth : t.depth = s.depth) (hle : t.left ≤ s.left)
    (hnext : t.left = s.left → ∀ j, later j → next j) : Open g limit total levels later t := by
  obtain ⟨hlevels, hlt, bytes, hbytes, hbound, hedges⟩ := h
  refine ⟨hdepth ▸ hlevels, hrule ▸ hlt, bytes, hle.trans hbytes, ?_, fun heq j hj => ?_⟩
  · rw [hdepth, hrule]
    exact hbound
  · have hsame : t.left = s.left := by omega
    rw [hrule]
    exact hedges (by omega) j (hnext hsame j hj)

theorem Open.part (h : Open g limit total levels next s) (hnext : ∀ j, later j → next j) :
    Open g limit total levels later s :=
  h.advance rfl rfl (Nat.le_refl _) fun _ => hnext

/-- Calling a rule that may be entered, or after something was consumed. -/
theorem Open.call (hcycles : cycles g.rules (nullableRules g.rules) = []) {index : Nat}
    (h : Open g limit total levels (index = ·) s) :
    Shallow g limit total (.call levels index, s) := by
  have hdepth := h.depth_le
  obtain ⟨hlevels, -, bytes, hbytes, hbound, hedges⟩ := h
  refine ⟨hlevels, hdepth, fun hindex => ?_⟩
  rcases Nat.lt_or_eq_of_le hbytes with hlt | heq
  · have hrank := rank_lt hcycles hindex
    have hmul : g.rules.length * s.left + g.rules.length ≤ g.rules.length * bytes := by
      rw [← Nat.mul_succ]
      exact Nat.mul_le_mul_left _ hlt
    omega
  · have hrank := rank_lt_rank hcycles hindex (hedges heq index rfl)
    rw [heq]
    omega

theorem Leads.shallow (hcycles : cycles g.rules (nullableRules g.rules) = []) {a b : Stage}
    (h : Leads g limit a b) (ha : Shallow g limit total a) : Shallow g limit total b := by
  have hatomic := callWithin_atomic g limit
  have hidle := callWithin_idle limit (nullableRules_closed g.rules)
  cases h with
  | @body levels index r s hr =>
    obtain ⟨hlevels, -, hbound⟩ := ha
    have hindex := (List.getElem?_eq_some_iff.1 hr).1
    have hbound' := hbound hindex
    refine ⟨?_, hindex, s.left, Nat.le_refl _, hbound', fun _ j hj => ?_⟩
    · simp only [State.entered]
      omega
    · exact mem_enteredFrom.2 ⟨r, hr, hj⟩
  | sequence => exact Open.advance ha rfl rfl (Nat.le_refl _) fun _ _ h => h
  | action => exact Open.advance ha rfl rfl (Nat.le_refl _) fun _ _ h => h
  | repetition => exact ha
  | choice => exact ha
  | negation => exact ha
  | rule => exact Open.call hcycles ha
  | field => exact Open.part ha fun _ h => .inl h
  | @nextField levels b p rest action s t c hp =>
    have hresumes := (matchPattern_atomic (hatomic levels) p hp).1
    have hkeep := t.keep_follows b c
    refine Open.advance ha (hkeep.rule.trans hresumes.rule) (hkeep.depth.trans hresumes.depth)
      (by rw [left_keep]; exact hresumes.left_le) fun hleft j hj => .inr ⟨?_, hj⟩
    rw [left_keep] at hleft
    exact matchPattern_idle (hatomic levels) (hidle levels) p hp hleft
  | evaluation => exact Open.depth_le ha
  | alternative => exact Open.part ha fun _ h => .inl h
  | @nextAlternative levels p rest s t hp =>
    have hresumes := (matchPattern_atomic (hatomic levels) p hp).1
    exact Open.advance ha hresumes.rule hresumes.depth (Nat.le_refl _) fun _ _ h => .inr h
  | round => exact ha
  | @nextRound levels p count s t c hp hlt =>
    have hresumes := (matchPattern_atomic (hatomic levels) p hp).1
    exact Open.advance ha hresumes.rule hresumes.depth hresumes.left_le fun _ _ h => h

/-- No more rules are open than there are rules for each byte of the input and for its end. -/
theorem Reaches.shallow (hcycles : cycles g.rules (nullableRules g.rules) = []) {index : Nat}
    (input : List Char) {b : Stage}
    (h : Reaches g limit (.call limit index, .start input g.start) b) :
    Shallow g limit (g.rules.length * (Text.byteLength input + 1)) b := by
  refine h.keeps (fun _ _ hab ha => hab.shallow hcycles ha) ⟨Nat.zero_add _, Nat.zero_le _, ?_⟩
  intro hindex
  have hrank := rank_lt hcycles hindex
  rw [Nat.mul_succ]
  change 0 + 1 + g.rules.length * Text.byteLength input + _ ≤ _
  omega

theorem Shallow.depth_le {b : Stage} (h : Shallow g limit total b) : b.2.depth ≤ total := by
  obtain ⟨task, s⟩ := b
  cases task with
  | call => exact h.2.1
  | pattern | fields | first | rounds => exact Open.depth_le h
  | evaluation => exact h

/-- A call with room for the bound is not ended by the nesting limit. -/
theorem ComesTo.not_depthLimit (hcycles : cycles g.rules (nullableRules g.rules) = [])
    {index : Nat} {input : List Char} {rule : String} {n : Nat}
    (hlimit : g.rules.length * (Text.byteLength input + 1) ≤ limit) :
    ¬ComesTo g limit (.call limit index, .start input g.start) (.depthLimit rule n) := by
  rintro ⟨b, hb, hraises⟩
  have hshallow := hb.shallow hcycles input
  cases hraises with
  | depthLimit hr =>
    obtain ⟨hlevels, -, hbound⟩ := hshallow
    have hbound' := hbound (List.getElem?_eq_some_iff.1 hr).1
    omega

end

end Matching

/-- A grammar that compiles is never stopped by a nesting limit of as many rules as it has for
each byte of the input and for its end; and whatever the limit is, no more rules than that are
open at any point of a run. -/
theorem compile_depth_bound {source : String} {g : Grammar} (hg : compile source = .ok g) :
    (∀ (options : RunOptions) (input : String),
      g.rules.length * (Text.byteLength input.toList + 1) ≤ options.maxDepth →
      ∀ rule n, g.run options input ≠ .error (.depthLimit rule n)) ∧
    (∀ index < g.rules.length, ∀ (maxDepth : Nat) (input : String),
      g.rules.length * (Text.byteLength input.toList + 1) ≤ maxDepth →
      ∀ rule n, g.matchRule index maxDepth input ≠ .error (.depthLimit rule n)) ∧
    ∀ index < g.rules.length, ∀ (maxDepth : Nat) (input : String) (b : Stage),
      Reaches g maxDepth (.call maxDepth index, .start input.toList g.start) b →
      b.2.depth ≤ g.rules.length * (Text.byteLength input.toList + 1) := by
  obtain ⟨file, -, hcompiles⟩ := Compile.compile_eq_ok.1 hg
  have hcycles := hcompiles.acyclic
  refine ⟨?_, ?_, ?_⟩
  · intro options input hlimit rule n he
    obtain ⟨name, hname⟩ | hnoMatch | ⟨index, -, hfaults⟩ := Grammar.run_eq_error he
    · cases hname
    · cases hnoMatch
    · exact ComesTo.not_depthLimit hcycles hlimit (callWithin_comesTo hfaults)
  · intro index _ maxDepth input hlimit rule n he
    exact ComesTo.not_depthLimit hcycles hlimit
      (callWithin_comesTo (Grammar.matchRule_eq_error he))
  · intro index _ maxDepth input b hb
    exact (hb.shallow hcycles input.toList).depth_le

def nestedSource : String :=
  "meta \x7b list := [\"(\", items: repeat item, \")\"]; item := list | \"x\"; --- list \x7d"

theorem compile_depth_bound_nested : ∃ g, compile nestedSource = .ok g ∧
    ∀ (options : RunOptions) (input : String),
      g.rules.length * (Text.byteLength input.toList + 1) ≤ options.maxDepth →
      ∀ rule n, g.run options input ≠ .error (.depthLimit rule n) := by
  obtain ⟨g, hg⟩ := Compile.exists_compile_eq_ok nestedSource (by decide +kernel)
  exact ⟨g, hg, (compile_depth_bound hg).1⟩

end TextGrammar
