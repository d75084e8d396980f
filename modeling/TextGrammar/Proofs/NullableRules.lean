import TextGrammar.Proofs.Compile.Clean
import TextGrammar.Proofs.Compile.LeftRecursion
import TextGrammar.Proofs.Matching.Consumption
import TextGrammar.Proofs.Matching.Reach

/-! # Nullable rules

The nullable rules of a table are the least set of rules that is closed under being nullable by the
rules in it. A pattern that matches without consuming is nullable by them, so a repetition that no
warning is logged for goes on until its body fails. -/

namespace TextGrammar

namespace Pattern

mutual

/-- The bodies of the repetitions in a pattern, outer before inner. -/
def repetitions : Pattern → List Pattern
  | .repetition body => body :: repetitions body
  | .sequence _ fields | .action _ fields _ _ => repetitionsOfFields fields
  | .choice alternatives => repetitionsOfAll alternatives
  | .negation body => repetitions body
  | .leaf _ | .literal _ | .rule _ _ => []

def repetitionsOfFields : List (Option Binding × Pattern) → List Pattern
  | [] => []
  | (_, p) :: rest => repetitions p ++ repetitionsOfFields rest

def repetitionsOfAll : List Pattern → List Pattern
  | [] => []
  | p :: ps => repetitions p ++ repetitionsOfAll ps

end

end Pattern

namespace Compile
open Pattern (repetitions repetitionsOfFields repetitionsOfAll)

mutual

/-- A warning is due for the repetitions of which the body is nullable, and for no other. -/
theorem emptyRepetitions_eq (known : List Nat) :
    ∀ p : Pattern, emptyRepetitions known p = (repetitions p).filter (isNullable known)
  | .leaf _ => rfl
  | .literal _ => rfl
  | .sequence _ fields => emptyRepetitionsOfFields_eq known fields
  | .action _ fields _ _ => emptyRepetitionsOfFields_eq known fields
  | .repetition body => by
    rw [emptyRepetitions, repetitions, emptyRepetitions_eq known body, List.filter_cons]
    split <;> rfl
  | .choice alternatives => emptyRepetitionsOfAll_eq known alternatives
  | .negation body => emptyRepetitions_eq known body
  | .rule _ _ => rfl

theorem emptyRepetitionsOfFields_eq (known : List Nat) :
    ∀ fields : List (Option Binding × Pattern),
      emptyRepetitionsOfFields known fields =
        (repetitionsOfFields fields).filter (isNullable known)
  | [] => rfl
  | (_, p) :: rest => by
    simp only [emptyRepetitionsOfFields, repetitionsOfFields, List.filter_append,
      emptyRepetitions_eq known p, emptyRepetitionsOfFields_eq known rest]

theorem emptyRepetitionsOfAll_eq (known : List Nat) :
    ∀ ps : List Pattern,
      emptyRepetitionsOfAll known ps = (repetitionsOfAll ps).filter (isNullable known)
  | [] => rfl
  | p :: ps => by
    simp only [emptyRepetitionsOfAll, repetitionsOfAll, List.filter_append,
      emptyRepetitions_eq known p, emptyRepetitionsOfAll_eq known ps]

end

theorem mem_emptyRepetitions {known : List Nat} {p body : Pattern} :
    body ∈ emptyRepetitions known p ↔ body ∈ repetitions p ∧ isNullable known body = true := by
  rw [emptyRepetitions_eq, List.mem_filter]

/-- The events for the repetitions in a table are among those that compiling it logs. -/
theorem repetitionEvents_subset {source : String} {g : Grammar} (h : compile source = .ok g) :
    repetitionEvents g.rules (nullableRules g.rules) ⊆ (compileLogged source).2 := by
  obtain ⟨file, hfile, hcompiles⟩ := compile_eq_ok.1 h
  have hknown : (analyse file).result.2 = nullableRules g.rules := by
    change nullableRules (lower file).result.rules = _
    rw [(clean_iff.1 hcompiles.lowered).1]
  have hgrammar : grammar? (analyse file) = some g := by
    have hok : (compileFile source.toList file).1 = .ok g := compileFile_eq_ok.2 hcompiles
    unfold compileFile at hok
    cases hfound : grammar? (analyse file) with
    | none => simp [hfound] at hok
    | some found => simpa [hfound] using hok
  intro e he
  simp [compileLogged, hfile, compileFile, hgrammar, hknown, he]

/-- A repetition with a nullable body is warned of. -/
theorem emptyRepetition_logged {source : String} {g : Grammar} (h : compile source = .ok g)
    {r : Rule} (hr : r ∈ g.rules) {body : Pattern}
    (hbody : body ∈ emptyRepetitions (nullableRules g.rules) r.body) :
    .emptyRepetition r.name ∈ (compileLogged source).2 := by
  apply repetitionEvents_subset h
  exact List.mem_flatMap.2 ⟨r, hr, List.mem_map.2 ⟨body, hbody, rfl⟩⟩

end Compile

namespace Matching

/-- What the last round of a repetition does: it fails, or it consumes nothing. -/
inductive LastRound where
  | fails
  | idles

/-- The rounds of a repetition from a state on: what they capture, the state behind them, and what
the last of them does. -/
inductive Rounds (body : Matcher Outcome) :
    State → List Capture → State → LastRound → Prop
  | fails {s t : State} (h : Yields body s none t) :
    Rounds body s [] { t with place := s.place } .fails
  | idles {s t : State} {c : Capture} (h : Yields body s (some c) t)
    (hplace : t.place.offset = s.place.offset) : Rounds body s [] t .idles
  | next {s t u : State} {c : Capture} {items : List Capture} {last : LastRound}
    (h : Yields body s (some c) t) (hplace : s.place.offset < t.place.offset)
    (hrest : Rounds body t items u last) : Rounds body s (c :: items) u last

section
variable {body : Matcher Outcome} {s t : State}

/-- No more rounds are asked for than there are: a round that is followed by another one takes a
character. -/
theorem rounds_of_repeatUpTo (hatomic : Atomic body) {count : Nat} {items : List Capture}
    (hcount : s.place.rest.length < count) (h : Yields (repeatUpTo body count) s items t) :
    ∃ last, Rounds body s items t last := by
  induction count generalizing s items with
  | zero => omega
  | succ count ih =>
    obtain ⟨c, u, rest, hc, hlt, hrest, rfl⟩ | ⟨c, hc, hlt, rfl⟩ | ⟨u, hc, rfl, rfl⟩ :=
      repeatUpTo_yields h
    · have hshorter := (hatomic hc).1.ahead.length_lt hlt
      obtain ⟨last, hlast⟩ := ih (by omega) hrest
      exact ⟨last, .next hc hlt hlast⟩
    · have hle := (hatomic hc).1.ahead.offset_le
      exact ⟨.idles, .idles hc (by omega)⟩
    · exact ⟨.fails, .fails hc⟩

theorem rounds_of_repeatGreedily (hatomic : Atomic body) {c : Outcome}
    (h : Yields (repeatGreedily body) s c t) :
    ∃ items last, c = some (.list items) ∧ Rounds body s items t last := by
  obtain ⟨items, hitems, rfl⟩ := repeatGreedily_yields h
  obtain ⟨last, hlast⟩ := rounds_of_repeatUpTo hatomic (Nat.lt_succ_self _) hitems
  exact ⟨items, last, rfl, hlast⟩

/-- A repetition that ends with a round that consumes nothing has a body that can match so. -/
theorem Rounds.exists_idle {items : List Capture} (h : Rounds body s items t .idles) :
    ∃ u c v, Yields body u (some c) v ∧ v.place.offset = u.place.offset := by
  generalize hlast : LastRound.idles = last at h
  induction h with
  | fails => cases hlast
  | idles h hplace => exact ⟨_, _, _, h, hplace⟩
  | next _ _ _ ih => exact ih hlast

end

section
variable {g : Grammar} {limit levels : Nat} {p : Pattern} {s t : State}

/-- A pattern that matches without consuming is nullable. -/
theorem isNullable_of_still {c : Capture} (h : Yields (matchWithin g limit levels p) s (some c) t)
    (hplace : t.place.offset = s.place.offset) :
    Compile.isNullable (Compile.nullableRules g.rules) p = true := by
  have hatomic := callWithin_atomic g limit levels
  have hidle := callWithin_idle limit (Compile.nullableRules_closed g.rules) levels
  refine matchPattern_idle hatomic hidle p h ?_
  exact congrArg Text.byteLength ((matchPattern_atomic hatomic p h).1.ahead.rest_eq hplace.le)

/-- A repetition that matches has gone through some rounds, up to one that fails or idles. -/
theorem rounds_of_repetition {c : Outcome}
    (h : Yields (matchWithin g limit levels (.repetition p)) s c t) :
    ∃ items last, c = some (.list items) ∧
      Rounds (matchWithin g limit levels p) s items t last :=
  rounds_of_repeatGreedily (matchPattern_atomic (callWithin_atomic g limit levels) p) h

theorem isNullable_of_rounds {items : List Capture}
    (h : Rounds (matchWithin g limit levels p) s items t .idles) :
    Compile.isNullable (Compile.nullableRules g.rules) p = true := by
  obtain ⟨u, c, v, hyields, hplace⟩ := h.exists_idle
  exact isNullable_of_still hyields hplace

end

end Matching

open Compile (Closed nullableRules roundOver isNullable entered entered_spec emptyRepetitions
  mem_emptyRepetitions emptyRepetition_logged)
open Matching (matchWithin Rounds)

/-- The rounds over a table end with the first one that finds nothing, which is not later than
there are rules, and their result is the least set of rules that is closed under being nullable.
What is said of a pattern while the rules that it enters are collected is whether it is nullable.
The matcher matches nothing but nullable patterns without consuming, in whatever state it is. So
a repetition ends with a round that fails unless its body is one that is warned of. -/
theorem nullable_rules_least (rules : List Rule) :
    (∃ n ≤ rules.length,
      IsLeast {m | Function.IsFixedPt (roundOver rules) ((roundOver rules)^[m] [])} n ∧
      nullableRules rules = (roundOver rules)^[n] []) ∧
    (Closed rules (nullableRules rules) ∧ (∀ i ∈ nullableRules rules, i < rules.length) ∧
      ∀ known, Closed rules known → nullableRules rules ⊆ known) ∧
    (∀ p found, (entered (nullableRules rules) p found).1 = isNullable (nullableRules rules) p) ∧
    ∀ g : Grammar, g.rules = rules →
      (∀ limit levels p s c t, Matching.Yields (matchWithin g limit levels p) s (some c) t →
        t.place.offset = s.place.offset → isNullable (nullableRules rules) p = true) ∧
      (∀ r ∈ rules, ∀ body ∈ r.body.repetitions,
        body ∉ emptyRepetitions (nullableRules rules) r.body →
        ∀ limit levels s c t,
          Matching.Yields (matchWithin g limit levels (.repetition body)) s c t →
          (∃ items, c = some (.list items) ∧
            Rounds (matchWithin g limit levels body) s items t .fails) ∧
          ∀ items u, ¬Rounds (matchWithin g limit levels body) s items u .idles) ∧
      ∀ source, compile source = .ok g → ∀ r ∈ rules,
        ∀ body ∈ emptyRepetitions (nullableRules rules) r.body,
          .emptyRepetition r.name ∈ (compileLogged source).2 := by
  refine ⟨Compile.nullableRules_eq_iterate rules, ⟨Compile.nullableRules_closed rules,
    fun _ => Compile.lt_length_of_mem_nullableRules, fun _ => Compile.nullableRules_subset⟩,
    fun p found => (entered_spec p found).1, ?_⟩
  rintro g rfl
  refine ⟨fun _ _ _ _ _ _ => Matching.isNullable_of_still, ?_,
    fun _ hsource _ hr _ => emptyRepetition_logged hsource hr⟩
  intro r _ body hbody hunwarned limit levels s c t h
  have hnever : ∀ items u, ¬Rounds (matchWithin g limit levels body) s items u .idles :=
    fun _ _ hidle => hunwarned
      (mem_emptyRepetitions.2 ⟨hbody, Matching.isNullable_of_rounds hidle⟩)
  obtain ⟨items, last, hc, hrounds⟩ := Matching.rounds_of_repetition h
  cases last with
  | fails => exact ⟨⟨items, hc, hrounds⟩, hnever⟩
  | idles => exact absurd hrounds (hnever items t)

def letterAndBlank : Pattern := .sequence 0 [(none, .literal "y"), (none, .rule 0 none)]

/-- A grammar whose first rule is nullable by the second one, which is found after it. -/
def blankGrammar : Grammar :=
  ⟨[⟨"blank", .sequence 0 [(none, .rule 1 none), (none, .literal "")]⟩,
    ⟨"end", .choice [.literal " ", .negation (.literal "x")]⟩,
    ⟨"letters", .repetition letterAndBlank⟩], 2, by decide⟩

theorem nullable_rules_least_letters :
    nullableRules blankGrammar.rules = [0, 2, 1] ∧
    letterAndBlank ∉ emptyRepetitions (nullableRules blankGrammar.rules)
      (.repetition letterAndBlank) ∧
    ∃ first second t, Rounds (matchWithin blankGrammar 4 3 letterAndBlank)
      (.start "yy z".toList 2) [first, second] t .fails ∧ t.place.offset = 3 := by
  have hunwarned : letterAndBlank ∉ emptyRepetitions (nullableRules blankGrammar.rules)
      (.repetition letterAndBlank) := List.not_mem_nil
  have hruns : ∃ first second t,
      Matching.Yields (matchWithin blankGrammar 4 3 (.repetition letterAndBlank))
        (.start "yy z".toList 2) (some (.list [first, second])) t ∧ t.place.offset = 3 :=
    ⟨_, _, _, rfl, rfl⟩
  obtain ⟨first, second, t, hyields, hoffset⟩ := hruns
  obtain ⟨-, -, -, hgrammar⟩ := nullable_rules_least blankGrammar.rules
  obtain ⟨⟨items, hitems, hrounds⟩, -⟩ := (hgrammar blankGrammar rfl).2.1
    ⟨"letters", .repetition letterAndBlank⟩ (by simp [blankGrammar]) letterAndBlank
    List.mem_cons_self hunwarned 4 3 _ _ t hyields
  cases hitems
  exact ⟨by decide, hunwarned, first, second, t, hrounds, hoffset⟩

end TextGrammar
