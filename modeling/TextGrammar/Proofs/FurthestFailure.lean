import TextGrammar.Proofs.AtomicMatching
import TextGrammar.Proofs.Matching.Failures
import TextGrammar.Proofs.Matching.OpenRules
import TextGrammar.Proofs.Text.Locations

/-! # The furthest failure

An input that does not match is reported at one offset: the furthest of those where the run was
rejected, and of the one where it came to its end. What the run found when it looked ahead does not
count. -/

namespace TextGrammar
open Matching (Place State Stage rejections LeadsOn Reaches callWithin_atomic callWithin_leaves)

namespace Matching
variable {g : Grammar} {limit : Nat}

/-- A stage that is led on to is reached. -/
theorem reaches_of_leadsOn {a b : Stage} (h : Relation.ReflTransGen (LeadsOn g limit) a b) :
    Reaches g limit a b :=
  Relation.ReflTransGen.mono (r := LeadsOn g limit) (fun _ _ hlead => hlead.1) _ _ h

/-- Each rejection is at a place within the input. -/
theorem exists_within_of_mem_rejections {a : Stage} {input : List Char} {o : Nat}
    (ha : a.2.place.Within input) (h : o ∈ rejections g limit a) :
    ∃ front back, Text.cut? o input = some (front, back) := by
  obtain ⟨b, hab, -, rfl⟩ := h
  obtain ⟨front, hcut⟩ := ha.ahead (reaches_of_leadsOn hab).ahead
  exact ⟨front, b.2.place.rest, hcut⟩

/-- The furthest offset that a matcher came to, if it set out from the front. -/
theorem isGreatest_reach {t : State} {A : Set Nat} (h : IsGreatest (insert 0 A) t.furthest) :
    IsGreatest (insert t.place.offset A) t.reach := by
  constructor
  · obtain hlt | hle := Nat.lt_or_ge t.place.offset t.furthest
    · rw [State.reach, Nat.max_eq_left hlt.le]
      exact .inr (h.1.resolve_left (Nat.ne_zero_of_lt hlt))
    · exact .inl (Nat.max_eq_right hle)
  · rintro o (rfl | ho)
    · exact Nat.le_max_right _ _
    · exact (h.2 (.inr ho)).trans (Nat.le_max_left _ _)

end Matching

namespace Grammar
variable {g : Grammar}

/-- A run without a match has an outcome of its start rule, and reports the furthest offset that it
came to. -/
theorem run_eq_noMatch {options : RunOptions} {input : String} {offset : Nat}
    {location : Location} (h : g.run options input = .error (.noMatch offset location)) :
    ∃ index c t, g.startFor options = .ok index ∧
      g.callFrom options.maxDepth index input.toList = (.ok c, t) ∧ offset = t.reach ∧
      location = (LineMap.ofText input.toList).location offset := by
  cases hstart : g.startFor options with
  | error e =>
    obtain ⟨name, rfl⟩ := startFor_eq_error hstart
    rw [run, runLogged_of_startFor_error hstart] at h
    cases h
  | ok index =>
    rw [run, runLogged_of_startFor_ok hstart] at h
    rcases hcall : g.callFrom options.maxDepth index input.toList with ⟨e | c, t⟩
    · have hfault := isNoMatch_of_callFrom (congrArg Prod.fst hcall)
      rw [hcall] at h
      cases h
      cases hfault
    · rw [hcall] at h
      have hconclude : conclude input.toList c t = .error (.noMatch offset location) := h
      unfold conclude at hconclude
      split at hconclude <;> cases hconclude
      exact ⟨index, _, t, rfl, hcall, rfl, rfl⟩

end Grammar

/-- Where a run finds that its input does not match, the offset that it reports is the greatest of
the one at which its start rule ended and of those at which it was rejected, without looking ahead.
It is between two characters of the input, or at one of its ends, and the location is the one
behind what is in front of it. -/
theorem furthest_failure (g : Grammar) (options : RunOptions) (input : String) {offset : Nat}
    {location : Location} (h : g.run options input = .error (.noMatch offset location)) :
    ∃ index c t, g.startFor options = .ok index ∧
      g.callFrom options.maxDepth index input.toList = (.ok c, t) ∧
      IsGreatest (insert t.place.offset (rejections g options.maxDepth
        (.call options.maxDepth index, .start input.toList g.start))) offset ∧
      offset ≤ Text.byteLength input.toList ∧
      ∃ front back, Text.cut? offset input.toList = some (front, back) ∧
        location = LineMap.behind front := by
  obtain ⟨index, c, t, hstart, hcall, rfl, rfl⟩ := Grammar.run_eq_noMatch h
  have hgreatest := Matching.isGreatest_reach (callWithin_leaves hcall)
  have hends : t.place.Within input.toList := (Place.Within.start input.toList).ahead
    (callWithin_atomic g options.maxDepth options.maxDepth index hcall).1.ahead
  obtain ⟨front, back, hcut⟩ : ∃ front back,
      Text.cut? t.reach input.toList = some (front, back) := by
    obtain heq | hmem := hgreatest.1
    · obtain ⟨front, hcut⟩ := hends
      exact ⟨front, t.place.rest, heq ▸ hcut⟩
    · exact Matching.exists_within_of_mem_rejections (Place.Within.start input.toList) hmem
  obtain ⟨htext, hoffset⟩ := Text.cut?_eq_some.1 hcut
  refine ⟨index, c, t, hstart, hcall, hgreatest, ?_, front, back, hcut, ?_⟩
  · rw [htext, hoffset, Text.byteLength_append]
    exact Nat.le_add_right _ _
  · rw [LineMap.location_eq, htext, hoffset, Text.before_byteLength]

/-- A line feed and a letter, or another letter, where no line starts with two letters that a
negation looks for. -/
def beginnings : Pattern :=
  .sequence 0 [
    (none, .negation (.sequence 0 [(none, .literal "\nb"), (none, .literal "c")])),
    (none, .choice [.sequence 0 [(none, .literal "\n"), (none, .literal "x")], .literal "q"])]

def beginningGrammar : Grammar := ⟨[⟨"beginnings", beginnings⟩], 0, by decide⟩

/-- The run is rejected behind the line feed, and for the last alternative in front of it. That the
negation looked for a letter further on does not count. -/
theorem furthest_failure_ahead : ∃ location,
    beginningGrammar.run {} "\nbq" = .error (.noMatch 1 location) ∧ location = ⟨2, 1⟩ ∧
      IsGreatest (insert 0 (rejections beginningGrammar 256
        (.call 256 0, .start "\nbq".toList 0))) 1 := by
  have hrun : beginningGrammar.run {} "\nbq" =
      .error (.noMatch 1 ((LineMap.ofText "\nbq".toList).location 1)) := rfl
  obtain ⟨index, c, t, hstart, hcall, hgreatest, -, front, back, hcut, hlocation⟩ :=
    furthest_failure beginningGrammar {} "\nbq" hrun
  cases hstart
  have hplace : 0 = t.place.offset := congrArg (fun r => r.2.place.offset) hcall
  have hfront : Text.cut? 1 "\nbq".toList = some (['\n'], ['b', 'q']) := by decide
  cases hfront.symm.trans hcut
  rw [← hplace] at hgreatest
  exact ⟨_, hrun, hlocation, hgreatest⟩

end TextGrammar
