import TextGrammar.Proofs.Matching.Conformance
import TextGrammar.Proofs.Matching.Parallel
import TextGrammar.Proofs.Matching.Reach

/-! # Grammars are parsing expression grammars

Wherever a run comes to a pattern, what comes of it is what the rules of parsing say of the text
ahead and the captures in sight. So a run is moved with its text: what is behind a place in the
input cannot be told from there. -/

namespace TextGrammar
open Matching (Place State Outcome Halt Verdict Stage Parses TooDeep Stops exec Reaches matchWithin
  callWithin)

namespace Matching
variable {g : Grammar} {limit : Nat}

/-- A run that is started in a state ends as a verdict says: it is where it was if the pattern
fails, and behind what the pattern has taken if it matches. -/
def EndsAs (g : Grammar) (s : State) (run : Except RunError Outcome × State) : Verdict → Prop
  | .failed => run.1 = .ok none ∧ run.2.place = s.place
  | .matched c left => run.1 = .ok (some c) ∧ ∃ taken, s.place.rest = taken ++ left ∧
      run.2.place = ⟨s.place.offset + Text.byteLength taken, left⟩
  | .stopped halt => run.1 = .error (halt.error g s.rule)

/-- A matcher that starts in a state is nested too deep there. -/
def SinksAt (limit : Nat) (m : Matcher Outcome) (s : State) : Prop :=
  ∃ e, Faults m s e ∧ TooDeep limit e

/-- A matcher that follows the rules of parsing on a goal ends as the only verdict on it. -/
theorem endsAs_verdict {frames : List Action.Frame} {goal : Goal} {m : Matcher Outcome}
    (hatomic : Atomic m) {s : State}
    (hyields : ∀ ⦃c t⦄, Yields m s c t → Parses g frames goal s.place.rest (c.verdict t.place))
    (hfaults : ∀ ⦃e⦄, Faults m s e → Stops g limit frames goal s e) :
    SinksAt limit m s ∨ ∃ v, EndsAs g s (exec m s) v ∧
      ∀ w, Parses g frames goal s.place.rest w ↔ w = v := by
  have hunique : ∀ {v}, Parses g frames goal s.place.rest v →
      ∀ w, Parses g frames goal s.place.rest w ↔ w = v := by
    intro v hv w
    constructor
    · exact fun hw => hw.unique hv
    · rintro rfl
      exact hv
  rcases hrun : exec m s with ⟨e | _ | c, t⟩
  · have hfault : Faults m s e := by rw [Faults, hrun]
    rcases hfaults hfault with hdeep | ⟨halt, rfl, hhalt⟩
    · exact .inl ⟨e, hfault, hdeep⟩
    · exact .inr ⟨.stopped halt, rfl, hunique hhalt⟩
  · exact .inr ⟨.failed, ⟨rfl, (hatomic hrun).2 rfl⟩, hunique (hyields hrun)⟩
  · obtain ⟨taken, hrest, hplace⟩ := (hatomic hrun).1.ahead.eq_behind
    exact .inr ⟨.matched c t.place.rest, ⟨rfl, taken, hrest, hplace⟩, hunique (hyields hrun)⟩

/-- A called rule ends as the only verdict on it, whatever frames there are around the call. -/
theorem callWithin_endsAs (g : Grammar) (limit levels index : Nat) (s : State) :
    SinksAt limit (callWithin g limit levels index) s ∨
      ∃ v, EndsAs g s (exec (callWithin g limit levels index) s) v ∧
        ∀ w, Parses g [] (.pattern (.rule index none)) s.place.rest w ↔ w = v := by
  obtain ⟨hyields, hfaults⟩ := callWithin_parses g limit levels index none []
  exact endsAs_verdict (callWithin_atomic g limit levels index) (fun _ _ h => hyields h)
    fun _ h => hfaults h

/-- What stops a rule is told without the rule that calls it. -/
theorem Parses.error_of_rule {frames : List Action.Frame} {index : Nat} {newName : Option String}
    {text : List Char} {halt : Halt}
    (h : Parses g frames (.pattern (.rule index newName)) text (.stopped halt)) (rule rule' : Nat) :
    halt.error g rule = halt.error g rule' := by
  generalize hv : Verdict.stopped halt = v at h
  cases h with
  | @rule _ _ _ _ _ v hr hbody =>
    cases v with
    | failed => cases hv
    | matched => cases hv
    | stopped inner =>
      obtain rfl : halt = inner.within index := Verdict.stopped.inj hv
      rw [inner.error_within, inner.error_within]
  | noRule => cases hv; rfl

/-- The base of a matcher is within its frames, and every lead keeps that. -/
theorem Leads.base_le {a b : Stage} (h : Leads g limit a b)
    (ha : a.2.base ≤ a.2.frames.length) : b.2.base ≤ b.2.frames.length := by
  cases h with
  | body => exact Nat.le_refl _
  | sequence | action => exact Nat.le_succ_of_le ha
  | repetition | choice | negation | rule | field | evaluation | alternative | round => exact ha
  | @nextField levels b p _ _ _ _ c hp =>
    have hresumes := (matchPattern_atomic (callWithin_atomic g limit levels) p hp).1
    exact base_le_keep (hresumes.base_le ha) b c
  | @nextAlternative levels p _ _ t hp =>
    have hresumes := (matchPattern_atomic (callWithin_atomic g limit levels) p hp).1
    exact (hresumes.rewind t.furthest).base_le ha
  | @nextRound levels p _ _ _ _ hp _ =>
    exact (matchPattern_atomic (callWithin_atomic g limit levels) p hp).1.base_le ha

theorem Reaches.base_le {a b : Stage} (h : Reaches g limit a b)
    (ha : a.2.base ≤ a.2.frames.length) : b.2.base ≤ b.2.frames.length :=
  h.keeps (I := fun b => b.2.base ≤ b.2.frames.length) (fun _ _ hab => hab.base_le) ha

/-- Two runs end with the same result, and in front of the same text if that is no error. -/
def SameEnd (r r' : Except RunError Outcome × State) : Prop :=
  r.1 = r'.1 ∧ ∀ c, r.1 = .ok c → r.2.place.rest = r'.2.place.rest

/-- Two calls of a rule in front of one text come to the same, if they may be nested as deep or
are not nested too deep. -/
theorem callWithin_sameEnd {levels levels' index : Nat} {s t : State}
    (hrest : s.place.rest = t.place.rest)
    (hdepth : levels = levels' ∨ ¬SinksAt limit (callWithin g limit levels index) s ∧
      ¬SinksAt limit (callWithin g limit levels' index) t) :
    SameEnd (exec (callWithin g limit levels index) s)
      (exec (callWithin g limit levels' index) t) := by
  rcases hdepth with rfl | ⟨hs, ht⟩
  · have hparallel := callWithin_parallel g limit levels index hrest
    exact ⟨hparallel.result, fun _ _ => hparallel.strides.rest⟩
  obtain ⟨v, hv, hparses⟩ := (callWithin_endsAs g limit levels index s).resolve_left hs
  obtain ⟨w, hw, hparses'⟩ := (callWithin_endsAs g limit levels' index t).resolve_left ht
  -- There is one verdict on the rule in front of this text.
  rw [← hrest] at hparses'
  obtain rfl : v = w := (hparses' v).1 ((hparses v).2 rfl)
  cases v with
  | failed => exact ⟨hv.1.trans hw.1.symm, fun _ _ => by rw [hv.2, hw.2, hrest]⟩
  | matched c left =>
    obtain ⟨hresult, taken, -, hplace⟩ := hv
    obtain ⟨hresult', taken', -, hplace'⟩ := hw
    exact ⟨hresult.trans hresult'.symm, fun _ _ => by rw [hplace, hplace']⟩
  | stopped halt =>
    have herror := ((hparses _).2 rfl).error_of_rule s.rule t.rule
    rw [EndsAs, herror] at hv
    exact ⟨hv.trans hw.symm, fun c hc => nomatch hv.symm.trans hc⟩

end Matching

open Matching (EndsAs SinksAt endsAs_verdict matchWithin_conforms matchPattern_atomic
  callWithin_atomic callWithin_sameEnd)

/-- At every state that a run comes to, a pattern that is matched there ends as the one verdict
that the rules of parsing give on it, or is nested too deep. And a rule that is called behind any
`u` in front of `v` gives the same result as behind any other `u'`, and takes the same text, as long
as neither call is nested too deep, or both may be nested as deep. -/
theorem matching_parses (g : Grammar) (limit start : Nat) (input : List Char) :
    (∀ b, Reaches g limit (.call limit start, .start input g.start) b → ∀ levels p,
      SinksAt limit (matchWithin g limit levels p) b.2 ∨
      ∃ v, EndsAs g b.2 (exec (matchWithin g limit levels p) b.2) v ∧
        ∀ w, Parses g b.2.visible (.pattern p) b.2.place.rest w ↔ w = v) ∧
    ∀ levels levels' index u u' v, ∀ s t : State,
      s.place = ⟨Text.byteLength u, v⟩ → t.place = ⟨Text.byteLength u', v⟩ →
      (levels = levels' ∨ ¬SinksAt limit (callWithin g limit levels index) s ∧
        ¬SinksAt limit (callWithin g limit levels' index) t) →
      (exec (callWithin g limit levels index) s).1 =
        (exec (callWithin g limit levels' index) t).1 ∧
      ∀ c s' t', Matching.Yields (callWithin g limit levels index) s c s' →
        Matching.Yields (callWithin g limit levels' index) t c t' →
        ∃ taken left, v = taken ++ left ∧ s'.place = ⟨Text.byteLength (u ++ taken), left⟩ ∧
          t'.place = ⟨Text.byteLength (u' ++ taken), left⟩ := by
  constructor
  · intro b hb levels p
    have hconforms := matchWithin_conforms g limit levels p
    have hbase := hb.base_le (Nat.zero_le _)
    exact endsAs_verdict (matchPattern_atomic (callWithin_atomic g limit levels) p)
      (fun _ _ h => hconforms.yields hbase h) fun _ h => hconforms.faults hbase h
  · intro levels levels' index u u' v s t hs ht hdepth
    obtain ⟨hresult, hends⟩ := callWithin_sameEnd (s := s) (t := t) (by rw [hs, ht]) hdepth
    refine ⟨hresult, fun c s' t' hs' ht' => ?_⟩
    rw [hs', ht'] at hends
    obtain ⟨taken, hrest, hplace⟩ := (callWithin_atomic g limit levels index hs').1.ahead.eq_behind
    obtain ⟨taken', hrest', hplace'⟩ :=
      (callWithin_atomic g limit levels' index ht').1.ahead.eq_behind
    have hleft : s'.place.rest = t'.place.rest := hends c rfl
    rw [hs] at hrest hplace
    rw [ht] at hrest' hplace'
    rw [← hleft] at hrest' hplace'
    obtain rfl : taken = taken' := List.append_cancel_right (hrest.symm.trans hrest')
    rw [← Text.byteLength_append] at hplace hplace'
    exact ⟨taken, s'.place.rest, hrest, hplace, hplace'⟩

def letters : Pattern := .repetition (.choice [.literal "a", .literal "ab"])

def accentGrammar : Grammar :=
  ⟨[⟨"accented", .sequence 1 [(some ⟨"accent", 0⟩, .literal "é"), (none, letters)]⟩], 0, by decide⟩

def behindAccent : State :=
  ⟨⟨2, "aab".toList⟩, 0, 1, [[some (.text "é")]], 0, 0, [.entering "accented" 0]⟩

theorem matching_parses_letters :
    Reaches accentGrammar 4 (.call 4 0, .start "éaab".toList accentGrammar.start)
      (.fields 3 [(none, letters)] none, behindAccent) ∧
    Parses accentGrammar [[some (.text "é")]] (.pattern letters) "aab".toList
      (.matched (.list [.text "a", .text "a"]) "b".toList) ∧
    (exec (callWithin accentGrammar 4 4 0) (.start "éaab".toList 0)).1 =
      (exec (callWithin accentGrammar 4 4 0)
        { State.start [] 0 with place := ⟨Text.byteLength ['z'], "éaab".toList⟩ }).1 := by
  have hreach : Reaches accentGrammar 4 (.call 4 0, .start "éaab".toList accentGrammar.start)
      (.fields 3 [(none, letters)] none, behindAccent) :=
    .tail (.tail (.tail .refl (.body rfl)) .sequence)
      (.nextField (c := .text "é") (t := { behindAccent with frames := [[none]] }) rfl)
  obtain ⟨hends, hmoved⟩ := matching_parses accentGrammar 4 0 "éaab".toList
  refine ⟨hreach, ?_, (hmoved 4 4 0 [] ['z'] "éaab".toList _ _ rfl rfl (.inl rfl)).1⟩
  have hrun : exec (matchWithin accentGrammar 4 3 letters) behindAccent =
      (.ok (some (.list [.text "a", .text "a"])),
        { behindAccent with place := ⟨4, "b".toList⟩, furthest := 4 }) := rfl
  rcases hends _ hreach 3 letters with ⟨e, he, -⟩ | ⟨v, hv, hparses⟩
  · rw [Matching.Faults, hrun] at he
    cases he
  · rw [hrun] at hv
    refine (hparses _).2 ?_
    cases v with
    | failed => cases hv.1
    | matched c left =>
      obtain ⟨hc, taken, -, hplace⟩ := hv
      cases hc
      rw [(Place.mk.inj hplace).2]
    | stopped => cases hv

end TextGrammar
