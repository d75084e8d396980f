import TextGrammar.Proofs.Matching.Atomic
import TextGrammar.Proofs.Matching.Parsing

/-! # Matchers follow the rules of parsing

The verdict on a pattern can be read off a matcher that is started on it: what is said by rules of
the text ahead and of the frames in sight holds of the place, the stack of frames and the base of
the matcher. The nesting limit is the only thing that the rules do not speak of. -/

namespace TextGrammar.Matching

/-- The verdict that an outcome at a place stands for. -/
def Outcome.verdict (place : Place) : Outcome → Verdict
  | some c => .matched c place.rest
  | none => .failed

theorem Outcome.within_verdict (index : Nat) (place : Place) (c : Outcome) :
    (c.verdict place).within index = c.verdict place := by
  cases c <;> rfl

def TooDeep (limit : Nat) (e : RunError) : Prop := ∃ rule, e = .depthLimit rule limit

section
variable (g : Grammar) (limit : Nat)

/-- A run that is ended by an error is nested too deep, or stopped by the rules of parsing. -/
def Stops (frames : List Action.Frame) (goal : Goal) (s : State) (e : RunError) : Prop :=
  TooDeep limit e ∨ ∃ halt, e = halt.error g s.rule ∧
    Parses g frames goal s.place.rest (.stopped halt)

/-- A matcher gives the verdict on a pattern that the rules of parsing give, wherever it is
started, unless it is nested too deep. -/
structure Conforms (p : Pattern) (m : Matcher Outcome) : Prop where
  yields : ∀ ⦃s c t⦄, s.base ≤ s.frames.length → Yields m s c t →
    Parses g s.visible (.pattern p) s.place.rest (c.verdict t.place)
  faults : ∀ ⦃s e⦄, s.base ≤ s.frames.length → Faults m s e →
    Stops g limit s.visible (.pattern p) s e

/-- The fields of a sequence are matched as the rules of parsing say, whatever it yields. -/
structure ConformsFields (fields : List Field) (m : Matcher Bool) : Prop where
  all : ∀ ⦃s own outer t⦄, s.base ≤ s.frames.length → s.visible = own :: outer →
    Yields m s true t → ∃ last, t.visible = last :: outer ∧
      ∀ ending : Ending, Parses g outer (.fields own fields ending) s.place.rest
        (ending.verdict last outer t.place.rest)
  notAll : ∀ ⦃s own outer t⦄, s.base ≤ s.frames.length → s.visible = own :: outer →
    Yields m s false t → ∀ ending, Parses g outer (.fields own fields ending) s.place.rest .failed
  faults : ∀ ⦃s own outer e⦄, s.base ≤ s.frames.length → s.visible = own :: outer →
    Faults m s e → ∀ ending, Stops g limit outer (.fields own fields ending) s e

/-- What is yielded at the end of a sequence is the verdict there. -/
structure ConformsEnding (ending : Ending) (m : Matcher Outcome) : Prop where
  yields : ∀ ⦃s own outer c t⦄, s.visible = own :: outer → Yields m s c t →
    c.verdict t.place = ending.verdict own outer s.place.rest
  faults : ∀ ⦃s own outer e⦄, s.visible = own :: outer → Faults m s e →
    ∃ halt, e = halt.error g s.rule ∧ ending.verdict own outer s.place.rest = .stopped halt

end

variable {g : Grammar} {limit : Nat}

/-- A run that stops on the way to a goal stops on the goal. -/
theorem Stops.map {frames frames' : List Action.Frame} {goal goal' : Goal} {s s' : State}
    {e : RunError} (h : Stops g limit frames goal s e) (hrule : s.rule = s'.rule)
    (hgoal : ∀ halt, Parses g frames goal s.place.rest (.stopped halt) →
      Parses g frames' goal' s'.place.rest (.stopped halt)) :
    Stops g limit frames' goal' s' e := by
  rcases h with hdeep | ⟨halt, rfl, hhalt⟩
  · exact .inl hdeep
  · exact .inr ⟨halt, by rw [hrule], hgoal halt hhalt⟩

theorem matchLeaf_conforms (l : Leaf) : Conforms g limit (.leaf l) (matchLeaf l) where
  yields s c t _ h := by
    obtain ⟨x, taken, hread, rfl, rfl⟩ | ⟨rfl, rfl, hread⟩ := matchLeaf_yields h
    · exact .leaf hread
    · exact .noLeaf hread
  faults _ _ _ h := absurd h matchLeaf_faults

theorem matchLiteral_conforms (text : String) :
    Conforms g limit (.literal text) (matchLiteral text) where
  yields s c t _ h := by
    obtain ⟨rfl, rfl, hfront⟩ | ⟨rfl, rfl, hfront⟩ := matchLiteral_yields h
    · obtain ⟨left, hleft⟩ := List.isPrefixOf_iff_prefix.1 hfront
      apply Parses.literal
      change s.place.rest = text.toList ++ s.place.rest.drop text.toList.length
      rw [← hleft, List.drop_left]
    · apply Parses.noLiteral
      rwa [← List.isPrefixOf_iff_prefix]
  faults _ _ _ h := absurd h matchLiteral_faults

section
variable {p : Pattern} {body : Matcher Outcome}

/-- There is a round left wherever a repetition comes to, since each round but the last takes a
character. -/
theorem repeatUpTo_parses (hbody : Conforms g limit p body) (hatomic : Atomic body) {rounds : Nat}
    {s t : State} {items : List Capture} (hs : s.base ≤ s.frames.length)
    (hrounds : s.place.rest.length < rounds) (h : Yields (repeatUpTo body rounds) s items t) :
    Parses g s.visible (.pattern (.repetition p)) s.place.rest
      (.matched (.list items) t.place.rest) := by
  induction rounds generalizing s items with
  | zero => omega
  | succ rounds ih =>
    obtain ⟨c, u, rest, hc, hlt, hrest, rfl⟩ | ⟨c, hc, hlt, rfl⟩ | ⟨u, hc, rfl, rfl⟩ :=
      repeatUpTo_yields h
    · have hresumes := (hatomic hc).1
      have hshorter := hresumes.ahead.length_lt hlt
      have hnext := ih (hresumes.base_le hs) (by omega) hrest
      rw [hresumes.visible] at hnext
      exact .round (hbody.yields hs hc) (hresumes.ahead.rest_ne hlt) hnext
    · have hfirst := hbody.yields hs hc
      have hsame := (hatomic hc).1.ahead.rest_eq (Nat.le_of_not_lt hlt)
      simp only [Outcome.verdict, hsame] at hfirst ⊢
      exact .idleRound hfirst
    · exact .noRound (hbody.yields hs hc)

theorem repeatUpTo_stops (hbody : Conforms g limit p body) (hatomic : Atomic body) {rounds : Nat}
    {s : State} {e : RunError} (hs : s.base ≤ s.frames.length)
    (h : Faults (repeatUpTo body rounds) s e) :
    Stops g limit s.visible (.pattern (.repetition p)) s e := by
  induction rounds generalizing s with
  | zero => exact absurd h faults_pure
  | succ rounds ih =>
    obtain hp | ⟨c, u, hc, hlt, hrest⟩ := repeatUpTo_faults h
    · exact (hbody.faults hs hp).map rfl fun _ => .stoppedRound
    · have hresumes := (hatomic hc).1
      have hnext := ih (hresumes.base_le hs) hrest
      rw [hresumes.visible] at hnext
      exact hnext.map hresumes.rule fun _ =>
        .roundStopped (hbody.yields hs hc) (hresumes.ahead.rest_ne hlt)

theorem repeatGreedily_conforms (hbody : Conforms g limit p body) (hatomic : Atomic body) :
    Conforms g limit (.repetition p) (repeatGreedily body) where
  yields s c t hs h := by
    obtain ⟨items, hitems, rfl⟩ := repeatGreedily_yields h
    exact repeatUpTo_parses hbody hatomic hs (Nat.lt_succ_self _) hitems
  faults _ _ hs h := repeatUpTo_stops hbody hatomic hs (repeatGreedily_faults h)

theorem lookAhead_conforms (hbody : Conforms g limit p body) :
    Conforms g limit (.negation p) (lookAhead body) where
  yields s c t hs h := by
    obtain ⟨found, u, hfound, ⟨rfl, hsome, rfl⟩ | ⟨rfl, rfl, rfl⟩⟩ := lookAhead_yields h
    · obtain ⟨x, rfl⟩ := Option.isSome_iff_exists.1 hsome
      exact .noNegation (hbody.yields hs hfound)
    · exact .negation (hbody.yields hs hfound)
  faults _ _ hs h := (hbody.faults hs (lookAhead_faults h)).map rfl fun _ => .stoppedNegation

end

theorem yieldRecord_conforms (fields : List Field) :
    ConformsEnding g (.record (fields.filterMap Prod.fst)) (yieldRecord fields) where
  yields s own outer c t hs h := by
    obtain ⟨rfl, rfl⟩ := yieldRecord_yields.1 h
    obtain ⟨below, hframes⟩ := frames_of_visible hs
    rw [hframes]
    rfl
  faults _ _ _ _ _ h := absurd h yieldRecord_faults

theorem yieldValue_conforms (locals : Nat) (body : Expr) :
    ConformsEnding g (.value locals body) (yieldValue g locals body) where
  yields s own outer c t hs h := by
    obtain ⟨v, hv, rfl, rfl⟩ := yieldValue_yields h
    rw [hs] at hv
    simp only [Ending.verdict, hv]
    rfl
  faults s own outer e hs h := by
    obtain ⟨fault, hfault, rfl⟩ := yieldValue_faults h
    rw [hs] at hfault
    exact ⟨.action none fault, rfl, by simp only [Ending.verdict, hfault]⟩

/-- A sequence is what its fields and its ending make of it. -/
theorem inFrame_conforms {slots : Nat} {fields : List Field} {ending : Ending} {q : Pattern}
    {m : Matcher Bool} {yielded : Matcher Outcome} (hfields : ConformsFields g limit fields m)
    (hfollows : ∀ ⦃s all t⦄, Yields m s all t → t.Follows s)
    (hending : ConformsEnding g ending yielded)
    (hq : ∀ ⦃frames text v⦄, Parses g frames (.fields (List.replicate slots none) fields ending)
      text v → Parses g frames (.pattern q) text v) :
    Conforms g limit q (inFrame slots m yielded) where
  yields s c u hs h := by
    have hopened := visible_opened hs slots
    have hbase : (s.opened slots).base ≤ (s.opened slots).frames.length := Nat.le_succ_of_le hs
    obtain ⟨t, t', ht, hc, rfl⟩ | ⟨t, ht, rfl, rfl⟩ := inFrame_yields h
    · obtain ⟨last, hlast, hparses⟩ := hfields.all hbase hopened ht
      have hverdict := hq (hparses ending)
      rw [← hending.yields hlast hc] at hverdict
      exact hverdict
    · exact hq (hfields.notAll hbase hopened ht ending)
  faults s e hs h := by
    have hopened := visible_opened hs slots
    have hbase : (s.opened slots).base ≤ (s.opened slots).frames.length := Nat.le_succ_of_le hs
    obtain hm | ⟨t, ht, hyield⟩ := inFrame_faults h
    · exact (hfields.faults hbase hopened hm ending).map rfl fun _ hstopped => hq hstopped
    · obtain ⟨last, hlast, hparses⟩ := hfields.all hbase hopened ht
      obtain ⟨halt, rfl, hhalt⟩ := hending.faults hlast hyield
      have hrule : t.rule = s.rule := (hfollows ht).rule
      have hverdict := hq (hparses ending)
      rw [hhalt] at hverdict
      exact .inr ⟨halt, by rw [hrule], hverdict⟩

section
variable {call : Nat → Matcher Outcome}

theorem matchFields_nil_conforms : ConformsFields g limit [] (matchFields g call []) where
  all s own outer t _ hvisible h := by
    obtain ⟨-, rfl⟩ := yields_pure.1 h
    exact ⟨own, hvisible, fun _ => .done⟩
  notAll s own outer t _ _ h := by
    obtain ⟨hall, -⟩ := yields_pure.1 h
    cases hall
  faults _ _ _ _ _ _ h := absurd h faults_pure

/-- The fields behind one that has matched see the captures of those before it, and its own. -/
theorem matchFields_cons_conforms {b : Option Binding} {p : Pattern} {rest : List Field}
    (hp : Conforms g limit p (matchPattern g call p)) (hatomic : Atomic (matchPattern g call p))
    (hrest : ConformsFields g limit rest (matchFields g call rest)) :
    ConformsFields g limit ((b, p) :: rest) (matchFields g call ((b, p) :: rest)) := by
  have hnext : ∀ {s own outer c u}, s.base ≤ s.frames.length → s.visible = own :: outer →
      Yields (matchPattern g call p) s (some c) u →
      (u.keep b c).base ≤ (u.keep b c).frames.length ∧
        (u.keep b c).visible = keepIn own b c :: outer ∧ (u.keep b c).rule = s.rule := by
    intro s own outer c u hs hvisible hc
    have hresumes := (hatomic hc).1
    refine ⟨base_le_keep (hresumes.base_le hs) b c, ?_, ?_⟩
    · exact visible_keep (hresumes.visible.trans hvisible) b c
    · rw [(u.keep_follows b c).rule, hresumes.rule]
  constructor
  · intro s own outer t hs hvisible h
    obtain ⟨c, u, hc, hlater⟩ | ⟨-, hall⟩ := matchFields_yields h
    · obtain ⟨hbase, hkept, -⟩ := hnext hs hvisible hc
      obtain ⟨last, hlast, hparses⟩ := hrest.all hbase hkept hlater
      have hfirst := hp.yields hs hc
      rw [hvisible] at hfirst
      rw [State.keep_place] at hparses
      exact ⟨last, hlast, fun ending => .field hfirst (hparses ending)⟩
    · cases hall
  · intro s own outer t hs hvisible h ending
    obtain ⟨c, u, hc, hlater⟩ | ⟨hnone, -⟩ := matchFields_yields h
    · obtain ⟨hbase, hkept, -⟩ := hnext hs hvisible hc
      have hfirst := hp.yields hs hc
      have hparses := hrest.notAll hbase hkept hlater ending
      rw [hvisible] at hfirst
      rw [State.keep_place] at hparses
      exact .field hfirst hparses
    · have hfirst := hp.yields hs hnone
      rw [hvisible] at hfirst
      exact .noField hfirst nofun
  · intro s own outer e hs hvisible h ending
    obtain hfault | ⟨c, u, hc, hlater⟩ := matchFields_faults h
    · have hstops := hp.faults hs hfault
      rw [hvisible] at hstops
      exact hstops.map rfl fun _ hstopped => .noField hstopped nofun
    · obtain ⟨hbase, hkept, hrule⟩ := hnext hs hvisible hc
      have hfirst := hp.yields hs hc
      rw [hvisible] at hfirst
      refine (hrest.faults hbase hkept hlater ending).map hrule fun halt hstopped => ?_
      rw [State.keep_place] at hstopped
      exact .field hfirst hstopped

theorem matchFirst_nil_conforms : Conforms g limit (.choice []) (matchFirst g call []) where
  yields s c t _ h := by
    obtain ⟨rfl, rfl⟩ := yields_pure.1 h
    exact .noAlternative
  faults _ _ _ h := absurd h faults_pure

/-- An alternative behind one that has failed is tried in the same place, with the same frames. -/
theorem matchFirst_cons_conforms {p : Pattern} {rest : List Pattern}
    (hp : Conforms g limit p (matchPattern g call p)) (hatomic : Atomic (matchPattern g call p))
    (hrest : Conforms g limit (.choice rest) (matchFirst g call rest)) :
    Conforms g limit (.choice (p :: rest)) (matchFirst g call (p :: rest)) := by
  have hback : ∀ {s u}, Yields (matchPattern g call p) s none u →
      ({ u with place := s.place } : State).Resumes s := fun hnone => (hatomic hnone).1.rewind _
  constructor
  · intro s c t hs h
    obtain ⟨hsome, hc⟩ | ⟨u, hnone, hlater⟩ := matchFirst_yields h
    · obtain ⟨x, rfl⟩ := Option.isSome_iff_exists.1 hsome
      exact .alternative (hp.yields hs hc) nofun
    · have hparses := hrest.yields ((hback hnone).base_le hs) hlater
      rw [(hback hnone).visible] at hparses
      exact .nextAlternative (hp.yields hs hnone) hparses
  · intro s e hs h
    obtain hfault | ⟨u, hnone, hlater⟩ := matchFirst_faults h
    · exact (hp.faults hs hfault).map rfl fun _ hstopped => .alternative hstopped nofun
    · have hstops := hrest.faults ((hback hnone).base_le hs) hlater
      rw [(hback hnone).visible] at hstops
      exact hstops.map (hback hnone).rule fun _ => .nextAlternative (hp.yields hs hnone)

mutual

theorem matchPattern_conforms (hatomic : ∀ index, Atomic (call index))
    (hcall : ∀ index newName, Conforms g limit (.rule index newName) (call index)) :
    ∀ p : Pattern, Conforms g limit p (matchPattern g call p)
  | .leaf l => matchLeaf_conforms l
  | .literal text => matchLiteral_conforms text
  | .sequence _ fields =>
    inFrame_conforms (matchFields_conforms hatomic hcall fields)
      (matchFields_follows hatomic fields) (yieldRecord_conforms fields) fun _ _ _ => .sequence
  | .action _ fields locals body =>
    inFrame_conforms (matchFields_conforms hatomic hcall fields)
      (matchFields_follows hatomic fields) (yieldValue_conforms locals body) fun _ _ _ => .action
  | .repetition body =>
    repeatGreedily_conforms (matchPattern_conforms hatomic hcall body)
      (matchPattern_atomic hatomic body)
  | .choice alternatives => matchFirst_conforms hatomic hcall alternatives
  | .negation body => lookAhead_conforms (matchPattern_conforms hatomic hcall body)
  | .rule index newName => hcall index newName

theorem matchFields_conforms (hatomic : ∀ index, Atomic (call index))
    (hcall : ∀ index newName, Conforms g limit (.rule index newName) (call index)) :
    ∀ fields : List (Option Binding × Pattern),
      ConformsFields g limit fields (matchFields g call fields)
  | [] => matchFields_nil_conforms
  | (_, p) :: rest =>
    matchFields_cons_conforms (matchPattern_conforms hatomic hcall p)
      (matchPattern_atomic hatomic p) (matchFields_conforms hatomic hcall rest)

theorem matchFirst_conforms (hatomic : ∀ index, Atomic (call index))
    (hcall : ∀ index newName, Conforms g limit (.rule index newName) (call index)) :
    ∀ ps : List Pattern, Conforms g limit (.choice ps) (matchFirst g call ps)
  | [] => matchFirst_nil_conforms
  | p :: rest =>
    matchFirst_cons_conforms (matchPattern_conforms hatomic hcall p)
      (matchPattern_atomic hatomic p) (matchFirst_conforms hatomic hcall rest)

end

end

/-- A rule is called as the rules of parsing say, whatever frames there are around the call. -/
theorem callWithin_parses (g : Grammar) (limit levels index : Nat) (newName : Option String)
    (frames : List Action.Frame) :
    (∀ ⦃s c t⦄, Yields (callWithin g limit levels index) s c t →
      Parses g frames (.pattern (.rule index newName)) s.place.rest (c.verdict t.place)) ∧
    ∀ ⦃s e⦄, Faults (callWithin g limit levels index) s e →
      Stops g limit frames (.pattern (.rule index newName)) s e := by
  induction levels generalizing index newName frames with
  | zero =>
    constructor
    · intro s c t h
      obtain ⟨r, left, -, hlevels, -⟩ := callWithin_yields h
      cases hlevels
    · intro s e h
      obtain ⟨hr, rfl⟩ | ⟨r, hr, -, rfl⟩ | ⟨_, _, -, hlevels, -⟩ := callWithin_faults h
      · exact .inr ⟨.unknownRule index, rfl, .noRule hr⟩
      · exact .inl ⟨r.name, rfl⟩
      · cases hlevels
  | succ levels ih =>
    have hbody : ∀ p, Conforms g limit p (matchPattern g (callWithin g limit levels) p) :=
      matchPattern_conforms (callWithin_atomic g limit levels) fun index newName =>
        ⟨fun _ _ _ _ h => (ih index newName _).1 h, fun _ _ _ h => (ih index newName _).2 h⟩
    constructor
    · intro s c u h
      obtain ⟨r, left, hr, hlevels, t, ht, rfl⟩ := callWithin_yields h
      cases hlevels
      have hparses := (hbody r.body).yields (Nat.le_refl s.frames.length) ht
      rw [visible_entered] at hparses
      rw [← Outcome.within_verdict index]
      exact .rule hr hparses
    · intro s e h
      obtain ⟨hr, rfl⟩ | ⟨_, -, hlevels, -⟩ | ⟨r, left, hr, hlevels, hfault⟩ := callWithin_faults h
      · exact .inr ⟨.unknownRule index, rfl, .noRule hr⟩
      · cases hlevels
      · cases hlevels
        have hstops := (hbody r.body).faults (Nat.le_refl s.frames.length) hfault
        rw [visible_entered] at hstops
        rcases hstops with hdeep | ⟨halt, rfl, hhalt⟩
        · exact .inl hdeep
        · exact .inr ⟨halt.within index, (halt.error_within g index s.rule).symm, .rule hr hhalt⟩

/-- A pattern is matched as the rules of parsing say. -/
theorem matchWithin_conforms (g : Grammar) (limit levels : Nat) (p : Pattern) :
    Conforms g limit p (matchPattern g (callWithin g limit levels) p) :=
  matchPattern_conforms (callWithin_atomic g limit levels)
    (fun index newName => ⟨fun _ _ _ _ h => (callWithin_parses g limit levels index newName _).1 h,
      fun _ _ _ h => (callWithin_parses g limit levels index newName _).2 h⟩) p

end TextGrammar.Matching
