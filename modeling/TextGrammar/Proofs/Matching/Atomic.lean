import TextGrammar.Proofs.Matching.Execution

/-! # Matching is atomic

A pattern that is matched leaves the open frames, the base, the rule and the depth as they were,
whether it matches or fails. It only moves forward, and not at all if it fails. A sequence on the
way may write to its own frame, which is the innermost one, and to no other. -/

namespace TextGrammar.Matching

/-- A place is reached from another one by going on behind some characters. -/
def Place.Before (p q : Place) : Prop := ∃ characters, q = p.advance characters

theorem Place.advance_zero (p : Place) : p.advance 0 = p := by
  simp [Place.advance]

theorem Place.advance_advance (p : Place) (m n : Nat) :
    (p.advance m).advance n = p.advance (m + n) := by
  simp only [Place.advance, List.drop_drop, Place.mk.injEq, and_true]
  rw [List.take_add, Text.byteLength_append, Nat.add_assoc]

namespace Place.Before
variable {p q r : Place}

theorem refl (p : Place) : p.Before p := ⟨0, p.advance_zero.symm⟩

theorem trans (hpq : p.Before q) (hqr : q.Before r) : p.Before r := by
  obtain ⟨m, rfl⟩ := hpq
  obtain ⟨n, rfl⟩ := hqr
  exact ⟨m + n, p.advance_advance m n⟩

/-- What is passed by on the way from one place to another one. -/
theorem eq_behind (h : p.Before q) :
    ∃ taken, p.rest = taken ++ q.rest ∧ q = ⟨p.offset + Text.byteLength taken, q.rest⟩ := by
  obtain ⟨n, rfl⟩ := h
  exact ⟨p.rest.take n, (List.take_append_drop n p.rest).symm, rfl⟩

/-- What a place has passed by and what is left of it are the whole. -/
theorem offset_add_byteLength (h : p.Before q) :
    q.offset + Text.byteLength q.rest = p.offset + Text.byteLength p.rest := by
  obtain ⟨n, rfl⟩ := h
  have hsplit : Text.byteLength p.rest =
      Text.byteLength (p.rest.take n) + Text.byteLength (p.rest.drop n) := by
    rw [← Text.byteLength_append, List.take_append_drop]
  simp only [Place.advance]
  omega

theorem offset_le (h : p.Before q) : p.offset ≤ q.offset := by
  obtain ⟨n, rfl⟩ := h
  exact Nat.le_add_right _ _

theorem byteLength_le (h : p.Before q) :
    Text.byteLength q.rest ≤ Text.byteLength p.rest := by
  have hsum := h.offset_add_byteLength
  have hle := h.offset_le
  omega

/-- Where the offset is the same, so is what is left. -/
theorem rest_eq (h : p.Before q) (hle : q.offset ≤ p.offset) : q.rest = p.rest := by
  obtain ⟨n, rfl⟩ := h
  have hnone : Text.byteLength (p.rest.take n) = 0 := by
    simp only [advance] at hle
    omega
  rw [Text.byteLength_eq_zero] at hnone
  calc p.rest.drop n = p.rest.take n ++ p.rest.drop n := by rw [hnone, List.nil_append]
    _ = p.rest := List.take_append_drop n p.rest

theorem rest_ne (h : p.Before q) (hlt : p.offset < q.offset) : q.rest ≠ p.rest := by
  intro heq
  have hsum := h.offset_add_byteLength
  rw [heq] at hsum
  omega

theorem length_lt (h : p.Before q) (hlt : p.offset < q.offset) :
    q.rest.length < p.rest.length := by
  have hne := h.rest_ne hlt
  obtain ⟨n, rfl⟩ := h
  have hsuffix : p.rest.drop n <:+ p.rest := List.drop_suffix n p.rest
  refine Nat.lt_of_le_of_ne hsuffix.length_le fun hlength => hne ?_
  exact hsuffix.eq_of_length hlength

end Place.Before

/-- A state differs from an earlier one in its place, its furthest place, its log, and the
innermost frame at most. -/
structure State.Follows (t s : State) : Prop where
  outer : t.frames.tail = s.frames.tail
  height : t.frames.length = s.frames.length
  base : t.base = s.base
  rule : t.rule = s.rule
  depth : t.depth = s.depth
  ahead : s.place.Before t.place

structure State.Resumes (t s : State) : Prop extends t.Follows s where
  frames : t.frames = s.frames

namespace State
variable {s t u : State}

theorem Follows.refl (s : State) : s.Follows s := ⟨rfl, rfl, rfl, rfl, rfl, .refl _⟩

theorem Follows.trans (htu : u.Follows t) (hst : t.Follows s) : u.Follows s where
  outer := htu.outer.trans hst.outer
  height := htu.height.trans hst.height
  base := htu.base.trans hst.base
  rule := htu.rule.trans hst.rule
  depth := htu.depth.trans hst.depth
  ahead := hst.ahead.trans htu.ahead

theorem Follows.base_le (h : t.Follows s) (hs : s.base ≤ s.frames.length) :
    t.base ≤ t.frames.length := by
  rw [h.base, h.height]
  exact hs

theorem Resumes.of_place (s : State) {place : Place} (h : s.place.Before place) :
    ({ s with place } : State).Resumes s :=
  ⟨⟨rfl, rfl, rfl, rfl, rfl, h⟩, rfl⟩

theorem Resumes.of_furthest (s : State) (furthest : Nat) :
    ({ s with furthest } : State).Resumes s :=
  ⟨⟨rfl, rfl, rfl, rfl, rfl, .refl _⟩, rfl⟩

theorem Resumes.refl (s : State) : s.Resumes s := ⟨.refl s, rfl⟩

theorem Resumes.trans (htu : u.Resumes t) (hst : t.Resumes s) : u.Resumes s :=
  ⟨htu.toFollows.trans hst.toFollows, htu.frames.trans hst.frames⟩

/-- Going back to where the earlier state was. -/
theorem Resumes.rewind (h : t.Resumes s) (furthest : Nat) :
    ({ t with place := s.place, furthest } : State).Resumes s :=
  ⟨⟨h.outer, h.height, h.base, h.rule, h.depth, .refl _⟩, h.frames⟩

@[simp] theorem keep_place (s : State) (b : Option Binding) (c : Capture) :
    (s.keep b c).place = s.place := by
  cases b with
  | none => rfl
  | some b => cases hf : s.frames <;> simp [keep, hf]

@[simp] theorem keep_furthest (s : State) (b : Option Binding) (c : Capture) :
    (s.keep b c).furthest = s.furthest := by
  cases b with
  | none => rfl
  | some b => cases hf : s.frames <;> simp [keep, hf]

/-- Keeping a capture touches the innermost frame alone. -/
theorem keep_follows (s : State) (b : Option Binding) (c : Capture) : (s.keep b c).Follows s := by
  cases b with
  | none => exact .refl s
  | some b =>
    cases hf : s.frames with
    | nil =>
      have hkeep : s.keep (some b) c = s := by simp [keep, hf]
      rw [hkeep]
      exact .refl s
    | cons frame outer =>
      have hkeep : s.keep (some b) c =
          { s with frames := frame.set b.slot (some c) :: outer } := by
        simp [keep, hf]
      rw [hkeep]
      exact ⟨by simp [hf], by simp [hf], rfl, rfl, rfl, .refl _⟩

/-- Closing the frame that was opened last. -/
theorem Follows.closed {slots : Nat} (h : t.Follows (s.opened slots)) :
    (t.closed s.frames.length).Resumes s := by
  have hlength : t.frames.length = s.frames.length + 1 := by
    simpa [opened] using h.height
  have hframes : (t.closed s.frames.length).frames = s.frames := by
    have hone : t.frames.length - s.frames.length = 1 := by omega
    have htail := h.outer
    simp only [State.closed, hone, List.drop_one]
    exact htail
  exact ⟨⟨by rw [hframes], by rw [hframes], h.base, h.rule, h.depth, h.ahead⟩, hframes⟩

/-- Returning from a rule. -/
theorem Resumes.returned {index : Nat} {name : String} {matched : Bool}
    (h : t.Resumes (s.entered index name)) : (t.returned s name matched).Resumes s := by
  have hframes : t.frames = s.frames := h.frames
  have hdepth : t.depth = s.depth + 1 := h.depth
  exact ⟨⟨congrArg List.tail hframes, congrArg List.length hframes, rfl, rfl,
    by simp [State.returned, hdepth], h.ahead⟩, hframes⟩

end State

section
variable {s t : State}

theorem visible_opened (h : s.base ≤ s.frames.length) (slots : Nat) :
    (s.opened slots).visible = List.replicate slots none :: s.visible := by
  have hsub : s.frames.length + 1 - s.base = (s.frames.length - s.base) + 1 := by omega
  simp [State.visible, State.opened, hsub]

theorem visible_entered (s : State) (index : Nat) (name : String) :
    (s.entered index name).visible = [] := by
  simp [State.visible, State.entered]

theorem State.Resumes.visible (h : t.Resumes s) : t.visible = s.visible := by
  simp [State.visible, h.frames, h.base]

/-- A frame in which the capture of a field is kept if the field is bound. -/
def keepIn (frame : Action.Frame) : Option Binding → Capture → Action.Frame
  | some b, c => frame.set b.slot (some c)
  | none, _ => frame

@[simp] theorem length_keepIn (frame : Action.Frame) (b : Option Binding) (c : Capture) :
    (keepIn frame b c).length = frame.length := by
  cases b <;> simp [keepIn]

/-- The innermost frame in sight is the one that was opened last. -/
theorem frames_of_visible {frame : Action.Frame} {outer : List Action.Frame}
    (h : s.visible = frame :: outer) : ∃ below, s.frames = frame :: below := by
  cases hframes : s.frames with
  | nil =>
    rw [State.visible, hframes, List.take_nil] at h
    cases h
  | cons first below =>
    rw [State.visible, hframes] at h
    cases hcount : (first :: below).length - s.base with
    | zero =>
      rw [hcount] at h
      cases h
    | succ count =>
      rw [hcount, List.take_succ_cons] at h
      cases h
      exact ⟨below, rfl⟩

theorem visible_keep {frame : Action.Frame} {outer : List Action.Frame}
    (h : s.visible = frame :: outer) (b : Option Binding) (c : Capture) :
    (s.keep b c).visible = keepIn frame b c :: outer := by
  cases b with
  | none => exact h
  | some b =>
    obtain ⟨below, hframes⟩ := frames_of_visible h
    rw [State.visible, hframes, List.length_cons] at h
    cases hcount : below.length + 1 - s.base with
    | zero =>
      rw [hcount] at h
      cases h
    | succ count =>
      rw [hcount, List.take_succ_cons, List.cons.injEq] at h
      simp only [State.visible, State.keep, hframes, List.length_cons, hcount,
        List.take_succ_cons, h.2, keepIn]

theorem base_le_keep (h : s.base ≤ s.frames.length) (b : Option Binding) (c : Capture) :
    (s.keep b c).base ≤ (s.keep b c).frames.length :=
  (s.keep_follows b c).base_le h

end

/-- The matcher resumes where it was, at the same place if it failed. -/
def Atomic (m : Matcher Outcome) : Prop :=
  ∀ ⦃s : State⦄ ⦃c : Outcome⦄ ⦃t : State⦄, Yields m s c t →
    t.Resumes s ∧ (c = none → t.place = s.place)

theorem matchLeaf_atomic (l : Leaf) : Atomic (matchLeaf l) := by
  intro s c t h
  obtain ⟨x, taken, -, rfl, rfl⟩ | ⟨rfl, rfl, -⟩ := matchLeaf_yields h
  · exact ⟨.of_place s ⟨taken, rfl⟩, nofun⟩
  · exact ⟨.of_furthest s _, fun _ => rfl⟩

theorem matchLiteral_atomic (text : String) : Atomic (matchLiteral text) := by
  intro s c t h
  obtain ⟨rfl, rfl, -⟩ | ⟨rfl, rfl, -⟩ := matchLiteral_yields h
  · exact ⟨.of_place s ⟨_, rfl⟩, nofun⟩
  · exact ⟨.of_furthest s _, fun _ => rfl⟩

theorem repeatUpTo_resumes {body : Matcher Outcome} (hbody : Atomic body) (rounds : Nat)
    {s t : State} {items : List Capture} (h : Yields (repeatUpTo body rounds) s items t) :
    t.Resumes s := by
  induction rounds generalizing s items with
  | zero =>
    obtain ⟨-, rfl⟩ := yields_pure.1 h
    exact .refl s
  | succ rounds ih =>
    obtain ⟨c, u, rest, hc, -, hrest, -⟩ | ⟨c, hc, -, -⟩ | ⟨u, hc, -, rfl⟩ := repeatUpTo_yields h
    · exact (ih hrest).trans (hbody hc).1
    · exact (hbody hc).1
    · exact (hbody hc).1.rewind _

theorem lookAhead_atomic {body : Matcher Outcome} (hbody : Atomic body) :
    Atomic (lookAhead body) := by
  intro s c t h
  obtain ⟨found, u, hu, ⟨rfl, -, rfl⟩ | ⟨rfl, -, rfl⟩⟩ := lookAhead_yields h
  · exact ⟨(hbody hu).1.rewind _, fun _ => rfl⟩
  · exact ⟨(hbody hu).1.rewind _, nofun⟩

/-- What is yielded at the end of a sequence does not move the matcher. -/
def Still (m : Matcher Outcome) : Prop :=
  ∀ ⦃s : State⦄ ⦃c : Outcome⦄ ⦃t : State⦄, Yields m s c t → t = s ∧ c ≠ none

theorem yieldRecord_still (fields : List Field) : Still (yieldRecord fields) := by
  intro s c t h
  obtain ⟨rfl, rfl⟩ := yieldRecord_yields.1 h
  exact ⟨rfl, nofun⟩

theorem yieldValue_still (g : Grammar) (locals : Nat) (body : Expr) :
    Still (yieldValue g locals body) := by
  intro s c t h
  obtain ⟨v, -, rfl, rfl⟩ := yieldValue_yields h
  exact ⟨rfl, nofun⟩

theorem inFrame_atomic {slots : Nat} {fields : Matcher Bool} {yielded : Matcher Outcome}
    (hfields : ∀ ⦃s all t⦄, Yields fields s all t → t.Follows s) (hyielded : Still yielded) :
    Atomic (inFrame slots fields yielded) := by
  intro s c u h
  obtain ⟨t, t', ht, hc, rfl⟩ | ⟨t, ht, rfl, rfl⟩ := inFrame_yields h
  · obtain ⟨rfl, hsome⟩ := hyielded hc
    exact ⟨(hfields ht).closed, fun hnone => absurd hnone hsome⟩
  · exact ⟨(hfields ht).closed.rewind _, fun _ => rfl⟩

section
variable {g : Grammar} {call : Nat → Matcher Outcome}

mutual

theorem matchPattern_atomic (hcall : ∀ index, Atomic (call index)) :
    ∀ p : Pattern, Atomic (matchPattern g call p)
  | .leaf l => matchLeaf_atomic l
  | .literal text => matchLiteral_atomic text
  | .sequence _ fields =>
    inFrame_atomic (matchFields_follows hcall fields) (yieldRecord_still fields)
  | .action _ fields locals body =>
    inFrame_atomic (matchFields_follows hcall fields) (yieldValue_still g locals body)
  | .repetition body => by
    intro s c t h
    obtain ⟨items, hitems, rfl⟩ := repeatGreedily_yields h
    exact ⟨repeatUpTo_resumes (matchPattern_atomic hcall body) _ hitems, nofun⟩
  | .choice alternatives => matchFirst_atomic hcall alternatives
  | .negation body => lookAhead_atomic (matchPattern_atomic hcall body)
  | .rule index _ => hcall index

theorem matchFields_follows (hcall : ∀ index, Atomic (call index)) :
    ∀ (fields : List (Option Binding × Pattern)) ⦃s : State⦄ ⦃all : Bool⦄ ⦃t : State⦄,
      Yields (matchFields g call fields) s all t → t.Follows s
  | [], s, all, t, h => by
    obtain ⟨-, rfl⟩ := yields_pure.1 h
    exact .refl s
  | (b, p) :: rest, s, all, t, h => by
    obtain ⟨c, u, hp, hrest⟩ | ⟨hp, -⟩ := matchFields_yields h
    · have hkeep := (u.keep_follows b c).trans (matchPattern_atomic hcall p hp).1.toFollows
      exact (matchFields_follows hcall rest hrest).trans hkeep
    · exact (matchPattern_atomic hcall p hp).1.toFollows

theorem matchFirst_atomic (hcall : ∀ index, Atomic (call index)) :
    ∀ ps : List Pattern, Atomic (matchFirst g call ps)
  | [] => by
    intro s c t h
    obtain ⟨rfl, rfl⟩ := yields_pure.1 h
    exact ⟨.refl s, fun _ => rfl⟩
  | p :: rest => by
    intro s c t h
    obtain ⟨-, hp⟩ | ⟨u, hp, hrest⟩ := matchFirst_yields h
    · exact matchPattern_atomic hcall p hp
    · have hback := (matchPattern_atomic hcall p hp).1.rewind u.furthest
      obtain ⟨hresumes, hplace⟩ := matchFirst_atomic hcall rest hrest
      exact ⟨hresumes.trans hback, fun hnone => hplace hnone⟩

end

end

theorem callWithin_atomic (g : Grammar) (limit levels index : Nat) :
    Atomic (callWithin g limit levels index) := by
  induction levels generalizing index with
  | zero =>
    intro s c t h
    obtain ⟨r, left, -, hlevels, -⟩ := callWithin_yields h
    cases hlevels
  | succ levels ih =>
    intro s c u h
    obtain ⟨r, left, -, hlevels, t, ht, rfl⟩ := callWithin_yields h
    cases hlevels
    obtain ⟨hresumes, hplace⟩ := matchPattern_atomic ih r.body ht
    exact ⟨hresumes.returned, fun hnone => hplace hnone⟩

end TextGrammar.Matching
