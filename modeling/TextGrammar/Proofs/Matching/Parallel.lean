import TextGrammar.Proofs.Matching.Atomic

/-! # Two runs of a matcher

What a matcher does depends on the input ahead and on the frames that the rule being matched sees.
Started twice with these the same, it ends with the same result, moves by the same distance, and
notes failures at the same distances, whatever the callers of the rule have left in the state. -/

namespace TextGrammar.Matching

/-- Two states look the same to a matcher: they have the same input ahead, and see the same frames
of the same rule. -/
structure State.Alike (s t : State) : Prop where
  rest : s.place.rest = t.place.rest
  visible : s.visible = t.visible
  rule : s.rule = t.rule
  left : s.base ≤ s.frames.length
  right : t.base ≤ t.frames.length

/-- Two runs have gone the same way from the states `s` and `t` to the states `u` and `v`: they
have moved by the same distance, and noted no failures or the furthest ones at the same distance. -/
structure Strides (s t u v : State) : Prop where
  rest : u.place.rest = v.place.rest
  moved : u.place.offset + t.place.offset = v.place.offset + s.place.offset
  noted : ∃ reach reach', (reach = 0 ∧ reach' = 0 ∨
      reach + t.place.offset = reach' + s.place.offset) ∧
    u.furthest = max s.furthest reach ∧ v.furthest = max t.furthest reach'

section
variable {s t u v x y : State}

namespace State.Alike

/-- States that resume where two like ones were, with the same input ahead. -/
theorem of_resumes (h : s.Alike t) (hu : u.Resumes s) (hv : v.Resumes t)
    (hrest : u.place.rest = v.place.rest) : u.Alike v where
  rest := hrest
  visible := by rw [hu.visible, hv.visible, h.visible]
  rule := by rw [hu.rule, hv.rule, h.rule]
  left := hu.base_le h.left
  right := hv.base_le h.right

theorem opened (h : s.Alike t) (slots : Nat) : (s.opened slots).Alike (t.opened slots) where
  rest := h.rest
  visible := by rw [visible_opened h.left, visible_opened h.right, h.visible]
  rule := h.rule
  left := Nat.le_succ_of_le h.left
  right := Nat.le_succ_of_le h.right

/-- A rule sees no frames when it is entered. -/
theorem entered (hrest : s.place.rest = t.place.rest) (index : Nat) (name : String) :
    (s.entered index name).Alike (t.entered index name) where
  rest := hrest
  visible := by rw [visible_entered, visible_entered]
  rule := rfl
  left := Nat.le_refl _
  right := Nat.le_refl _

theorem keep (h : s.Alike t) (b : Option Binding) (c : Capture) :
    (s.keep b c).Alike (t.keep b c) where
  rest := by rw [keep_place, keep_place, h.rest]
  visible := by
    cases hs : s.visible with
    | nil =>
      have hempty : ∀ {s : State}, s.base ≤ s.frames.length → s.visible = [] →
          (s.keep b c).visible = [] := by
        intro s hbase hvisible
        have hheight := (s.keep_follows b c).height
        have hkept := (s.keep_follows b c).base
        rw [State.visible, List.take_eq_nil_iff] at hvisible ⊢
        rw [hheight, hkept]
        rcases hvisible with hnone | hframes
        · exact .inl hnone
        · exact .inl (by simp [hframes])
      rw [hempty h.left hs, hempty h.right (h.visible ▸ hs)]
    | cons frame outer => rw [visible_keep hs b c, visible_keep (h.visible ▸ hs) b c]
  rule := by rw [(s.keep_follows b c).rule, (t.keep_follows b c).rule, h.rule]
  left := base_le_keep h.left b c
  right := base_le_keep h.right b c

/-- The innermost frames of two like states are the same, if they see any. -/
theorem headD_frames (h : s.Alike t) (hs : s.base < s.frames.length) :
    s.frames.headD [] = t.frames.headD [] := by
  cases hvisible : s.visible with
  | nil =>
    have hnone : (s.frames.take (s.frames.length - s.base)).length = 0 :=
      congrArg List.length hvisible
    rw [List.length_take] at hnone
    omega
  | cons frame outer =>
    obtain ⟨below, hframes⟩ := frames_of_visible hvisible
    obtain ⟨below', hframes'⟩ := frames_of_visible (h.visible ▸ hvisible)
    rw [hframes, hframes', List.headD_cons, List.headD_cons]

end State.Alike

namespace Strides

/-- Moves that change neither the place nor what was noted. -/
theorem still (h : s.place.rest = t.place.rest) (hu : u.place = s.place)
    (hu' : u.furthest = s.furthest) (hv : v.place = t.place) (hv' : v.furthest = t.furthest) :
    Strides s t u v := by
  refine ⟨by rw [hu, hv, h], by rw [hu, hv, Nat.add_comm], 0, 0, .inl ⟨rfl, rfl⟩, ?_, ?_⟩
  · rw [hu', Nat.max_eq_left (Nat.zero_le _)]
  · rw [hv', Nat.max_eq_left (Nat.zero_le _)]

theorem refl (h : s.place.rest = t.place.rest) : Strides s t s t :=
  still h rfl rfl rfl rfl

theorem trans (h : Strides s t u v) (h' : Strides u v x y) : Strides s t x y := by
  obtain ⟨-, hmoved, r, r', hr, hu, hv⟩ := h
  obtain ⟨hrest, hmoved', q, q', hq, hx, hy⟩ := h'
  refine ⟨hrest, by omega, max r q, max r' q', ?_, ?_, ?_⟩
  · omega
  · rw [hx, hu, Nat.max_assoc]
  · rw [hy, hv, Nat.max_assoc]

/-- Going back to where both runs were before. -/
theorem goBack (h : Strides s t u v) (hrest : s.place.rest = t.place.rest) :
    Strides u v { u with place := s.place } { v with place := t.place } := by
  refine ⟨hrest, ?_, 0, 0, .inl ⟨rfl, rfl⟩, by simp, by simp⟩
  have hmoved := h.moved
  simp only
  omega

theorem advance (h : s.place.rest = t.place.rest) (characters : Nat) :
    Strides s t { s with place := s.place.advance characters }
      { t with place := t.place.advance characters } := by
  refine ⟨?_, ?_, 0, 0, .inl ⟨rfl, rfl⟩, by simp, by simp⟩
  · simp [Place.advance, h]
  · simp only [Place.advance, h]
    omega

/-- Noting a failure where both runs are. -/
theorem note (h : s.place.rest = t.place.rest) :
    Strides s t { s with furthest := s.reach } { t with furthest := t.reach } :=
  ⟨h, Nat.add_comm .., s.place.offset, t.place.offset, .inr (Nat.add_comm ..), rfl, rfl⟩

end Strides

end

section
variable {α β : Type} {m m' : Matcher α} {f f' : α → Matcher β} {s t : State}

/-- Two matchers that are started in two states end with the same result and go the same way. -/
structure Parallel (m m' : Matcher α) (s t : State) : Prop where
  result : (exec m s).1 = (exec m' t).1
  strides : Strides s t (exec m s).2 (exec m' t).2

namespace Parallel

theorem pure (x : α) (h : s.place.rest = t.place.rest) : Parallel (pure x) (pure x) s t :=
  ⟨rfl, .refl h⟩

theorem throw (e : RunError) (h : s.place.rest = t.place.rest) :
    Parallel (throw e : Matcher α) (throw e) s t :=
  ⟨rfl, .refl h⟩

theorem get {f f' : State → Matcher β} (h : Parallel (f s) (f' t) s t) :
    Parallel (get >>= f) (get >>= f') s t :=
  ⟨h.result, h.strides⟩

theorem modify {h h' : State → State} {f f' : Unit → Matcher β}
    (hstrides : Strides s t (h s) (h' t)) (hf : Parallel (f ()) (f' ()) (h s) (h' t)) :
    Parallel (modify h >>= f) (modify h' >>= f') s t :=
  ⟨hf.result, hstrides.trans hf.strides⟩

theorem bind (hm : Parallel m m' s t)
    (hf : ∀ x u v, Yields m s x u → Yields m' t x v → Strides s t u v →
      Parallel (f x) (f' x) u v) : Parallel (m >>= f) (m' >>= f') s t := by
  obtain ⟨hresult, hstrides⟩ := hm
  rcases hs : exec m s with ⟨e | x, u⟩ <;> rcases ht : exec m' t with ⟨e' | x', v⟩ <;>
    rw [hs, ht] at hresult hstrides <;> cases hresult
  · exact ⟨by rw [exec_bind, exec_bind, hs, ht],
      by rw [exec_bind, exec_bind, hs, ht]; exact hstrides⟩
  · have hnext := hf x u v hs ht hstrides
    exact ⟨by rw [exec_bind, exec_bind, hs, ht]; exact hnext.result,
      by rw [exec_bind, exec_bind, hs, ht]; exact hstrides.trans hnext.strides⟩

/-- Two runs that end without an error have the same result. -/
theorem of_yields {x x' : α} {u v : State} (h : Parallel m m' s t) (hu : Yields m s x u)
    (hv : Yields m' t x' v) : x = x' ∧ Strides s t u v := by
  obtain ⟨hresult, hstrides⟩ := h
  rw [hu, hv] at hresult hstrides
  exact ⟨Except.ok.inj hresult, hstrides⟩

end Parallel

end

/-- A matcher that cannot tell like states apart. -/
def Isolated {α : Type} (m : Matcher α) : Prop := ∀ ⦃s t : State⦄, s.Alike t → Parallel m m s t

theorem matchLeaf_isolated (l : Leaf) : Isolated (matchLeaf l) := by
  intro s t h
  apply Parallel.get
  rw [h.rest]
  cases l.read? t.place.rest with
  | none => exact .modify (.note h.rest) (.pure none h.rest)
  | some found =>
    have hadvance := Strides.advance h.rest found.2
    exact .modify hadvance (.pure (some found.1) hadvance.rest)

theorem matchLiteral_isolated (text : String) : Isolated (matchLiteral text) := by
  intro s t h
  apply Parallel.get
  rw [h.rest]
  by_cases hfront : text.toList.isPrefixOf t.place.rest = true
  · have hadvance := Strides.advance h.rest text.toList.length
    rw [if_pos hfront]
    exact .modify hadvance (.pure _ hadvance.rest)
  · rw [if_neg hfront]
    exact .modify (.note h.rest) (.pure none h.rest)

def IsolatedInside {α : Type} (m : Matcher α) : Prop :=
  ∀ ⦃s t : State⦄, s.Alike t → s.base < s.frames.length → Parallel m m s t

theorem yieldRecord_isolated (fields : List Field) : IsolatedInside (yieldRecord fields) := by
  intro s t h hs
  apply Parallel.get
  simp only [h.headD_frames hs]
  exact .pure _ h.rest

theorem yieldValue_isolated (g : Grammar) (locals : Nat) (body : Expr) :
    IsolatedInside (yieldValue g locals body) := by
  intro s t h hs
  apply Parallel.get
  rw [h.visible, h.rule]
  cases Action.evaluate locals body t.visible with
  | ok v => exact .pure _ h.rest
  | error fault => exact .throw _ h.rest

/-- Matching some fields goes the same way in like states, and ends in like states. -/
def IsolatedFields (fields : Matcher Bool) : Prop :=
  ∀ ⦃s t : State⦄, s.Alike t → Parallel fields fields s t ∧
    ∀ ⦃all u v⦄, Yields fields s all u → Yields fields t all v → u.Alike v

theorem inFrame_isolated {slots : Nat} {fields : Matcher Bool} {yielded : Matcher Outcome}
    (hfields : IsolatedFields fields)
    (hfollows : ∀ ⦃s all t⦄, Yields fields s all t → t.Follows s)
    (hyielded : IsolatedInside yielded) : Isolated (inFrame slots fields yielded) := by
  intro s t h
  have hopened := h.opened slots
  obtain ⟨hparallel, hends⟩ := hfields hopened
  refine .get (.modify (.still h.rest rfl rfl rfl rfl) (hparallel.bind ?_))
  intro all u v hu hv hstrides
  have hlike := hends hu hv
  cases all with
  | true =>
    have hinside : u.base < u.frames.length := by
      rw [(hfollows hu).base, (hfollows hu).height]
      exact Nat.lt_succ_of_le h.left
    refine (hyielded hlike hinside).bind fun c u' v' _ _ hstrides' => ?_
    exact .modify (.still hstrides'.rest rfl rfl rfl rfl) (.pure c hstrides'.rest)
  | false =>
    have hback : Strides u v { u with place := s.place } { v with place := t.place } :=
      Strides.goBack (s := s) (t := t) ⟨hstrides.rest, hstrides.moved, hstrides.noted⟩ h.rest
    refine .modify (.still hstrides.rest rfl rfl rfl rfl) (.modify ?_ (.pure none h.rest))
    exact ⟨hback.rest, hback.moved, hback.noted⟩

theorem repeatUpTo_isolated {body : Matcher Outcome} (hbody : Isolated body)
    (hatomic : Atomic body) (rounds : Nat) : Isolated (repeatUpTo body rounds) := by
  induction rounds with
  | zero =>
    intro s t h
    exact .pure [] h.rest
  | succ rounds ih =>
    intro s t h
    refine .get ((hbody h).bind fun c u v hu hv hstrides => ?_)
    cases c with
    | none => exact .modify (hstrides.goBack h.rest) (.pure [] h.rest)
    | some c =>
      have hlike := h.of_resumes (hatomic hu).1 (hatomic hv).1 hstrides.rest
      have hmoved := hstrides.moved
      apply Parallel.get
      by_cases hlt : s.place.offset < u.place.offset
      · rw [if_pos hlt, if_pos (by omega)]
        exact (ih hlike).bind fun items u' v' _ _ hstrides' => .pure (c :: items) hstrides'.rest
      · rw [if_neg hlt, if_neg (by omega)]
        exact .pure [] hstrides.rest

theorem repeatGreedily_isolated {body : Matcher Outcome} (hbody : Isolated body)
    (hatomic : Atomic body) : Isolated (repeatGreedily body) := by
  intro s t h
  apply Parallel.get
  rw [h.rest]
  refine (repeatUpTo_isolated hbody hatomic _ h).bind fun items u v _ _ hstrides => ?_
  exact .pure _ hstrides.rest

theorem exec_lookAhead (body : Matcher Outcome) (s : State) :
    exec (lookAhead body) s =
      match exec body s with
      | (.error e, u) => (.error e, u)
      | (.ok (some _), u) => (.ok none, { u with place := s.place, furthest := s.reach })
      | (.ok none, u) =>
        (.ok (some .unit), { u with place := s.place, furthest := s.furthest }) := by
  change exec (body >>= fun _ => _) s = _
  rw [exec_bind]
  rcases exec body s with ⟨e | _ | c, u⟩ <;> rfl

/-- What is noted while looking ahead is forgotten, unless the run ends there. -/
theorem lookAhead_isolated {body : Matcher Outcome} (hbody : Isolated body) :
    Isolated (lookAhead body) := by
  intro s t h
  have hparallel := hbody h
  have hnote := Strides.note h.rest
  rcases hs : exec body s with ⟨e | c, u⟩ <;> rcases ht : exec body t with ⟨e' | c', v⟩ <;>
    obtain ⟨hresult, hstrides⟩ := hparallel <;> rw [hs, ht] at hresult hstrides <;> cases hresult
  · constructor <;> rw [exec_lookAhead, exec_lookAhead, hs, ht]
    exact hstrides
  · cases c with
    | some c =>
      constructor <;> rw [exec_lookAhead, exec_lookAhead, hs, ht]
      exact ⟨hnote.rest, hnote.moved, hnote.noted⟩
    | none =>
      constructor <;> rw [exec_lookAhead, exec_lookAhead, hs, ht]
      exact .still h.rest rfl rfl rfl rfl

/-- The body of a rule sees nothing of where the rule is called. -/
theorem inRule_parallel {index : Nat} {name : String} {body : Matcher Outcome}
    (hbody : Isolated body) {s t : State} (hrest : s.place.rest = t.place.rest) :
    Parallel (inRule index name body) (inRule index name body) s t := by
  refine .get (.modify (.still hrest rfl rfl rfl rfl) (.modify (.still hrest rfl rfl rfl rfl) ?_))
  refine (hbody (.entered hrest index name)).bind fun c u v _ _ hstrides => ?_
  refine .modify (.still hstrides.rest rfl rfl rfl rfl) (.get ?_)
  exact .modify (.still hstrides.rest rfl rfl rfl rfl) (.pure c hstrides.rest)

section
variable {g : Grammar} {call : Nat → Matcher Outcome}

mutual

theorem matchPattern_isolated (hcall : ∀ index, Isolated (call index))
    (hatomic : ∀ index, Atomic (call index)) : ∀ p : Pattern, Isolated (matchPattern g call p)
  | .leaf l => matchLeaf_isolated l
  | .literal text => matchLiteral_isolated text
  | .sequence _ fields =>
    inFrame_isolated (matchFields_isolated hcall hatomic fields)
      (matchFields_follows hatomic fields) (yieldRecord_isolated fields)
  | .action _ fields locals body =>
    inFrame_isolated (matchFields_isolated hcall hatomic fields)
      (matchFields_follows hatomic fields) (yieldValue_isolated g locals body)
  | .repetition body =>
    repeatGreedily_isolated (matchPattern_isolated hcall hatomic body)
      (matchPattern_atomic hatomic body)
  | .choice alternatives => matchFirst_isolated hcall hatomic alternatives
  | .negation body => lookAhead_isolated (matchPattern_isolated hcall hatomic body)
  | .rule index _ => hcall index

theorem matchFields_isolated (hcall : ∀ index, Isolated (call index))
    (hatomic : ∀ index, Atomic (call index)) :
    ∀ fields : List (Option Binding × Pattern), IsolatedFields (matchFields g call fields)
  | [], s, t, h => by
    refine ⟨.pure true h.rest, fun all u v hu hv => ?_⟩
    obtain ⟨-, rfl⟩ := yields_pure.1 hu
    obtain ⟨-, rfl⟩ := yields_pure.1 hv
    exact h
  | (b, p) :: rest, s, t, h => by
    have hp := matchPattern_isolated hcall hatomic p h
    have hrest := matchFields_isolated hcall hatomic rest
    have hlike : ∀ {c u v}, Yields (matchPattern g call p) s c u →
        Yields (matchPattern g call p) t c v → u.place.rest = v.place.rest → u.Alike v :=
      fun hu hv => h.of_resumes (matchPattern_atomic hatomic p hu).1
        (matchPattern_atomic hatomic p hv).1
    constructor
    · refine hp.bind fun c u v hu hv hstrides => ?_
      have hlike := hlike hu hv hstrides.rest
      cases c with
      | none => exact .pure false hstrides.rest
      | some c =>
        cases b with
        | none => exact (hrest hlike).1
        | some b =>
          have hkeep : Strides u v (u.keep (some b) c) (v.keep (some b) c) :=
            .still hlike.rest (u.keep_place _ c) (u.keep_furthest _ c) (v.keep_place _ c)
              (v.keep_furthest _ c)
          exact .modify hkeep (hrest (hlike.keep (some b) c)).1
    · intro all u v hu hv
      obtain ⟨c, u', hu', hu⟩ | ⟨hu, -⟩ := matchFields_yields hu <;>
        obtain ⟨c', v', hv', hv⟩ | ⟨hv, -⟩ := matchFields_yields hv
      · obtain ⟨⟨⟩, hstrides⟩ := hp.of_yields hu' hv'
        exact (hrest ((hlike hu' hv' hstrides.rest).keep b c)).2 hu hv
      · cases (hp.of_yields hu' hv).1
      · cases (hp.of_yields hu hv').1
      · exact hlike hu hv (hp.of_yields hu hv).2.rest

theorem matchFirst_isolated (hcall : ∀ index, Isolated (call index))
    (hatomic : ∀ index, Atomic (call index)) :
    ∀ ps : List Pattern, Isolated (matchFirst g call ps)
  | [], s, t, h => .pure none h.rest
  | p :: rest, s, t, h => by
    refine .get ((matchPattern_isolated hcall hatomic p h).bind fun c u v hu hv hstrides => ?_)
    cases c with
    | some c => exact .pure (some c) hstrides.rest
    | none =>
      have hus := (matchPattern_atomic hatomic p hu).1.rewind u.furthest
      have hvt := (matchPattern_atomic hatomic p hv).1.rewind v.furthest
      have hback := h.of_resumes hus hvt h.rest
      exact .modify (hstrides.goBack h.rest) (matchFirst_isolated hcall hatomic rest hback)

end

end

theorem callWithin_parallel (g : Grammar) (limit levels index : Nat) {s t : State}
    (hrest : s.place.rest = t.place.rest) :
    Parallel (callWithin g limit levels index) (callWithin g limit levels index) s t := by
  induction levels generalizing index s t with
  | zero =>
    unfold callWithin
    cases g.rule? index with
    | none => exact .throw _ hrest
    | some r => exact .throw _ hrest
  | succ levels ih =>
    unfold callWithin
    cases g.rule? index with
    | none => exact .throw _ hrest
    | some r =>
      have hcall : ∀ index, Isolated (callWithin g limit levels index) :=
        fun index s t h => ih index h.rest
      exact inRule_parallel (matchPattern_isolated hcall (callWithin_atomic g limit levels) r.body)
        hrest

end TextGrammar.Matching
