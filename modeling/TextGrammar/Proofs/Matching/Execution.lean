import TextGrammar.Run

/-! # What a matcher yields and how it faults

A matcher that is started in a state either yields a result and leaves another state, or ends the
run with an error. One lemma for each way to build a matcher says when it does which, so that no
later proof opens a matcher. -/

namespace TextGrammar.Matching
variable {α β : Type}

/-- The outcome of a matcher that is started in a state, and the state it leaves. -/
def exec (m : Matcher α) (s : State) : Except RunError α × State := m.run s

/-- A matcher that is started in a state yields a result and leaves another state. -/
def Yields (m : Matcher α) (s : State) (x : α) (t : State) : Prop := exec m s = (.ok x, t)

/-- A matcher that is started in a state ends the run with an error. -/
def Faults (m : Matcher α) (s : State) (e : RunError) : Prop := (exec m s).1 = .error e

/-- A matcher that does not fault yields something. -/
theorem exists_yields {m : Matcher α} {s : State} (h : ∀ e, ¬Faults m s e) :
    ∃ x t, Yields m s x t := by
  unfold Faults at h
  rcases hm : exec m s with ⟨e | x, t⟩
  · exact absurd (congrArg Prod.fst hm) (h e)
  · exact ⟨x, t, hm⟩

theorem exec_bind (m : Matcher α) (f : α → Matcher β) (s : State) :
    exec (m >>= f) s =
      match exec m s with
      | (.ok x, t) => exec (f x) t
      | (.error e, t) => (.error e, t) := by
  change (ExceptT.run (m >>= f)) s = _
  rw [ExceptT.run_bind]
  simp only [bind, StateT.bind, exec]
  rcases m.run s with ⟨_ | _, _⟩ <;> rfl

theorem yields_bind {m : Matcher α} {f : α → Matcher β} {s u : State} {y : β} :
    Yields (m >>= f) s y u ↔ ∃ x t, Yields m s x t ∧ Yields (f x) t y u := by
  unfold Yields
  rw [exec_bind]
  rcases exec m s with ⟨e | x, t⟩ <;> simp [and_assoc]

theorem faults_bind {m : Matcher α} {f : α → Matcher β} {s : State} {e : RunError} :
    Faults (m >>= f) s e ↔ Faults m s e ∨ ∃ x t, Yields m s x t ∧ Faults (f x) t e := by
  unfold Yields Faults
  rw [exec_bind]
  rcases exec m s with ⟨e | x, t⟩ <;> simp [and_assoc]

theorem yields_pure {x y : α} {s t : State} : Yields (pure x) s y t ↔ x = y ∧ s = t := by
  change ((Except.ok x, s) : Except RunError α × State) = (.ok y, t) ↔ _
  simp

theorem faults_pure {x : α} {s : State} {e : RunError} : ¬Faults (pure x) s e := nofun

theorem yields_get {s t : State} {x : State} : Yields get s x t ↔ x = s ∧ t = s := by
  change ((Except.ok s, s) : Except RunError State × State) = (.ok x, t) ↔ _
  simp [eq_comm]

theorem faults_get {s : State} {e : RunError} : ¬Faults get s e := nofun

theorem yields_modify {f : State → State} {s t : State} {u : Unit} :
    Yields (modify f) s u t ↔ t = f s := by
  change ((Except.ok (), f s) : Except RunError Unit × State) = (.ok u, t) ↔ _
  simp [eq_comm]

theorem faults_modify {f : State → State} {s : State} {e : RunError} :
    ¬Faults (modify f) s e := nofun

theorem yields_throw {e : RunError} {s t : State} {x : α} : ¬Yields (throw e) s x t := nofun

theorem faults_throw {e d : RunError} {s : State} : Faults (throw e : Matcher α) s d ↔ e = d := by
  change (Except.error e : Except RunError α) = .error d ↔ _
  simp

def State.opened (s : State) (slots : Nat) : State :=
  { s with frames := List.replicate slots none :: s.frames }

def State.closed (s : State) (height : Nat) : State :=
  { s with frames := s.frames.drop (s.frames.length - height) }

def State.keep (s : State) : Option Binding → Capture → State
  | some b, c =>
    match s.frames with
    | [] => s
    | frame :: outer => { s with frames := frame.set b.slot (some c) :: outer }
  | none, _ => s

/-- The state in which the body of a rule is matched. -/
def State.entered (s : State) (index : Nat) (name : String) : State :=
  { s with
    log := .entering name s.place.offset :: s.log
    depth := s.depth + 1
    base := s.frames.length
    rule := index }

def State.returned (t s : State) (name : String) (matched : Bool) : State :=
  { t with
    log := .leaving name t.place.offset matched :: t.log
    depth := t.depth - 1
    base := s.base
    rule := s.rule }

theorem matchLeaf_yields {l : Leaf} {s t : State} {c : Outcome} (h : Yields (matchLeaf l) s c t) :
    (∃ x taken, l.read? s.place.rest = some (x, taken) ∧ c = some x ∧
      t = { s with place := s.place.advance taken }) ∨
    (c = none ∧ t = { s with furthest := s.reach } ∧ l.read? s.place.rest = none) := by
  simp only [matchLeaf, yields_bind, yields_get] at h
  obtain ⟨_, _, ⟨rfl, rfl⟩, h⟩ := h
  split at h
  · rename_i x taken hread
    simp only [yields_bind, advance, yields_modify, yields_pure] at h
    obtain ⟨_, _, rfl, rfl, rfl⟩ := h
    exact .inl ⟨x, taken, hread, rfl, rfl⟩
  · rename_i hread
    simp only [yields_bind, noteFailure, yields_modify, yields_pure] at h
    obtain ⟨_, _, rfl, rfl, rfl⟩ := h
    exact .inr ⟨rfl, rfl, hread⟩

theorem matchLeaf_faults {l : Leaf} {s : State} {e : RunError} : ¬Faults (matchLeaf l) s e := by
  intro h
  simp only [matchLeaf, faults_bind, yields_get, faults_get, false_or] at h
  obtain ⟨_, _, ⟨rfl, rfl⟩, h⟩ := h
  split at h <;>
    simp only [faults_bind, advance, noteFailure, faults_modify, faults_pure, and_false,
      exists_false, or_self] at h

theorem matchLiteral_yields {text : String} {s t : State} {c : Outcome}
    (h : Yields (matchLiteral text) s c t) :
    (c = some (.text text) ∧ t = { s with place := s.place.advance text.toList.length } ∧
      text.toList.isPrefixOf s.place.rest) ∨
    (c = none ∧ t = { s with furthest := s.reach } ∧
      ¬text.toList.isPrefixOf s.place.rest) := by
  simp only [matchLiteral, yields_bind, yields_get] at h
  obtain ⟨_, _, ⟨rfl, rfl⟩, h⟩ := h
  split at h
  · rename_i hfront
    simp only [yields_bind, advance, yields_modify, yields_pure] at h
    obtain ⟨_, _, rfl, rfl, rfl⟩ := h
    exact .inl ⟨rfl, rfl, hfront⟩
  · rename_i hfront
    simp only [yields_bind, noteFailure, yields_modify, yields_pure] at h
    obtain ⟨_, _, rfl, rfl, rfl⟩ := h
    exact .inr ⟨rfl, rfl, hfront⟩

theorem matchLiteral_faults {text : String} {s : State} {e : RunError} :
    ¬Faults (matchLiteral text) s e := by
  intro h
  simp only [matchLiteral, faults_bind, yields_get, faults_get, false_or] at h
  obtain ⟨_, _, ⟨rfl, rfl⟩, h⟩ := h
  split at h <;>
    simp only [faults_bind, advance, noteFailure, faults_modify, faults_pure, and_false,
      exists_false, or_self] at h

theorem yieldRecord_yields {fields : List Field} {s t : State} {c : Outcome} :
    Yields (yieldRecord fields) s c t ↔
      c = some (.record (takeFields (s.frames.headD []) (fields.filterMap Prod.fst))) ∧ t = s := by
  simp only [yieldRecord, yields_bind, yields_get, yields_pure]
  constructor
  · rintro ⟨_, _, ⟨rfl, rfl⟩, rfl, rfl⟩
    exact ⟨rfl, rfl⟩
  · rintro ⟨rfl, rfl⟩
    exact ⟨_, _, ⟨rfl, rfl⟩, rfl, rfl⟩

theorem yieldRecord_faults {fields : List Field} {s : State} {e : RunError} :
    ¬Faults (yieldRecord fields) s e := by
  simp only [yieldRecord, faults_bind, faults_get, faults_pure, and_false, exists_false, or_self,
    not_false_eq_true]

theorem yieldValue_yields {g : Grammar} {locals : Nat} {body : Expr} {s t : State} {c : Outcome}
    (h : Yields (yieldValue g locals body) s c t) :
    ∃ v, Action.evaluate locals body s.visible = .ok v ∧ c = some (.value v) ∧ t = s := by
  simp only [yieldValue, yields_bind, yields_get] at h
  obtain ⟨_, _, ⟨rfl, rfl⟩, h⟩ := h
  split at h
  · rename_i v hv
    obtain ⟨rfl, rfl⟩ := yields_pure.1 h
    exact ⟨v, hv, rfl, rfl⟩
  · exact absurd h yields_throw

theorem yieldValue_faults {g : Grammar} {locals : Nat} {body : Expr} {s : State} {e : RunError}
    (h : Faults (yieldValue g locals body) s e) :
    ∃ fault, Action.evaluate locals body s.visible = .error fault ∧
      e = .action (g.nameOf s.rule) fault := by
  simp only [yieldValue, faults_bind, yields_get, faults_get, false_or] at h
  obtain ⟨_, _, ⟨rfl, rfl⟩, h⟩ := h
  split at h
  · exact absurd h faults_pure
  · rename_i fault hfault
    exact ⟨fault, hfault, (faults_throw.1 h).symm⟩

theorem inFrame_yields {slots : Nat} {fields : Matcher Bool} {yielded : Matcher Outcome}
    {s u : State} {c : Outcome} (h : Yields (inFrame slots fields yielded) s c u) :
    (∃ t t', Yields fields (s.opened slots) true t ∧ Yields yielded t c t' ∧
      u = t'.closed s.frames.length) ∨
    (∃ t, Yields fields (s.opened slots) false t ∧ c = none ∧
      u = { t.closed s.frames.length with place := s.place }) := by
  simp only [inFrame, openFrame, closeFrames, goBack, yields_bind, yields_get, yields_modify] at h
  obtain ⟨_, _, ⟨rfl, rfl⟩, _, _, rfl, b, t, hfields, h⟩ := h
  cases b with
  | true =>
    simp only [if_true, yields_bind, yields_modify, yields_pure] at h
    obtain ⟨c', t', hc, _, _, rfl, rfl, rfl⟩ := h
    exact .inl ⟨t, t', hfields, hc, rfl⟩
  | false =>
    simp only [Bool.false_eq_true, if_false, yields_bind, yields_modify, yields_pure] at h
    obtain ⟨_, _, rfl, _, _, rfl, rfl, rfl⟩ := h
    exact .inr ⟨t, hfields, rfl, rfl⟩

theorem inFrame_faults {slots : Nat} {fields : Matcher Bool} {yielded : Matcher Outcome}
    {s : State} {e : RunError} (h : Faults (inFrame slots fields yielded) s e) :
    Faults fields (s.opened slots) e ∨
      ∃ t, Yields fields (s.opened slots) true t ∧ Faults yielded t e := by
  simp only [inFrame, openFrame, faults_bind, faults_get, false_or, yields_get, faults_modify,
    yields_modify] at h
  obtain ⟨_, _, ⟨rfl, rfl⟩, _, _, rfl, h | ⟨b, t, hfields, h⟩⟩ := h
  · exact .inl h
  · cases b with
    | true =>
      simp only [if_true, faults_bind, closeFrames, faults_modify, faults_pure, and_false,
        exists_false, or_false] at h
      exact .inr ⟨t, hfields, h⟩
    | false =>
      simp only [Bool.false_eq_true, if_false, faults_bind, closeFrames, goBack, faults_modify,
        faults_pure, and_false, exists_false, or_self] at h

theorem repeatUpTo_yields {body : Matcher Outcome} {rounds : Nat} {s u : State}
    {items : List Capture} (h : Yields (repeatUpTo body (rounds + 1)) s items u) :
    (∃ c t rest, Yields body s (some c) t ∧ s.place.offset < t.place.offset ∧
      Yields (repeatUpTo body rounds) t rest u ∧ items = c :: rest) ∨
    (∃ c, Yields body s (some c) u ∧ ¬s.place.offset < u.place.offset ∧ items = []) ∨
    (∃ t, Yields body s none t ∧ items = [] ∧ u = { t with place := s.place }) := by
  simp only [repeatUpTo, yields_bind, yields_get] at h
  obtain ⟨_, _, ⟨rfl, rfl⟩, c, t, hc, h⟩ := h
  cases c with
  | none =>
    simp only [goBack, yields_bind, yields_modify, yields_pure] at h
    obtain ⟨_, _, rfl, rfl, rfl⟩ := h
    exact .inr (.inr ⟨t, hc, rfl, rfl⟩)
  | some c =>
    simp only [yields_bind, yields_get] at h
    obtain ⟨_, _, ⟨rfl, rfl⟩, h⟩ := h
    split at h
    · rename_i hlt
      simp only [yields_bind, yields_pure] at h
      obtain ⟨rest, _, hrest, rfl, rfl⟩ := h
      exact .inl ⟨c, _, rest, hc, hlt, hrest, rfl⟩
    · rename_i hlt
      obtain ⟨rfl, rfl⟩ := yields_pure.1 h
      exact .inr (.inl ⟨c, hc, hlt, rfl⟩)

theorem repeatUpTo_faults {body : Matcher Outcome} {rounds : Nat} {s : State} {e : RunError}
    (h : Faults (repeatUpTo body (rounds + 1)) s e) :
    Faults body s e ∨
      ∃ c t, Yields body s (some c) t ∧ s.place.offset < t.place.offset ∧
        Faults (repeatUpTo body rounds) t e := by
  simp only [repeatUpTo, faults_bind, yields_get, faults_get, false_or] at h
  obtain ⟨_, _, ⟨rfl, rfl⟩, h | ⟨c, t, hc, h⟩⟩ := h
  · exact .inl h
  · cases c with
    | none =>
      simp only [goBack, faults_bind, faults_modify, faults_pure, and_false, exists_false,
        or_self] at h
    | some c =>
      simp only [faults_bind, yields_get, faults_get, false_or] at h
      obtain ⟨_, _, ⟨rfl, rfl⟩, h⟩ := h
      split at h
      · rename_i hlt
        simp only [faults_bind, faults_pure, and_false, exists_false, or_false] at h
        exact .inr ⟨c, _, hc, hlt, h⟩
      · exact absurd h faults_pure

theorem repeatUpTo_not_faults {body : Matcher Outcome} (hbody : ∀ s e, ¬Faults body s e)
    (rounds : Nat) (s : State) (e : RunError) : ¬Faults (repeatUpTo body rounds) s e := by
  induction rounds generalizing s with
  | zero => exact faults_pure
  | succ rounds ih =>
    intro h
    obtain h | ⟨_, t, -, -, h⟩ := repeatUpTo_faults h
    · exact hbody s e h
    · exact ih t h

theorem repeatGreedily_yields {body : Matcher Outcome} {s t : State} {c : Outcome}
    (h : Yields (repeatGreedily body) s c t) :
    ∃ items, Yields (repeatUpTo body (s.place.rest.length + 1)) s items t ∧
      c = some (.list items) := by
  simp only [repeatGreedily, yields_bind, yields_get, yields_pure] at h
  obtain ⟨_, _, ⟨rfl, rfl⟩, items, _, hitems, rfl, rfl⟩ := h
  exact ⟨items, hitems, rfl⟩

theorem repeatGreedily_faults {body : Matcher Outcome} {s : State} {e : RunError}
    (h : Faults (repeatGreedily body) s e) :
    Faults (repeatUpTo body (s.place.rest.length + 1)) s e := by
  simp only [repeatGreedily, faults_bind, yields_get, faults_get, faults_pure, and_false,
    exists_false, or_false, false_or] at h
  obtain ⟨_, _, ⟨rfl, rfl⟩, h⟩ := h
  exact h

theorem lookAhead_yields {body : Matcher Outcome} {s u : State} {c : Outcome}
    (h : Yields (lookAhead body) s c u) :
    ∃ found t, Yields body s found t ∧
      ((c = none ∧ found.isSome ∧ u = { t with place := s.place, furthest := s.reach }) ∨
        (c = some .unit ∧ found = none ∧
          u = { t with place := s.place, furthest := s.furthest })) := by
  simp only [lookAhead, yields_bind, yields_get, yields_modify] at h
  obtain ⟨_, _, ⟨rfl, rfl⟩, found, t, hbody, _, _, rfl, h⟩ := h
  refine ⟨found, t, hbody, ?_⟩
  cases found with
  | some x =>
    simp only [noteFailure, yields_bind, yields_modify, yields_pure] at h
    obtain ⟨_, _, rfl, rfl, rfl⟩ := h
    exact .inl ⟨rfl, rfl, rfl⟩
  | none =>
    obtain ⟨rfl, rfl⟩ := yields_pure.1 h
    exact .inr ⟨rfl, rfl, rfl⟩

theorem lookAhead_faults {body : Matcher Outcome} {s : State} {e : RunError}
    (h : Faults (lookAhead body) s e) : Faults body s e := by
  simp only [lookAhead, faults_bind, yields_get, faults_get, false_or, faults_modify] at h
  obtain ⟨_, _, ⟨rfl, rfl⟩, h | ⟨c, t, -, _, _, -, h⟩⟩ := h
  · exact h
  · cases c <;> simp only [noteFailure, faults_bind, faults_modify, faults_pure, and_false,
      exists_false, or_self] at h

section
variable {g : Grammar} {call : Nat → Matcher Outcome}

theorem matchFields_yields {b : Option Binding} {p : Pattern} {rest : List Field} {s u : State}
    {all : Bool} (h : Yields (matchFields g call ((b, p) :: rest)) s all u) :
    (∃ c t, Yields (matchPattern g call p) s (some c) t ∧
      Yields (matchFields g call rest) (t.keep b c) all u) ∨
    (Yields (matchPattern g call p) s none u ∧ all = false) := by
  simp only [matchFields, yields_bind] at h
  obtain ⟨c, t, hp, h⟩ := h
  cases c with
  | none =>
    obtain ⟨rfl, rfl⟩ := yields_pure.1 h
    exact .inr ⟨hp, rfl⟩
  | some c =>
    cases b with
    | none => exact .inl ⟨c, t, hp, h⟩
    | some b =>
      obtain ⟨_, _, hfill, hrest⟩ := yields_bind.1 h
      rw [yields_modify.1 hfill] at hrest
      exact .inl ⟨c, t, hp, hrest⟩

theorem matchFields_faults {b : Option Binding} {p : Pattern} {rest : List Field} {s : State}
    {e : RunError} (h : Faults (matchFields g call ((b, p) :: rest)) s e) :
    Faults (matchPattern g call p) s e ∨
      ∃ c t, Yields (matchPattern g call p) s (some c) t ∧
        Faults (matchFields g call rest) (t.keep b c) e := by
  simp only [matchFields, faults_bind] at h
  obtain h | ⟨c, t, hp, h⟩ := h
  · exact .inl h
  · cases c with
    | none => exact absurd h faults_pure
    | some c =>
      cases b with
      | none => exact .inr ⟨c, t, hp, h⟩
      | some b =>
        obtain hfill | ⟨_, _, hfill, hrest⟩ := faults_bind.1 h
        · exact absurd hfill faults_modify
        · rw [yields_modify.1 hfill] at hrest
          exact .inr ⟨c, t, hp, hrest⟩

theorem matchFirst_yields {p : Pattern} {rest : List Pattern} {s u : State} {c : Outcome}
    (h : Yields (matchFirst g call (p :: rest)) s c u) :
    (c.isSome ∧ Yields (matchPattern g call p) s c u) ∨
    (∃ t, Yields (matchPattern g call p) s none t ∧
      Yields (matchFirst g call rest) { t with place := s.place } c u) := by
  simp only [matchFirst, yields_bind, yields_get] at h
  obtain ⟨_, _, ⟨rfl, rfl⟩, x, t, hp, h⟩ := h
  cases x with
  | some x =>
    obtain ⟨rfl, rfl⟩ := yields_pure.1 h
    exact .inl ⟨rfl, hp⟩
  | none =>
    simp only [goBack, yields_bind, yields_modify] at h
    obtain ⟨_, _, rfl, h⟩ := h
    exact .inr ⟨t, hp, h⟩

theorem matchFirst_faults {p : Pattern} {rest : List Pattern} {s : State} {e : RunError}
    (h : Faults (matchFirst g call (p :: rest)) s e) :
    Faults (matchPattern g call p) s e ∨
      ∃ t, Yields (matchPattern g call p) s none t ∧
        Faults (matchFirst g call rest) { t with place := s.place } e := by
  simp only [matchFirst, faults_bind, yields_get, faults_get, false_or] at h
  obtain ⟨_, _, ⟨rfl, rfl⟩, h | ⟨x, t, hp, h⟩⟩ := h
  · exact .inl h
  · cases x with
    | some x => exact absurd h faults_pure
    | none =>
      simp only [goBack, faults_bind, faults_modify, false_or, yields_modify] at h
      obtain ⟨_, _, rfl, h⟩ := h
      exact .inr ⟨t, hp, h⟩

theorem inRule_yields {index : Nat} {name : String} {body : Matcher Outcome} {s u : State}
    {c : Outcome} (h : Yields (inRule index name body) s c u) :
    ∃ t, Yields body (s.entered index name) c t ∧ u = t.returned s name c.isSome := by
  simp only [inRule, emit, yields_bind, yields_get, yields_modify, yields_pure] at h
  obtain ⟨_, _, ⟨rfl, rfl⟩, _, _, rfl, _, _, rfl, c', t, hbody, _, _, rfl, _, _, ⟨rfl, rfl⟩, _, _,
    rfl, rfl, rfl⟩ := h
  exact ⟨t, hbody, rfl⟩

theorem inRule_faults {index : Nat} {name : String} {body : Matcher Outcome} {s : State}
    {e : RunError} (h : Faults (inRule index name body) s e) :
    Faults body (s.entered index name) e := by
  simp only [inRule, emit, faults_bind, yields_get, faults_get, yields_modify, faults_modify,
    faults_pure, and_false, exists_false, or_false, false_or] at h
  obtain ⟨_, _, ⟨rfl, rfl⟩, _, _, rfl, _, _, rfl, h⟩ := h
  exact h

end

variable {g : Grammar} {limit levels index : Nat}

theorem callWithin_yields {s u : State} {c : Outcome}
    (h : Yields (callWithin g limit levels index) s c u) :
    ∃ r left, g.rule? index = some r ∧ levels = left + 1 ∧
      ∃ t, Yields (matchPattern g (callWithin g limit left) r.body) (s.entered index r.name) c t ∧
        u = t.returned s r.name c.isSome := by
  unfold callWithin at h
  split at h
  · exact absurd h yields_throw
  · rename_i r hr
    cases levels with
    | zero => exact absurd h yields_throw
    | succ left => exact ⟨r, left, hr, rfl, inRule_yields h⟩

theorem callWithin_faults {s : State} {e : RunError}
    (h : Faults (callWithin g limit levels index) s e) :
    (g.rule? index = none ∧ e = .unknownRule index) ∨
    (∃ r, g.rule? index = some r ∧ levels = 0 ∧ e = .depthLimit r.name limit) ∨
    (∃ r left, g.rule? index = some r ∧ levels = left + 1 ∧
      Faults (matchPattern g (callWithin g limit left) r.body) (s.entered index r.name) e) := by
  unfold callWithin at h
  split at h
  · rename_i hr
    exact .inl ⟨hr, (faults_throw.1 h).symm⟩
  · rename_i r hr
    cases levels with
    | zero => exact .inr (.inl ⟨r, hr, rfl, (faults_throw.1 h).symm⟩)
    | succ left => exact .inr (.inr ⟨r, left, hr, rfl, inRule_faults h⟩)

end TextGrammar.Matching
