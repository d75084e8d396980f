import TextGrammar.Proofs.Compile.Bindings
import TextGrammar.Proofs.Matching.Conformance

/-! # The shape of a capture

A pattern declares what its captures look like: text and numbers for leaves, lists for
repetitions, and for a sequence a record of its bound fields. A capture has its shape wherever the
pattern matches, if the bindings of each sequence are apart. -/

namespace TextGrammar

mutual

/-- A capture has the shape that a pattern declares. -/
inductive HasShape (g : Grammar) : Pattern → Capture → Prop
  | line {s : String} : HasShape g (.leaf .line) (.text s)
  | float {x : Float} : HasShape g (.leaf .float) (.float x)
  | integer {n : Int64} : HasShape g (.leaf .integer) (.int n)
  | literal {text : String} : HasShape g (.literal text) (.text text)
  | sequence {slots : Nat} {fields : List (Option Binding × Pattern)}
    {captured : List (String × Capture)} (hfields : FieldsHaveShape g fields captured)
    (hnames : (captured.map Prod.fst).Nodup) :
    HasShape g (.sequence slots fields) (.record captured)
  | action {slots locals : Nat} {fields : List (Option Binding × Pattern)} {body : Expr}
    {v : Value} : HasShape g (.action slots fields locals body) (.value v)
  | repetition {p : Pattern} {items : List Capture} (hitems : ∀ c ∈ items, HasShape g p c) :
    HasShape g (.repetition p) (.list items)
  | choice {p : Pattern} {ps : List Pattern} {c : Capture} (hp : p ∈ ps) (hc : HasShape g p c) :
    HasShape g (.choice ps) c
  | negation {p : Pattern} : HasShape g (.negation p) .unit
  | rule {index : Nat} {newName : Option String} {r : Rule} {c : Capture}
    (hr : g.rule? index = some r) (hc : HasShape g r.body c) : HasShape g (.rule index newName) c

/-- Captured fields are those of the bound ones of some fields, each under the name of its
binding and with its shape. -/
inductive FieldsHaveShape (g : Grammar) :
    List (Option Binding × Pattern) → List (String × Capture) → Prop
  | nil : FieldsHaveShape g [] []
  | free {p : Pattern} {rest : List (Option Binding × Pattern)}
    {captured : List (String × Capture)} (hrest : FieldsHaveShape g rest captured) :
    FieldsHaveShape g ((none, p) :: rest) captured
  | bound {b : Binding} {p : Pattern} {rest : List (Option Binding × Pattern)} {c : Capture}
    {captured : List (String × Capture)} (hc : HasShape g p c)
    (hrest : FieldsHaveShape g rest captured) :
    FieldsHaveShape g ((some b, p) :: rest) ((b.name, c) :: captured)

end

namespace Matching
variable {g : Grammar}

/-- What a sequence captures under the names of its bindings, given what its fields capture. -/
def captured : List Field → List Capture → List (String × Capture)
  | (some b, _) :: rest, c :: cs => (b.name, c) :: captured rest cs
  | (none, _) :: rest, _ :: cs => captured rest cs
  | _, _ => []

def keepAll : Action.Frame → List Field → List Capture → Action.Frame
  | frame, (b, _) :: rest, c :: cs => keepAll (keepIn frame b c) rest cs
  | frame, _, _ => frame

/-- A slot that no field is bound to is left as it is. -/
theorem getElem?_keepAll {fields : List Field} {slot : Nat}
    (h : ∀ b ∈ bindings fields, b.slot ≠ slot) (frame : Action.Frame) (cs : List Capture) :
    (keepAll frame fields cs)[slot]? = frame[slot]? := by
  induction fields generalizing frame cs with
  | nil => cases cs <;> rfl
  | cons f rest ih =>
    obtain ⟨b, p⟩ := f
    cases cs with
    | nil => rfl
    | cons c cs =>
      cases b with
      | none => exact ih h frame cs
      | some b =>
        obtain ⟨hne, hrest⟩ := List.forall_mem_cons.1 h
        rw [keepAll, ih hrest, keepIn, List.getElem?_set_ne hne]

/-- Emptying a slot that no binding has changes nothing for the bindings. -/
theorem takeFields_set {bs : List Binding} {slot : Nat} (h : ∀ b ∈ bs, b.slot ≠ slot)
    (frame : Action.Frame) (x : Option Capture) :
    takeFields (frame.set slot x) bs = takeFields frame bs := by
  induction bs generalizing frame with
  | nil => rfl
  | cons b bs ih =>
    obtain ⟨hne, hrest⟩ := List.forall_mem_cons.1 h
    rw [takeFields, takeFields, List.getElem?_set_ne hne.symm]
    rcases frame[b.slot]? with _ | _ | c
    · exact ih hrest frame
    · exact ih hrest frame
    · dsimp only
      rw [List.set_comm _ _ hne.symm, ih hrest]

/-- A sequence whose bindings are apart takes out of its frame what its fields have captured. -/
theorem takeFields_keepAll {fields : List Field} {cs : List Capture} {frame : Action.Frame}
    (h : BindingsApart frame.length (bindings fields)) (hlength : fields.length = cs.length) :
    takeFields (keepAll frame fields cs) (bindings fields) = captured fields cs := by
  induction fields generalizing frame cs with
  | nil => rfl
  | cons f rest ih =>
    obtain ⟨b, p⟩ := f
    cases cs with
    | nil => cases hlength
    | cons c cs =>
      have hlength' := Nat.succ.inj hlength
      cases b with
      | none => exact ih h hlength'
      | some b =>
        obtain ⟨hroom, hslots, hnames⟩ := h
        obtain ⟨hlt, hroom'⟩ := List.forall_mem_cons.1 hroom
        obtain ⟨hslot, hslots'⟩ := List.nodup_cons.1 hslots
        have hne : ∀ b' ∈ bindings rest, b'.slot ≠ b.slot :=
          fun b' hb' heq => hslot (heq ▸ List.mem_map_of_mem hb')
        have hkept : (keepAll (keepIn frame (some b) c) rest cs)[b.slot]? = some (some c) := by
          rw [getElem?_keepAll hne, keepIn, List.getElem?_set_self hlt]
        have hrest : BindingsApart (keepIn frame (some b) c).length (bindings rest) := by
          rw [length_keepIn]
          exact ⟨hroom', hslots', (List.nodup_cons.1 hnames).2⟩
        simp only [bindings_bound, takeFields, keepAll, hkept, captured]
        rw [takeFields_set hne, ih hrest hlength']

theorem names_captured {fields : List Field} {cs : List Capture}
    (hlength : fields.length = cs.length) :
    (captured fields cs).map Prod.fst = (bindings fields).map Binding.name := by
  induction fields generalizing cs with
  | nil => rfl
  | cons f rest ih =>
    obtain ⟨b, p⟩ := f
    cases cs with
    | nil => cases hlength
    | cons c cs =>
      have hnames := ih (Nat.succ.inj hlength)
      cases b with
      | none => exact hnames
      | some b => simp only [captured, List.map_cons, bindings_bound, hnames]

theorem captured_hasShape {fields : List Field} {cs : List Capture}
    (h : List.Forall₂ (fun f c => HasShape g f.2 c) fields cs) :
    FieldsHaveShape g fields (captured fields cs) := by
  induction h with
  | nil => exact .nil
  | @cons f c rest cs hc _ ih =>
    obtain ⟨b, p⟩ := f
    cases b with
    | none => exact .free ih
    | some b => exact .bound hc ih

theorem readNumber?_captures {lexeme? : List Char → Option (List Char)}
    {capture? : List Char → Option Capture} {text : List Char} {c : Capture} {taken : Nat}
    (h : Leaf.readNumber? lexeme? capture? text = some (c, taken)) :
    ∃ lexeme, capture? lexeme = some c := by
  unfold Leaf.readNumber? at h
  simp only [Option.bind_eq_bind, Option.bind_eq_some_iff] at h
  obtain ⟨lexeme, -, capture, hcapture, htaken⟩ := h
  cases htaken
  exact ⟨lexeme, hcapture⟩

theorem read?_hasShape {l : Leaf} {text : List Char} {c : Capture} {taken : Nat}
    (h : l.read? text = some (c, taken)) : HasShape g (.leaf l) c := by
  cases l with
  | line =>
    unfold Leaf.read? Leaf.readLine? at h
    dsimp only at h
    split at h
    · cases h
    · cases h
      exact .line
  | float =>
    obtain ⟨lexeme, hc⟩ := readNumber?_captures h
    obtain ⟨x, -, rfl⟩ := Option.map_eq_some_iff.1 hc
    exact .float
  | integer =>
    obtain ⟨lexeme, hc⟩ := readNumber?_captures h
    obtain ⟨n, -, rfl⟩ := Option.map_eq_some_iff.1 hc
    exact .integer

/-- What a goal captures has its shape: a record of a sequence holds what its first fields have
left in their slots, and then what the rest captures. -/
def Goal.Fits (g : Grammar) : Goal → Capture → Prop
  | .pattern p, c => p.Apart → HasShape g p c
  | .fields own rest (.record bs), c => Pattern.FieldsApart rest → ∃ cs,
    List.Forall₂ (fun f c => HasShape g f.2 c) rest cs ∧
      c = .record (takeFields (keepAll own rest cs) bs)
  | .fields _ _ (.value _ _), c => ∃ v, c = .value v

/-- What a sequence captures has its shape. -/
theorem Goal.Fits.sequence {slots : Nat} {fields : List Field} {c : Capture}
    (h : Goal.Fits g (.fields (List.replicate slots none) fields (.record (bindings fields))) c) :
    Goal.Fits g (.pattern (.sequence slots fields)) c := by
  rintro ⟨hbindings, hfields⟩
  obtain ⟨cs, hcs, rfl⟩ := h hfields
  have hroom : BindingsApart (List.replicate slots (none : Option Capture)).length
      (bindings fields) := by
    rwa [List.length_replicate]
  rw [takeFields_keepAll hroom hcs.length_eq]
  refine .sequence (captured_hasShape hcs) ?_
  rw [names_captured hcs.length_eq]
  exact hbindings.names

theorem Ending.verdict_value {own : Action.Frame} {frames : List Action.Frame}
    {text left : List Char} {locals : Nat} {body : Expr} {c : Capture}
    (h : (Ending.value locals body).verdict own frames text = .matched c left) :
    ∃ v, c = .value v := by
  unfold Ending.verdict at h
  dsimp only at h
  split at h
  · rename_i v _
    cases h
    exact ⟨v, rfl⟩
  · cases h

/-- A capture has the shape that its goal declares, if the bindings in all rules are apart. -/
theorem Parses.fits (hg : ∀ r ∈ g.rules, r.body.Apart) {frames : List Action.Frame} {goal : Goal}
    {text left : List Char} {v : Verdict} {c : Capture} (h : Parses g frames goal text v)
    (hv : v = .matched c left) : goal.Fits g c := by
  induction h generalizing c left with
  | leaf hread =>
    cases hv
    exact fun _ => read?_hasShape hread
  | literal =>
    cases hv
    exact fun _ => .literal
  | sequence _ ih => exact Goal.Fits.sequence (ih hv)
  | action _ ih =>
    obtain ⟨v, rfl⟩ := ih hv
    exact fun _ => .action
  | @done _ _ ending =>
    cases ending with
    | record bs =>
      cases hv
      exact fun _ => ⟨[], .nil, rfl⟩
    | value locals body => exact Ending.verdict_value hv
  | @field _ _ b p rest ending _ c _ _ _ _ ihp ihrest =>
    cases ending with
    | record bs =>
      rintro ⟨hp, hrest⟩
      obtain ⟨cs, hcs, rfl⟩ := ihrest hv hrest
      exact ⟨c :: cs, .cons (ihp rfl hp) hcs, rfl⟩
    | value locals body => exact ihrest hv
  | noField _ hno =>
    cases hv
    exact absurd trivial hno
  | round _ _ _ ihp ihrest =>
    cases hv
    intro hapart
    cases ihrest rfl hapart with
    | repetition hitems => exact .repetition (List.forall_mem_cons.2 ⟨ihp rfl hapart, hitems⟩)
  | idleRound | noRound =>
    cases hv
    exact fun _ => .repetition nofun
  | alternative _ _ ihp => exact fun hapart => .choice List.mem_cons_self (ihp hv hapart.1)
  | nextAlternative _ _ _ ihps =>
    intro hapart
    cases ihps hv hapart.2 with
    | choice hp hc => exact .choice (List.mem_cons_of_mem _ hp) hc
  | negation =>
    cases hv
    exact fun _ => .negation
  | @rule _ _ _ r _ inner hr _ ih =>
    cases inner with
    | matched c' left' =>
      cases hv
      exact fun _ => .rule hr (ih rfl (hg r (List.mem_of_getElem? hr)))
    | failed => cases hv
    | stopped => cases hv
  | noLeaf | noLiteral | roundStopped | stoppedRound | noAlternative | noNegation
  | stoppedNegation | noRule => cases hv

end Matching

end TextGrammar
