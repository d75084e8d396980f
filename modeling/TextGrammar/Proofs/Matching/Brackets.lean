import TextGrammar.Log

/-! # Balanced events

A rule that is entered and left is logged as a pair of events, with the pairs of the rules that it
calls between the two. A log that ends early lacks the events that close its last pairs. -/

namespace TextGrammar.Log

structure Entry where
  rule : String
  position : Nat
deriving DecidableEq, Repr

def Event.isBracket : Event → Bool
  | .entering .. | .leaving .. => true
  | _ => false

def brackets (log : List Event) : List Event := log.filter Event.isBracket

def afterEvent (opened : List Entry) : Event → List Entry
  | .entering rule position => opened ++ [⟨rule, position⟩]
  | .leaving .. => opened.dropLast
  | _ => opened

/-- The entries of a log that none of its events closes, the innermost one last. -/
def unclosed (events : List Event) : List Entry := events.foldl afterEvent []

/-- Events that enter and leave rules in pairs, no more than `levels` of which are open at a time.
Each pair names one rule. It is entered at the floor or behind it, and what is between its events
has the place where it is entered as its floor. A rule that matched is left where it was entered
or behind, within the length of the input, and one that failed is left where it was entered. -/
inductive Bracketed (length : Nat) : (levels floor : Nat) → List Event → Prop
  | nil {levels floor : Nat} : Bracketed length levels floor []
  | call {levels floor enter leave : Nat} {rule : String} {matched : Bool}
    {inner rest : List Event} (hfloor : floor ≤ enter)
    (hinner : Bracketed length levels enter inner)
    (hmatched : matched = true → enter ≤ leave ∧ leave ≤ length)
    (hfailed : matched = false → leave = enter)
    (hrest : Bracketed length (levels + 1) floor rest) :
    Bracketed length (levels + 1) floor
      (.entering rule enter :: (inner ++ .leaving rule leave matched :: rest))

section
variable {length levels floor : Nat} {events more : List Event}

namespace Bracketed

theorem append (h : Bracketed length levels floor events) :
    Bracketed length levels floor more → Bracketed length levels floor (events ++ more) := by
  induction h with
  | nil => exact id
  | call hfloor hinner hmatched hfailed _ _ ih =>
    intro hmore
    rw [List.cons_append, List.append_assoc, List.cons_append]
    exact .call hfloor hinner hmatched hfailed (ih hmore)

theorem mono {lower : Nat} (h : Bracketed length levels floor events) (hle : lower ≤ floor) :
    Bracketed length levels lower events := by
  induction h with
  | nil => exact .nil
  | call hfloor hinner hmatched hfailed _ _ ih =>
    exact .call (Nat.le_trans hle hfloor) hinner hmatched hfailed (ih hle)

/-- One pair. -/
theorem pair {enter : Nat} (rule : String) (leave : Nat) (matched : Bool)
    (h : Bracketed length levels enter events)
    (hmatched : matched = true → enter ≤ leave ∧ leave ≤ length)
    (hfailed : matched = false → leave = enter) :
    Bracketed length (levels + 1) enter
      (.entering rule enter :: (events ++ [.leaving rule leave matched])) :=
  .call (Nat.le_refl _) h hmatched hfailed .nil

theorem isBracket (h : Bracketed length levels floor events) :
    ∀ e ∈ events, e.isBracket = true := by
  induction h with
  | nil => nofun
  | call _ _ _ _ _ ihinner ihrest =>
    intro e he
    rw [List.mem_cons, List.mem_append, List.mem_cons] at he
    obtain rfl | he | rfl | he := he
    · rfl
    · exact ihinner e he
    · rfl
    · exact ihrest e he

/-- Events in pairs leave open what was open before them. -/
theorem foldl_afterEvent (h : Bracketed length levels floor events) (opened : List Entry) :
    events.foldl afterEvent opened = opened := by
  induction h generalizing opened with
  | nil => rfl
  | call _ _ _ _ _ ihinner ihrest =>
    rw [List.foldl_cons, List.foldl_append, List.foldl_cons, ihinner, ihrest, afterEvent,
      afterEvent, List.dropLast_concat]

/-- No more pairs are open at any point than there are levels. -/
theorem length_foldl_le (h : Bracketed length levels floor events) {front : List Event}
    (hfront : front <+: events) (opened : List Entry) :
    (front.foldl afterEvent opened).length ≤ opened.length + levels := by
  induction h generalizing front opened with
  | nil =>
    rw [List.prefix_nil.1 hfront]
    exact Nat.le_add_right _ _
  | @call levels floor enter leave rule matched inner rest _ hinner _ _ _ ihinner ihrest =>
    cases front with
    | nil => exact Nat.le_add_right _ _
    | cons first front =>
      obtain ⟨rfl, hbehind⟩ := List.cons_prefix_cons.1 hfront
      have hopened : (afterEvent opened (.entering rule enter)).length = opened.length + 1 := by
        simp [afterEvent]
      rw [List.foldl_cons]
      -- The front ends within the call, or it goes on to where the call is left.
      obtain hshort | ⟨tail, rfl⟩ :=
        List.prefix_or_prefix_of_prefix hbehind (List.prefix_append inner _)
      · have hle := ihinner hshort (afterEvent opened (.entering rule enter))
        omega
      · rw [List.prefix_append_right_inj] at hbehind
        rw [List.foldl_append, hinner.foldl_afterEvent]
        cases tail with
        | nil =>
          rw [List.foldl_nil]
          omega
        | cons last tail =>
          obtain ⟨rfl, htail⟩ := List.cons_prefix_cons.1 hbehind
          have hclosed : afterEvent (afterEvent opened (.entering rule enter))
              (.leaving rule leave matched) = opened := List.dropLast_concat
          rw [List.foldl_cons, hclosed]
          exact ihrest htail opened

theorem length_unclosed_le (h : Bracketed length levels floor events) {front : List Event}
    (hfront : front <+: events) : (unclosed front).length ≤ levels := by
  have hle := h.length_foldl_le hfront []
  rwa [List.length_nil, Nat.zero_add] at hle

end Bracketed

/-- Events in pairs, up to a point inside some pairs that are still open, the innermost last. -/
inductive Pending (length : Nat) : (levels floor : Nat) → List Entry → List Event → Prop
  | closed {levels floor : Nat} {events : List Event} (h : Bracketed length levels floor events) :
    Pending length levels floor [] events
  | inside {levels floor enter : Nat} {rule : String} {opened : List Entry}
    {front inner : List Event} (hfront : Bracketed length (levels + 1) floor front)
    (hfloor : floor ≤ enter) (hinner : Pending length levels enter opened inner) :
    Pending length (levels + 1) floor (⟨rule, enter⟩ :: opened)
      (front ++ .entering rule enter :: inner)

namespace Pending
variable {opened : List Entry}

/-- Going on with pairs that are entered behind all that is open. -/
theorem append {position : Nat} (h : Pending length levels floor opened events) :
    Bracketed length (levels - opened.length) position more → floor ≤ position →
      (∀ entry ∈ opened, entry.position ≤ position) →
      Pending length levels floor opened (events ++ more) := by
  induction h with
  | closed h =>
    intro hmore hfloor _
    exact .closed (h.append (hmore.mono hfloor))
  | inside hfront hfloor _ ih =>
    intro hmore _ hopened
    obtain ⟨henter, hopened⟩ := List.forall_mem_cons.1 hopened
    rw [List.length_cons, Nat.add_sub_add_right] at hmore
    rw [List.append_assoc, List.cons_append]
    exact .inside hfront hfloor (ih hmore henter hopened)

/-- Entering one more rule behind all that is open. -/
theorem enter {rule : String} {position : Nat} (h : Pending length levels floor opened events) :
    opened.length < levels → floor ≤ position → (∀ entry ∈ opened, entry.position ≤ position) →
      Pending length levels floor (opened ++ [⟨rule, position⟩])
        (events ++ [.entering rule position]) := by
  induction h with
  | @closed levels _ _ h =>
    intro hlevels hfloor _
    obtain ⟨levels, rfl⟩ : ∃ k, levels = k + 1 := ⟨levels - 1, by simp at hlevels; omega⟩
    exact .inside h hfloor (.closed .nil)
  | inside hfront hfloor _ ih =>
    intro hlevels _ hopened
    obtain ⟨henter, hopened⟩ := List.forall_mem_cons.1 hopened
    rw [List.append_assoc, List.cons_append, List.cons_append]
    exact .inside hfront hfloor (ih (Nat.lt_of_succ_lt_succ hlevels) henter hopened)

/-- What is open can be closed. -/
theorem closable (h : Pending length levels floor opened events) :
    ∃ more, Bracketed length levels floor (events ++ more) := by
  induction h with
  | closed h => exact ⟨[], by rwa [List.append_nil]⟩
  | @inside _ _ enter rule _ _ _ hfront hfloor _ ih =>
    obtain ⟨more, hmore⟩ := ih
    refine ⟨more ++ [.leaving rule enter false], ?_⟩
    have hpair := hmore.pair rule enter false nofun fun _ => rfl
    rw [List.append_assoc, List.cons_append, ← List.append_assoc]
    exact hfront.append (hpair.mono hfloor)

theorem foldl_afterEvent (h : Pending length levels floor opened events) (outer : List Entry) :
    events.foldl afterEvent outer = outer ++ opened := by
  induction h generalizing outer with
  | closed h => rw [h.foldl_afterEvent, List.append_nil]
  | inside hfront _ _ ih =>
    rw [List.foldl_append, hfront.foldl_afterEvent, List.foldl_cons, ih, afterEvent,
      List.append_assoc, List.singleton_append]

/-- The open pairs are those that no event closes. -/
theorem unclosed_eq (h : Pending length levels floor opened events) : unclosed events = opened :=
  h.foldl_afterEvent []

theorem brackets_eq (h : Pending length levels floor opened events) : brackets events = events := by
  obtain ⟨more, hmore⟩ := h.closable
  exact List.filter_eq_self.2 fun e he => hmore.isBracket e (List.mem_append_left _ he)

/-- No more pairs are open at any point than there are levels. -/
theorem length_unclosed_le (h : Pending length levels floor opened events) {front : List Event}
    (hfront : front <+: events) : (unclosed front).length ≤ levels := by
  obtain ⟨more, hmore⟩ := h.closable
  exact hmore.length_unclosed_le (hfront.trans (List.prefix_append events more))

end Pending

end

end TextGrammar.Log
