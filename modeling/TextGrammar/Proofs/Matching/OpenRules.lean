import TextGrammar.Proofs.Matching.Outcome
import TextGrammar.Proofs.Matching.Reach
import TextGrammar.Proofs.Matching.Trace

/-! # The rules that are open

On the way from the start of a run to a stage that it comes to, each lead from a call to the body
of its rule opens a rule. These are the rules that are open at the stage, since a rule that was
left is passed in one lead. They are as many as the depth counts, and they are the entries of the
log that no event closes. A stage that raises an error is the last one of its run. -/

namespace TextGrammar.Matching
open Log (Entry Pending)

section
variable (g : Grammar) (limit : Nat)

/-- The rule that is opened when a stage is entered further: that of a call. -/
def Stage.opening : Stage → List Entry
  | (.call _ index, s) => (g.rule? index).toList.map fun r => ⟨r.name, s.place.offset⟩
  | _ => []

/-- A run that starts with a stage comes to another one, where some of the rules it has entered
on the way are open, the innermost last. -/
inductive Inside (a : Stage) : List Entry → Stage → Prop
  | start : Inside a [] a
  | lead {opened : List Entry} {b c : Stage} (h : Inside a opened b) (hbc : Leads g limit b c) :
    Inside a (opened ++ b.opening g) c

end

variable {g : Grammar} {limit : Nat} {a b : Stage} {opened : List Entry}

theorem Reaches.inside (h : Reaches g limit a b) : ∃ opened, Inside g limit a opened b := by
  induction h with
  | refl => exact ⟨[], .start⟩
  | tail _ hbc ih =>
    obtain ⟨opened, hopened⟩ := ih
    exact ⟨_, hopened.lead hbc⟩

/-- A matcher that is started in a state ends the run with an error, in another state. -/
def HaltsAt {α : Type} (m : Matcher α) (s : State) (e : RunError) (u : State) : Prop :=
  exec m s = (.error e, u)

section
variable {α β : Type} {m : Matcher α} {f : α → Matcher β} {s t u : State} {e : RunError}

theorem HaltsAt.bind (h : HaltsAt m s e u) (f : α → Matcher β) : HaltsAt (m >>= f) s e u := by
  unfold HaltsAt
  rw [exec_bind, h]

theorem Yields.haltsAt {x : α} (h : Yields m s x t) (hf : HaltsAt (f x) t e u) :
    HaltsAt (m >>= f) s e u := by
  unfold HaltsAt
  rw [exec_bind, h]
  exact hf

end

/-- What a matcher is busy with at a stage ends the run with an error, in a state. -/
def Stage.HaltsAt (g : Grammar) (limit : Nat) : Stage → RunError → State → Prop
  | (.call levels index, s), e, u => Matching.HaltsAt (callWithin g limit levels index) s e u
  | (.pattern levels p, s), e, u => Matching.HaltsAt (matchWithin g limit levels p) s e u
  | (.fields levels rest none, s), e, u =>
    Matching.HaltsAt (matchFields g (callWithin g limit levels) rest) s e u
  | (.fields levels rest (some (locals, body)), s), e, u =>
    Matching.HaltsAt (matchFields g (callWithin g limit levels) rest) s e u ∨
      ∃ t, Yields (matchFields g (callWithin g limit levels) rest) s true t ∧
        Matching.HaltsAt (yieldValue g locals body) t e u
  | (.first levels ps, s), e, u =>
    Matching.HaltsAt (matchFirst g (callWithin g limit levels) ps) s e u
  | (.rounds levels p count, s), e, u =>
    Matching.HaltsAt (repeatUpTo (matchWithin g limit levels p) count) s e u
  | (.evaluation locals body, s), e, u => Matching.HaltsAt (yieldValue g locals body) s e u

section
variable {call : Nat → Matcher Outcome} {slots : Nat} {b : Option Binding} {p : Pattern}
  {rest : List Field} {fields : Matcher Bool} {yielded body : Matcher Outcome} {s t u : State}
  {e : RunError} {c : Capture}

theorem HaltsAt.inFrame (h : HaltsAt fields (s.opened slots) e u) (yielded : Matcher Outcome) :
    HaltsAt (inFrame slots fields yielded) s e u :=
  HaltsAt.bind h _

theorem HaltsAt.inFrame_yielded (ht : Yields fields (s.opened slots) true t)
    (h : HaltsAt yielded t e u) : HaltsAt (Matching.inFrame slots fields yielded) s e u :=
  Yields.haltsAt (yields_get.2 ⟨rfl, rfl⟩)
    (Yields.haltsAt (x := ()) (yields_modify.2 rfl) (ht.haltsAt (h.bind _)))

theorem HaltsAt.firstField (h : HaltsAt (matchPattern g call p) s e u) :
    HaltsAt (matchFields g call ((b, p) :: rest)) s e u :=
  h.bind _

theorem HaltsAt.laterFields (hp : Yields (matchPattern g call p) s (some c) t)
    (h : HaltsAt (matchFields g call rest) (t.keep b c) e u) :
    HaltsAt (matchFields g call ((b, p) :: rest)) s e u := by
  refine hp.haltsAt ?_
  cases b with
  | none => exact h
  | some b => exact Yields.haltsAt (x := ()) (yields_modify.2 rfl) h

theorem Yields.laterFields {all : Bool} (hp : Yields (matchPattern g call p) s (some c) t)
    (h : Yields (matchFields g call rest) (t.keep b c) all u) :
    Yields (matchFields g call ((b, p) :: rest)) s all u := by
  refine yields_bind.2 ⟨some c, t, hp, ?_⟩
  cases b with
  | none => exact h
  | some b => exact yields_bind.2 ⟨(), _, yields_modify.2 rfl, h⟩

theorem HaltsAt.laterRounds {rounds : Nat} (hbody : Yields body s (some c) t)
    (hlt : s.place.offset < t.place.offset) (h : HaltsAt (repeatUpTo body rounds) t e u) :
    HaltsAt (repeatUpTo body (rounds + 1)) s e u := by
  refine Yields.haltsAt (yields_get.2 ⟨rfl, rfl⟩) (hbody.haltsAt ?_)
  refine Yields.haltsAt (yields_get.2 ⟨rfl, rfl⟩) ?_
  rw [if_pos hlt]
  exact h.bind _

end

/-- What stops a run at a stage stops it at every stage that leads there. -/
theorem Leads.haltsAt (h : Leads g limit a b) {e : RunError} {u : State}
    (hb : b.HaltsAt g limit e u) : a.HaltsAt g limit e u := by
  cases h with
  | @body levels index r s hr =>
    change HaltsAt (callWithin g limit (levels + 1) index) s e u
    unfold callWithin
    rw [hr]
    exact HaltsAt.bind hb _
  | sequence => exact HaltsAt.inFrame hb _
  | action =>
    obtain hfields | ⟨t, ht, hyield⟩ := hb
    · exact hfields.inFrame _
    · exact hyield.inFrame_yielded ht
  | repetition => exact HaltsAt.bind hb _
  | choice => exact hb
  | negation => exact HaltsAt.bind hb _
  | rule => exact hb
  | @field _ _ _ _ action =>
    cases action with
    | none => exact HaltsAt.firstField hb
    | some action => exact .inl (HaltsAt.firstField hb)
  | @nextField _ _ _ _ action _ _ _ hp =>
    cases action with
    | none => exact HaltsAt.laterFields hp hb
    | some action =>
      obtain hfields | ⟨t, ht, hyield⟩ := hb
      · exact .inl (hfields.laterFields hp)
      · exact .inr ⟨t, hp.laterFields ht, hyield⟩
  | evaluation => exact .inr ⟨_, yields_pure.2 ⟨rfl, rfl⟩, hb⟩
  | alternative => exact HaltsAt.bind hb _
  | nextAlternative hp =>
    exact Yields.haltsAt (yields_get.2 ⟨rfl, rfl⟩)
      (hp.haltsAt (Yields.haltsAt (x := ()) (yields_modify.2 rfl) hb))
  | round => exact HaltsAt.bind hb _
  | nextRound hp hlt => exact HaltsAt.laterRounds hp hlt hb

/-- A stage that raises an error is stopped in its own state. -/
theorem Raises.haltsAt {e : RunError} (h : Raises g limit b e) : b.HaltsAt g limit e b.2 := by
  cases h with
  | @unknownRule levels index s hr =>
    change HaltsAt (callWithin g limit levels index) s _ s
    unfold callWithin
    rw [hr]
    rfl
  | @depthLimit index r s hr =>
    change HaltsAt (callWithin g limit 0 index) s _ s
    unfold callWithin
    rw [hr]
    rfl
  | @action locals body fault s hfault =>
    change HaltsAt (yieldValue g locals body) s _ s
    unfold yieldValue
    refine Yields.haltsAt (yields_get.2 ⟨rfl, rfl⟩) ?_
    rw [hfault]
    rfl

/-- A run that comes to a stage that raises an error ends there. -/
theorem Inside.haltsAt (h : Inside g limit a opened b) {e : RunError} (hb : Raises g limit b e) :
    a.HaltsAt g limit e b.2 := by
  have hstops := hb.haltsAt
  revert hstops
  generalize b.2 = u
  clear hb
  induction h with
  | start => exact id
  | lead _ hbc ih => exact fun hstops => ih (hbc.haltsAt hstops)

def Task.HasRoom (limit opened : Nat) : Task → Prop
  | .call levels _ | .pattern levels _ | .fields levels _ _ | .first levels _
  | .rounds levels _ _ => opened + levels = limit
  | .evaluation _ _ => opened ≤ limit

/-- A state in which some rules are open: the depth counts them, none was entered behind the
place, and the log has their entries open and all other ones closed. -/
structure State.HasOpen (length limit : Nat) (opened : List Entry) (s : State) : Prop where
  total : s.total = length
  depth : s.depth = opened.length
  behind : ∀ entry ∈ opened, entry.position ≤ s.place.offset
  trace : Pending length limit 0 opened s.trace

namespace State.HasOpen
variable {length levels : Nat} {s t : State}

/-- A part of a pattern that was matched has left open what was open. -/
theorem follows (h : s.HasOpen length limit opened) (hroom : opened.length + levels = limit)
    (ht : t.Follows s) (hlogged : Logged length levels s t) : t.HasOpen length limit opened := by
  obtain ⟨events, htrace, hevents⟩ := hlogged
  have hlevels : levels = limit - opened.length := by omega
  refine ⟨ht.total.trans h.total, ht.depth.trans h.depth, fun entry hentry => ?_, ?_⟩
  · exact Nat.le_trans (h.behind entry hentry) ht.ahead.offset_le
  · rw [htrace]
    exact h.trace.append (hlevels ▸ hevents) (Nat.zero_le _) h.behind

/-- Entering a rule opens it. -/
theorem entered (h : s.HasOpen length limit opened) (hroom : opened.length < limit) (index : Nat)
    (name : String) :
    (s.entered index name).HasOpen length limit (opened ++ [⟨name, s.place.offset⟩]) where
  total := h.total
  depth := by rw [List.length_append, List.length_singleton, ← h.depth]; rfl
  behind entry hentry := by
    obtain hentry | hentry := List.mem_append.1 hentry
    · exact h.behind entry hentry
    · rw [List.mem_singleton.1 hentry]
      exact Nat.le_refl _
  trace := by
    rw [State.trace_entered]
    exact h.trace.enter hroom (Nat.zero_le _) h.behind

end State.HasOpen

/-- At a stage some rules are open, and there is room for more up to the limit. -/
def Stage.HasOpen (length limit : Nat) (opened : List Entry) (b : Stage) : Prop :=
  b.1.HasRoom limit opened.length ∧ b.2.HasOpen length limit opened

/-- What is entered from a stage that is not a call opens no rule. -/
theorem Stage.HasOpen.unopened {length : Nat} {c : Stage} (h : c.HasOpen length limit opened)
    (hb : b.opening g = []) : c.HasOpen length limit (opened ++ b.opening g) := by
  rwa [hb, List.append_nil]

/-- Only a call opens a rule. What is matched before the next stage has left its rules again. -/
theorem Leads.hasOpen {length : Nat} (h : Leads g limit a b)
    (ha : a.HasOpen length limit opened) : b.HasOpen length limit (opened ++ a.opening g) := by
  obtain ⟨hroom, hopen⟩ := ha
  have hatomic := callWithin_atomic g limit
  have hlogs : ∀ levels index, Logs length levels (callWithin g limit levels index) :=
    callWithin_logs g limit
  cases h with
  | @body levels index r s hr =>
    have hopening : Stage.opening g (.call (levels + 1) index, s) = [⟨r.name, s.place.offset⟩] := by
      simp [Stage.opening, hr]
    have hroom' : opened.length + (levels + 1) = limit := hroom
    rw [hopening]
    refine ⟨?_, hopen.entered (by omega) index r.name⟩
    simp only [Task.HasRoom, List.length_append, List.length_singleton]
    omega
  | sequence | action =>
    exact Stage.HasOpen.unopened ⟨hroom, hopen.total, hopen.depth, hopen.behind, hopen.trace⟩ rfl
  | repetition | choice | negation | rule | field | alternative | round =>
    exact Stage.HasOpen.unopened ⟨hroom, hopen⟩ rfl
  | @nextField levels b p rest action s t c hp =>
    have hfollows := (matchPattern_atomic (hatomic levels) p hp).1.toFollows
    have hlogged := matchPattern_logs (hatomic levels) (hlogs levels) p hp hopen.total
    have hmatched := hopen.follows hroom hfollows hlogged
    exact Stage.HasOpen.unopened ⟨hroom, hmatched.follows hroom (t.keep_follows b c)
      (.of_trace_eq (t.trace_keep b c))⟩ rfl
  | evaluation =>
    exact Stage.HasOpen.unopened ⟨Nat.le.intro hroom, hopen⟩ rfl
  | @nextAlternative levels p rest s t hp =>
    have hfollows := (matchPattern_atomic (hatomic levels) p hp).1.rewind t.furthest
    have hlogged := matchPattern_logs (hatomic levels) (hlogs levels) p hp hopen.total
    exact Stage.HasOpen.unopened ⟨hroom, hopen.follows hroom hfollows.toFollows hlogged⟩ rfl
  | @nextRound levels p count s t c hp hlt =>
    have hfollows := (matchPattern_atomic (hatomic levels) p hp).1.toFollows
    have hlogged := matchPattern_logs (hatomic levels) (hlogs levels) p hp hopen.total
    exact Stage.HasOpen.unopened ⟨hroom, hopen.follows hroom hfollows hlogged⟩ rfl

/-- At every point of a run the rules that it is inside are open. -/
theorem Inside.hasOpen {index rule : Nat} {input : List Char}
    (h : Inside g limit (.call limit index, .start input rule) opened b) :
    b.HasOpen (Text.byteLength input) limit opened := by
  induction h with
  | start =>
    exact ⟨Nat.zero_add _, Nat.zero_add _, rfl, nofun, .closed .nil⟩
  | lead _ hbc ih => exact hbc.hasOpen ih

end TextGrammar.Matching

namespace TextGrammar.Grammar
open Log (Entry)
open Matching (State Inside Raises)

/-- Rules that are open where a call from the front of an input is ended by an error, the
innermost last. -/
def OpenAtFault (g : Grammar) (maxDepth index : Nat) (input : List Char) (e : RunError)
    (opened : List Entry) : Prop :=
  ∃ b, Inside g maxDepth (.call maxDepth index, .start input g.start) opened b ∧
    Raises g maxDepth b e

variable {g : Grammar} {maxDepth index : Nat} {input : List Char} {e : RunError}
  {opened : List Entry}

theorem exists_openAtFault (h : (g.callFrom maxDepth index input).1 = .error e) :
    ∃ opened, g.OpenAtFault maxDepth index input e opened := by
  obtain ⟨b, hb, hraises⟩ := Matching.callWithin_comesTo (callFrom_faults h)
  obtain ⟨opened, hopened⟩ := hb.inside
  exact ⟨opened, b, hopened, hraises⟩

/-- A call is never ended by a mismatch. -/
theorem isNoMatch_of_callFrom (h : (g.callFrom maxDepth index input).1 = .error e) :
    e.isNoMatch = false := by
  obtain ⟨_, _, _, hraises⟩ := exists_openAtFault h
  cases hraises <;> rfl

/-- A call is left with the rules open that were open where it ended. -/
theorem OpenAtFault.hasOpen (h : g.OpenAtFault maxDepth index input e opened) :
    (g.callFrom maxDepth index input).2.HasOpen (Text.byteLength input) maxDepth opened := by
  obtain ⟨b, hb, hraises⟩ := h
  have hstops : g.callFrom maxDepth index input = (.error e, b.2) := hb.haltsAt hraises
  rw [hstops]
  exact hb.hasOpen.2

/-- The nesting limit ends a call where as many rules are open as it allows. -/
theorem OpenAtFault.length_eq {rule : String} {n : Nat}
    (h : g.OpenAtFault maxDepth index input (.depthLimit rule n) opened) :
    opened.length = maxDepth := by
  obtain ⟨b, hb, hraises⟩ := h
  have hroom := hb.hasOpen.1
  cases hraises with
  | depthLimit => exact hroom

end TextGrammar.Grammar
