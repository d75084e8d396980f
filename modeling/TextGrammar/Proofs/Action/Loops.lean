import TextGrammar.Proofs.Action.Breaks

/-! # The rounds of a loop

A loop runs its body for one integer after the other, from its lower bound up to below its upper
one, until a round comes to a break of the loop or faults. The integers are those of the bounds,
without any arithmetic of 64 bits that could overflow. -/

namespace TextGrammar.Action
open Number (InRange inRange_toInt toInt_of_integer?)

/-- A round of a loop: its number, and the locals with which its body starts. -/
structure Round where
  number : Int
  start : Locals

/-- A loop is at a number, below its upper bound or not, and runs some rounds from there on. It ends
with locals or with a fault. -/
inductive LoopRuns (frames : List Frame) (slot : Nat) (body : Block) (stop : Int) :
    Int → Locals → List Round → Except Fault Locals → Prop
  /-- All numbers have had their rounds. -/
  | exhausted {i : Int} {L : Locals} (h : stop ≤ i) :
    LoopRuns frames slot body stop i L [] (.ok L)
  /-- A round comes to no break, and the next number follows. -/
  | onward {i : Int} {n : Int64} {L M : Locals} {rounds : List Round}
    {result : Except Fault Locals} (h : i < stop) (hn : n.toInt = i)
    (hbody : Yields (runBlock frames body) (L.set slot (some (.int n))) .onward M)
    (hnone : ∀ K, ¬Breaks frames (.block body, L.set slot (some (.int n))) K)
    (hrest : LoopRuns frames slot body stop (i + 1) M rounds result) :
    LoopRuns frames slot body stop i L (⟨i, L.set slot (some (.int n))⟩ :: rounds) result
  /-- A round comes to a break of the loop, which ends with the locals as they are there. -/
  | left {i : Int} {n : Int64} {L M : Locals} (h : i < stop) (hn : n.toInt = i)
    (hbreak : Breaks frames (.block body, L.set slot (some (.int n))) M) :
    LoopRuns frames slot body stop i L [⟨i, L.set slot (some (.int n))⟩] (.ok M)
  /-- A round faults. -/
  | faulted {i : Int} {n : Int64} {L : Locals} {fault : Fault} (h : i < stop) (hn : n.toInt = i)
    (hbody : Faults (runBlock frames body) (L.set slot (some (.int n))) fault) :
    LoopRuns frames slot body stop i L [⟨i, L.set slot (some (.int n))⟩] (.error fault)

section
variable {frames : List Frame} {slot : Nat} {body : Block} {stop i : Int}
  {L : Locals} {rounds : List Round} {result : Except Fault Locals}

/-- A round leaves the loop as many locals as it found. -/
theorem length_of_round {n : Value} {flow : Flow} {M : Locals}
    (h : Yields (runBlock frames body) (L.set slot (some n)) flow M) : M.length = L.length :=
  (runBlock_grows frames body h).length.trans List.length_set

/-- A round starts with the number that its loop is at. -/
theorem writeLocal_round {name : String} {n : Int64} (hn : n.toInt = i) (hslot : slot < L.length) :
    Yields (writeLocal name slot (.int (Int64.ofInt i))) L () (L.set slot (some (.int n))) := by
  rw [← hn, Int64.ofInt_toInt]
  exact writeLocal_yields.2 ⟨hslot, rfl⟩

theorem toNat_sub_of_lt (h : i < stop) : (stop - i).toNat = (stop - (i + 1)).toNat + 1 := by
  omega

/-- The number after one below the upper bound is one of 64 bits. -/
theorem inRange_next (hi : InRange i) (hstop : InRange stop) (h : i < stop) : InRange (i + 1) := by
  unfold InRange at *
  omega

/-- A block that is run to its end comes to no break of its loop. -/
theorem not_breaks_of_onward {M : Locals} (h : Yields (runBlock frames body) L .onward M)
    (K : Locals) : ¬Breaks frames (.block body, L) K := by
  intro hbreak
  cases (runBlock_left_iff.2 hbreak).symm.trans h

namespace LoopRuns

/-- The numbers of the rounds follow one another from the first one on. -/
theorem numbers (h : LoopRuns frames slot body stop i L rounds result) :
    rounds.map Round.number = (List.range rounds.length).map fun k : Nat => i + k := by
  induction h with
  | exhausted => rfl
  | left | faulted => simp
  | onward _ _ _ _ _ ih =>
    rw [List.length_cons, List.range_succ_eq_map, List.map_cons, List.map_cons, List.map_map, ih]
    refine congrArg₂ _ (by simp) (List.map_congr_left fun k _ => ?_)
    simp only [Function.comp_apply, Nat.succ_eq_add_one]
    omega

theorem lt_stop (h : LoopRuns frames slot body stop i L rounds result) :
    ∀ r ∈ rounds, r.number < stop := by
  induction h with
  | exhausted => nofun
  | left h | faulted h => exact List.forall_mem_singleton.2 h
  | onward h _ _ _ _ ih => exact List.forall_mem_cons.2 ⟨h, ih⟩

/-- Every round starts with its number in the variable of the loop. -/
theorem holds (h : LoopRuns frames slot body stop i L rounds result) (hslot : slot < L.length) :
    ∀ r ∈ rounds, ∃ n : Int64, n.toInt = r.number ∧ r.start[slot]? = some (some (.int n)) := by
  induction h with
  | exhausted => nofun
  | left _ hn | faulted _ hn => exact List.forall_mem_singleton.2 ⟨_, hn, by simp [hslot]⟩
  | @onward i n L M rounds result _ hn hbody _ _ ih =>
    exact List.forall_mem_cons.2 ⟨⟨n, hn, by simp [hslot]⟩, ih (length_of_round hbody ▸ hslot)⟩

/-- The run of a loop takes the course of its rounds. -/
theorem run_eq (name : String) (h : LoopRuns frames slot body stop i L rounds result)
    (hslot : slot < L.length) :
    (runLoop name slot (runBlock frames body) (stop - i).toNat i).run L =
      result.map (Prod.mk ()) := by
  induction h with
  | exhausted h =>
    rw [Int.toNat_of_nonpos (by omega)]
    rfl
  | left hlt hn hbreak =>
    rw [toNat_sub_of_lt hlt]
    exact yields_bind.2 ⟨_, _, writeLocal_round hn hslot,
      yields_bind.2 ⟨_, _, runBlock_left_iff.2 hbreak, yields_pure.2 ⟨rfl, rfl⟩⟩⟩
  | faulted hlt hn hbody =>
    rw [toNat_sub_of_lt hlt]
    exact faults_bind.2 (.inr ⟨_, _, writeLocal_round hn hslot, faults_bind.2 (.inl hbody)⟩)
  | @onward i n L M rounds result hlt hn hbody _ _ ih =>
    rw [toNat_sub_of_lt hlt]
    have hrest := ih (length_of_round hbody ▸ hslot)
    cases result with
    | ok K =>
      exact yields_bind.2 ⟨_, _, writeLocal_round hn hslot, yields_bind.2 ⟨_, _, hbody, hrest⟩⟩
    | error fault =>
      exact faults_bind.2 (.inr ⟨_, _, writeLocal_round hn hslot,
        faults_bind.2 (.inr ⟨_, _, hbody, hrest⟩)⟩)

/-- A loop comes to the body of each of its rounds. -/
theorem visits (name : String) (h : LoopRuns frames slot body stop i L rounds result)
    (hslot : slot < L.length) :
    ∀ r ∈ rounds, Visits frames (.rounds name slot body (stop - i).toNat i, L)
      (.block body, r.start) := by
  induction h with
  | exhausted => nofun
  | left hlt hn | faulted hlt hn =>
    rw [toNat_sub_of_lt hlt]
    exact List.forall_mem_singleton.2 (.single (.round (writeLocal_round hn hslot)))
  | onward hlt hn hbody _ _ ih =>
    rw [toNat_sub_of_lt hlt]
    exact List.forall_mem_cons.2 ⟨.single (.round (writeLocal_round hn hslot)), fun r hr =>
      .head (.nextRound (writeLocal_round hn hslot) hbody)
        (ih (length_of_round hbody ▸ hslot) r hr)⟩

/-- A loop of which no round is left or faults has a round for every number. -/
theorem length_eq (h : LoopRuns frames slot body stop i L rounds result)
    (hrounds : ∀ r ∈ rounds, ∃ M, Yields (runBlock frames body) r.start .onward M) :
    rounds.length = (stop - i).toNat := by
  induction h with
  | exhausted h => rw [List.length_nil]; omega
  | left _ _ hbreak =>
    obtain ⟨M, hM⟩ := hrounds _ List.mem_cons_self
    cases (runBlock_left_iff.2 hbreak).symm.trans hM
  | faulted _ _ hbody =>
    obtain ⟨M, hM⟩ := hrounds _ List.mem_cons_self
    cases hbody.symm.trans hM
  | onward h _ _ _ _ ih =>
    have hlength := ih fun r hr => hrounds r (List.mem_cons_of_mem _ hr)
    rw [List.length_cons]
    omega

end LoopRuns

/-- Whatever integers of 64 bits are the bounds of a loop, it takes some course of rounds. -/
theorem exists_loopRuns (hi : InRange i) (hstop : InRange stop) (L : Locals) :
    ∃ rounds result, LoopRuns frames slot body stop i L rounds result := by
  induction hcount : (stop - i).toNat generalizing i L with
  | zero => exact ⟨[], .ok L, .exhausted (by omega)⟩
  | succ count ih =>
    have hlt : i < stop := by omega
    have hn : (Int64.ofInt i).toInt = i := toInt_of_integer? (if_pos hi)
    cases hbody : (runBlock frames body).run (L.set slot (some (.int (Int64.ofInt i)))) with
    | error fault => exact ⟨_, .error fault, .faulted hlt hn hbody⟩
    | ok ending =>
      obtain ⟨flow, M⟩ := ending
      cases flow with
      | left => exact ⟨_, .ok M, .left hlt hn (runBlock_breaks hbody)⟩
      | onward =>
        obtain ⟨rounds, result, hrest⟩ := ih (inRange_next hi hstop hlt) M (by omega)
        exact ⟨_, result, .onward hlt hn hbody (not_breaks_of_onward hbody) hrest⟩

theorem asInteger_eq_ok {o : Operand} {n : Int64} :
    asInteger o = .ok n ↔ o.toValue = .int n := by
  unfold asInteger
  split
  · rename_i m hm
    simp [hm]
  · rename_i hother
    simp only [reduceCtorEq, false_iff]
    exact hother n

/-- A loop statement takes the course of its rounds, with the locals that its bounds leave. -/
theorem run_loop (name : String) {start limit : Expr} {M N : Locals} {o p : Operand} {a b : Int64}
    (ho : Yields (operand frames start) L o M) (ha : o.toValue = .int a)
    (hp : Yields (operand frames limit) M p N) (hb : p.toValue = .int b)
    (h : LoopRuns frames slot body b.toInt a.toInt N rounds result) (hslot : slot < N.length) :
    (run frames (.loop name slot start limit body)).run L = result.map (Prod.mk Flow.onward) := by
  have hrun := h.run_eq name hslot
  have hstart : asInteger o = .ok a := asInteger_eq_ok.2 ha
  have hstop : asInteger p = .ok b := asInteger_eq_ok.2 hb
  cases result with
  | ok K =>
    have hyields : Yields (run frames (.loop name slot start limit body)) L .onward K := by
      simp only [run, yields_bind, yields_lift, yields_pure]
      exact ⟨o, M, ho, a, M, ⟨hstart, rfl⟩, p, N, hp, b, N, ⟨hstop, rfl⟩, (), K, hrun, trivial,
        rfl⟩
    exact hyields
  | error fault =>
    have hfaults : Faults (run frames (.loop name slot start limit body)) L fault := by
      simp only [run, faults_bind, yields_lift]
      exact .inr ⟨o, M, ho, .inr ⟨a, M, ⟨hstart, rfl⟩, .inr ⟨p, N, hp, .inr ⟨b, N, ⟨hstop, rfl⟩,
        .inl hrun⟩⟩⟩⟩
    exact hfaults

end

end TextGrammar.Action
