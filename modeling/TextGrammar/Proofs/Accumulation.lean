import TextGrammar.Proofs.Action.Loops
import TextGrammar.Proofs.Action.Limits

/-! # Accumulating values

An assignment that appends does what the assignment of a sum does, as long as the expression does
not assign the variable itself. A loop that only appends to a variable of lists or of strings ends
with all that was appended, in the order of the rounds. -/

namespace TextGrammar
open Number (InRange inRange_toInt toInt_of_integer?)

namespace Action

/-- Appending a value is adding it, whatever the two values are. -/
theorem append_eq_binary (old new : Value) : append old new = binary .add old new := by
  unfold append
  split <;> rfl

section
variable {frames : List Frame} {slot : Nat} {L M : Locals} {old : Value}

theorem addend?_eq_some {v : Value} {w : Visit} (h : addend? slot w = some v) :
    Writes w.1 slot (some .append) := by
  unfold addend? at h
  split at h
  · split at h
    · rename_i heq
      subst heq
      exact .store
    · cases h
  · cases h

/-- An expression that does not assign a slot leaves its value there. -/
theorem operand_keeps {e : Expr} {o : Operand} (h : Yields (operand frames e) L o M)
    (hwrites : ∀ w mode, Visits frames (.expr e, L) w → ¬Writes w.1 slot mode)
    (hold : L[slot]? = some (some old)) : M[slot]? = some (some old) := by
  obtain ⟨trace, hhistory, hsums⟩ := operand_accounts e h
  have hnone : ∀ w ∈ trace, ∀ mode, ¬Writes w.1 slot mode := by
    intro w hw mode
    obtain ⟨v, hv, hvisits⟩ := hhistory.mem_iff.1 hw
    cases List.mem_singleton.1 hv
    exact hwrites w mode hvisits
  have haddends : addends slot trace = [] := by
    refine List.filterMap_eq_nil_iff.2 fun w hw => ?_
    cases hw' : addend? slot w with
    | none => rfl
    | some v => exact absurd (addend?_eq_some hw') (hnone w hw _)
  obtain ⟨new, hnew, hM⟩ :=
    hsums slot (fun w hw mode hmode => absurd hmode (hnone w hw mode)) old hold
  rw [haddends] at hnew
  cases hnew
  exact hM

/-- What an expression yields is appended to the value that it leaves in the variable. -/
theorem run_append_yields (name : String) {e : Expr} {o : Operand} {new : Value}
    (ho : Yields (operand frames e) L o M) (hM : M[slot]? = some (some old))
    (hnew : append old o.toValue = .ok new) :
    Yields (run frames (.assign name slot .append e)) L .onward (M.set slot (some new)) := by
  simp only [run, yields_bind, readLocal_yields, yields_lift, writeLocal_yields, yields_pure]
  exact ⟨o, M, ho, old, M, ⟨hM, rfl⟩, new, M, ⟨hnew, rfl⟩, (), _,
    ⟨(List.getElem?_eq_some_iff.1 hM).1, rfl⟩, trivial, rfl⟩

/-- Appending to a variable is assigning it a sum, if the expression leaves its value there. -/
theorem run_append_eq {name : String} {e : Expr} (hold : L[slot]? = some (some old))
    (hkeeps : ∀ o M, Yields (operand frames e) L o M → M[slot]? = some (some old)) :
    (run frames (.assign name slot .append e)).run L =
      (run frames (.assign name slot .set (.binary .add (.fetch name slot) e))).run L := by
  have hfetch : Yields (operand frames (.fetch name slot)) L (.borrowed old) L :=
    yields_bind.2 ⟨_, _, readLocal_yields.2 ⟨hold, rfl⟩, yields_pure.2 ⟨rfl, rfl⟩⟩
  cases he : (operand frames e).run L with
  | error fault =>
    have happend : Faults (run frames (.assign name slot .append e)) L fault :=
      faults_bind.2 (.inl he)
    have hsum : Faults (operand frames (.binary .add (.fetch name slot) e)) L fault :=
      faults_bind.2 (.inr ⟨_, _, hfetch, faults_bind.2 (.inl he)⟩)
    have hset : Faults (run frames (.assign name slot .set (.binary .add (.fetch name slot) e)))
        L fault := faults_bind.2 (.inl hsum)
    exact happend.trans hset.symm
  | ok yielded =>
    obtain ⟨o, M⟩ := yielded
    have hM : M[slot]? = some (some old) := hkeeps o M he
    have hread : Yields (readLocal name slot) M old M := readLocal_yields.2 ⟨hM, rfl⟩
    cases hnew : append old o.toValue with
    | error fault =>
      have happend : Faults (run frames (.assign name slot .append e)) L fault :=
        faults_bind.2 (.inr ⟨_, _, he, faults_bind.2 (.inr ⟨_, _, hread,
          faults_bind.2 (.inl (faults_lift.2 hnew))⟩)⟩)
      rw [append_eq_binary] at hnew
      have hsum : Faults (operand frames (.binary .add (.fetch name slot) e)) L fault :=
        faults_bind.2 (.inr ⟨_, _, hfetch, faults_bind.2 (.inr ⟨_, _, he,
          faults_bind.2 (.inl (faults_lift.2 hnew))⟩)⟩)
      have hset : Faults (run frames (.assign name slot .set (.binary .add (.fetch name slot) e)))
          L fault := faults_bind.2 (.inl hsum)
      exact happend.trans hset.symm
    | ok new =>
      have hwrite : Yields (writeLocal name slot new) M () (M.set slot (some new)) :=
        writeLocal_yields.2 ⟨(List.getElem?_eq_some_iff.1 hM).1, rfl⟩
      have happend : Yields (run frames (.assign name slot .append e)) L .onward
          (M.set slot (some new)) := run_append_yields name he hM hnew
      rw [append_eq_binary] at hnew
      have hsum : Yields (operand frames (.binary .add (.fetch name slot) e)) L (.owned new) M :=
        yields_bind.2 ⟨_, _, hfetch, yields_bind.2 ⟨_, _, he, yields_bind.2 ⟨_, _,
          yields_lift.2 ⟨hnew, rfl⟩, yields_pure.2 ⟨rfl, rfl⟩⟩⟩⟩
      have hset : Yields (run frames (.assign name slot .set (.binary .add (.fetch name slot) e)))
          L .onward (M.set slot (some new)) :=
        yields_bind.2 ⟨_, _, hsum, yields_bind.2 ⟨_, _, hwrite, yields_pure.2 ⟨rfl, rfl⟩⟩⟩
      exact happend.trans hset.symm

end

/-- Two values that append to each other: both are lists or both are strings. -/
inductive Alike : Value → Value → Prop
  | lists (xs ys : List Value) : Alike (.list xs) (.list ys)
  | strings (s t : String) : Alike (.str s) (.str t)

/-- A value and others after it join to a value: lists to a list, or strings to a string. -/
inductive Joined : Value → List Value → Value → Prop
  | lists (xs : List Value) (added : List (List Value)) :
    Joined (.list xs) (added.map .list) (.list (xs ++ added.flatten))
  | strings (s : String) (added : List String) :
    Joined (.str s) (added.map .str) (.str (s ++ String.join added))

theorem Alike.append {old v : Value} (h : Alike old v) :
    ∃ new, append old v = .ok new ∧ Alike old new := by
  cases h with
  | lists xs ys => exact ⟨_, rfl, .lists _ _⟩
  | strings s t => exact ⟨_, rfl, .strings _ _⟩

theorem Alike.symm {v w : Value} (h : Alike v w) : Alike w v := by
  cases h with
  | lists xs ys => exact .lists _ _
  | strings s t => exact .strings _ _

theorem Alike.trans {u v w : Value} (huv : Alike u v) (hvw : Alike v w) : Alike u w := by
  cases huv <;> cases hvw
  · exact .lists _ _
  · exact .strings _ _

/-- Nothing but what is like a list or a string is appended to it. -/
theorem Alike.of_append {old v new : Value} (hold : Alike old old)
    (h : Action.append old v = .ok new) : Alike old v := by
  cases hold <;> cases v <;> cases h
  · exact .lists _ _
  · exact .strings _ _

theorem Joined.nil {old : Value} (h : Alike old old) : Joined old [] old := by
  cases h with
  | lists xs => simpa using Joined.lists xs []
  | strings s => simpa using Joined.strings s []

theorem Joined.cons {old v mid new : Value} {vs : List Value} (hv : Alike old v)
    (hmid : append old v = .ok mid) (h : Joined mid vs new) : Joined old (v :: vs) new := by
  cases hv with
  | lists xs ys =>
    cases hmid
    cases h with
    | lists _ added => simpa using Joined.lists xs (ys :: added)
  | strings s t =>
    cases hmid
    cases h with
    | strings _ added =>
      simpa [String.join_cons, String.append_assoc] using Joined.strings s (t :: added)

/-- All values that are appended to a list or a string join with it. -/
theorem joined_of_foldlM {vs : List Value} {old new : Value} (hold : Alike old old)
    (h : vs.foldlM append old = .ok new) : Joined old vs new := by
  induction vs generalizing old with
  | nil =>
    cases h
    exact .nil hold
  | cons v vs ih =>
    cases hmid : append old v with
    | error fault =>
      rw [List.foldlM_cons, hmid] at h
      cases h
    | ok mid =>
      rw [List.foldlM_cons, hmid] at h
      have hv : Alike old v := hold.of_append hmid
      obtain ⟨_, hsame, hlike⟩ := hv.append
      cases hmid.symm.trans hsame
      exact .cons hv hmid (ih (hlike.symm.trans hlike) h)

section
variable {frames : List Frame} {name : String} {counter slot : Nat} {body : Block} {stop i : Int}
  {L M : Locals} {rounds : List Round}

/-- A loop that yields has run its rounds. -/
theorem LoopRuns.of_yields (hi : InRange i) (hstop : InRange stop)
    (h : Yields (runLoop name counter (runBlock frames body) (stop - i).toNat i) L () M) :
    ∃ rounds, LoopRuns frames counter body stop i L rounds (.ok M) ∧
      ∀ r ∈ rounds, Visits frames (.rounds name counter body (stop - i).toNat i, L)
        (.block body, r.start) := by
  by_cases hlt : i < stop
  · have hwrite := h
    rw [toNat_sub_of_lt hlt] at hwrite
    simp only [runLoop, yields_bind, writeLocal_yields] at hwrite
    obtain ⟨_, _, ⟨hslot, -⟩, -⟩ := hwrite
    obtain ⟨rounds, result, hruns⟩ : ∃ rounds result,
        LoopRuns frames counter body stop i L rounds result := exists_loopRuns hi hstop L
    have hresult : result.map (Prod.mk ()) = .ok ((), M) := (hruns.run_eq name hslot).symm.trans h
    cases result with
    | error fault => cases hresult
    | ok N =>
      cases hresult
      exact ⟨rounds, hruns, hruns.visits name hslot⟩
  · rw [Int.toNat_of_nonpos (by omega)] at h
    obtain ⟨-, rfl⟩ := yields_pure.1 h
    exact ⟨[], .exhausted (by omega), nofun⟩

/-- The bodies of the rounds of a loop have histories that sum up all that they append to a slot
which is not the variable of the loop. -/
theorem LoopRuns.accounted (h : LoopRuns frames counter body stop i L rounds (.ok M))
    (hslot : rounds = [] ∨ counter ≠ slot) :
    ∃ traces, List.Forall₂ (fun v t => History frames [v] t)
      (rounds.map fun r => ((.block body, r.start) : Visit)) traces ∧
      Sums slot L traces.flatten M := by
  generalize hresult : Except.ok M = result at h
  induction h with
  | exhausted =>
    cases hresult
    exact ⟨[], .nil, .nil⟩
  | @onward i n L K rounds result hlt hn hbody hnone hrest ih =>
    have hne := hslot.resolve_left (List.cons_ne_nil _ _)
    obtain ⟨trace, hhistory, hsums⟩ := runBlock_accounts body hbody
    obtain ⟨traces, hhistories, hrest⟩ := ih (.inr hne) hresult
    exact ⟨trace :: traces, .cons hhistory hhistories, ((hsums slot).unset hne).append hrest⟩
  | @left i n L K hlt hn hbreak =>
    have hne := hslot.resolve_left (List.cons_ne_nil _ _)
    cases hresult
    obtain ⟨trace, hhistory, hsums⟩ := runBlock_accounts body (runBlock_left_iff.2 hbreak)
    exact ⟨[trace], .cons hhistory .nil, ((hsums slot).unset hne).append .nil⟩
  | faulted => cases hresult

/-- The rounds of a loop that only appends to a slot count with another one. -/
theorem LoopRuns.counter_ne {result : Except Fault Locals}
    (h : LoopRuns frames counter body stop i L rounds result)
    (honly : ∀ w mode,
      Visits frames (.rounds name counter body (stop - i).toNat i, L) w →
      Writes w.1 slot mode → mode = some .append) : rounds = [] ∨ counter ≠ slot := by
  by_cases hlt : i < stop
  · refine .inr ?_
    rintro rfl
    rw [toNat_sub_of_lt hlt] at honly
    cases honly _ none .refl .round
  · cases h with
    | exhausted => exact .inl rfl
    | onward h | left h | faulted h => exact absurd h hlt

end

section
variable {frames : List Frame} {counter slot : Nat} {e : Expr} {first last i : Int}
  {like old : Value} {I : Locals → Prop} {L M : Locals}

/-- The body of a loop that appends the value of an expression to a variable. -/
def accumulating (name : String) (slot : Nat) (e : Expr) : Block :=
  .mk [.assign name slot .append e] none

/-- For every number of a loop an expression yields a value that appends to a list or a string,
without an assignment of the variable that it is appended to. The locals between two rounds keep an
invariant. -/
def Supplies (frames : List Frame) (counter slot : Nat) (e : Expr) (like : Value)
    (first last : Int) (I : Locals → Prop) : Prop :=
  ∀ (n : Int64) (K : Locals), first ≤ n.toInt → n.toInt < last → I K →
    ∃ o M, Yields (operand frames e) (K.set counter (some (.int n))) o M ∧ Alike like o.toValue ∧
      (∀ w mode, Visits frames (.expr e, K.set counter (some (.int n))) w →
        ¬Writes w.1 slot mode) ∧
      ∀ new, Alike like new → I (M.set slot (some new))

theorem accumulating_yields (name : String) {o : Operand} {new : Value}
    (ho : Yields (operand frames e) L o M) (hM : M[slot]? = some (some old))
    (hnew : append old o.toValue = .ok new) :
    Yields (runBlock frames (accumulating name slot e)) L .onward (M.set slot (some new)) := by
  have hassign := run_append_yields name ho hM hnew
  exact yields_bind.2 ⟨_, _, yields_bind.2 ⟨_, _, hassign, yields_pure.2 ⟨rfl, rfl⟩⟩,
    yields_bind.2 ⟨_, _, yields_pure.2 ⟨rfl, rfl⟩, yields_pure.2 ⟨rfl, rfl⟩⟩⟩

/-- A loop whose rounds all supply a value has a round for every number, and appends the values of
all rounds in their order. -/
theorem Supplies.loopRuns (name : String) (h : Supplies frames counter slot e like first last I)
    (hne : counter ≠ slot) (hi : InRange i) (hlast : InRange last) (hfirst : first ≤ i) (hI : I L)
    (hold : L[slot]? = some (some old)) (hlike : Alike like old) :
    ∃ rounds values new M,
      LoopRuns frames counter (accumulating name slot e) last i L rounds (.ok M) ∧
      rounds.length = (last - i).toNat ∧
      List.Forall₂ (fun r v => ∃ o K, Yields (operand frames e) r.start o K ∧ o.toValue = v)
        rounds values ∧
      Joined old values new ∧ M[slot]? = some (some new) := by
  induction hcount : (last - i).toNat generalizing i L old with
  | zero =>
    exact ⟨[], [], old, L, .exhausted (by omega), rfl, .nil, .nil (hlike.symm.trans hlike), hold⟩
  | succ count ih =>
    have hlt : i < last := by omega
    obtain ⟨n, hn⟩ : ∃ n : Int64, n.toInt = i := ⟨_, toInt_of_integer? (if_pos hi)⟩
    obtain ⟨o, K, ho, hvalue, hwrites, hkeeps⟩ :=
      h n L (hn.symm ▸ hfirst) (hn.symm ▸ hlt) hI
    have hK : K[slot]? = some (some old) :=
      operand_keeps ho hwrites (by rw [List.getElem?_set_ne hne, hold])
    have hfits : Alike old o.toValue := hlike.symm.trans hvalue
    obtain ⟨mid, hmid, hgrown⟩ := hfits.append
    have hround := accumulating_yields name ho hK hmid
    obtain ⟨hslot, -⟩ := List.getElem?_eq_some_iff.1 hK
    obtain ⟨rounds, values, new, M, hruns, hlength, hvalues, hjoined, hM⟩ :=
      ih (inRange_next hi hlast hlt) (by omega) (hkeeps mid (hlike.trans hgrown))
        (List.getElem?_set_self hslot) (hlike.trans hgrown) (by omega)
    exact ⟨_ :: rounds, o.toValue :: values, new, M,
      .onward hlt hn hround (not_breaks_of_onward hround) hruns,
      by rw [List.length_cons, hlength], .cons ⟨o, K, ho, rfl⟩ hvalues,
      .cons hfits hmid hjoined, hM⟩

end

end Action

open TextGrammar.Action

/-- Wherever a variable has a value, appending the value of an expression to it and assigning it
the sum of both do the same, with the same fault or the same locals, if the expression does not
assign the variable. A loop that does nothing to a variable but append to it ends with all values
appended, to a list or to a string: those of its bounds and then those of one round after the
other, in the order of the history of each. And a loop that only appends the value of an expression
to such a variable has a round for every number and ends with their values appended, if each of
them supplies one that appends. -/
theorem accumulation (frames : List Frame) (slot : Nat) :
    (∀ (name : String) (e : Expr) (L : Locals), Assigned L slot →
      (∀ o M, Yields (operand frames e) L o M →
        ∀ w mode, Visits frames (.expr e, L) w → ¬Writes w.1 slot mode) →
      (run frames (.assign name slot .append e)).run L =
        (run frames (.assign name slot .set (.binary .add (.fetch name slot) e))).run L) ∧
    (∀ (name : String) (counter : Nat) (start stop : Expr) (body : Block) (L M : Locals)
      (flow : Flow), Yields (run frames (.loop name counter start stop body)) L flow M →
      (∀ w mode, Visits frames (.stmt (.loop name counter start stop body), L) w →
        Writes w.1 slot mode → mode = some .append) →
      ∃ (o p : Operand) (K N : Locals) (a b : Int64) (rounds : List Round)
        (traces : List (List Visit)),
        Yields (operand frames start) L o K ∧ o.toValue = .int a ∧
        Yields (operand frames stop) K p N ∧ p.toValue = .int b ∧
        LoopRuns frames counter body b.toInt a.toInt N rounds (.ok M) ∧
        List.Forall₂ (fun v t => History frames [v] t)
          ((.expr start, L) :: (.expr stop, K) :: rounds.map fun r => (.block body, r.start))
          traces ∧
        ∀ old, Alike old old → L[slot]? = some (some old) →
          ∃ new, Joined old (addends slot traces.flatten) new ∧ M[slot]? = some (some new)) ∧
    ∀ (name target : String) (counter : Nat) (start stop e : Expr) (L K N : Locals)
      (o p : Operand) (a b : Int64) (old : Value) (I : Locals → Prop),
      Yields (operand frames start) L o K → o.toValue = .int a →
      Yields (operand frames stop) K p N → p.toValue = .int b →
      counter < N.length → counter ≠ slot → N[slot]? = some (some old) → Alike old old → I N →
      Supplies frames counter slot e old a.toInt b.toInt I →
      ∃ rounds values new M,
        Yields (run frames (.loop name counter start stop (accumulating target slot e))) L
          .onward M ∧
        LoopRuns frames counter (accumulating target slot e) b.toInt a.toInt N rounds (.ok M) ∧
        rounds.length = (b.toInt - a.toInt).toNat ∧
        List.Forall₂ (fun r v => ∃ o K, Yields (operand frames e) r.start o K ∧ o.toValue = v)
          rounds values ∧
        Joined old values new ∧ M[slot]? = some (some new) := by
  refine ⟨?_, ?_, ?_⟩
  · rintro name e L ⟨old, hold⟩ hwrites
    exact run_append_eq hold fun o M ho => operand_keeps ho (hwrites o M ho) hold
  · intro name counter start stop body L M flow h honly
    simp only [run, yields_bind, yields_lift, yields_pure] at h
    obtain ⟨o, K, ho, a, _, ⟨ha, rfl⟩, p, N, hp, b, _, ⟨hb, rfl⟩, _, _, hrun, -, rfl⟩ := h
    have hrounds : Leads frames (.stmt (.loop name counter start stop body), L)
        (.rounds name counter body (b.toInt - a.toInt).toNat a.toInt, N) := .rounds ho ha hp hb
    obtain ⟨rounds, hruns, hbodies⟩ := LoopRuns.of_yields (inRange_toInt a) (inRange_toInt b) hrun
    have hslot := hruns.counter_ne fun w mode hw => honly w mode (.head hrounds hw)
    obtain ⟨s, hs, hstart⟩ := operand_accounts start ho
    obtain ⟨t, ht, hstop⟩ := operand_accounts stop hp
    obtain ⟨traces, htraces, hbody⟩ := hruns.accounted hslot
    have hhistories : List.Forall₂ (fun v t => History frames [v] t)
        ((.expr start, L) :: (.expr stop, K) :: rounds.map fun r => (.block body, r.start))
        (s :: t :: traces) := .cons hs (.cons ht htraces)
    have hvisits : ∀ v ∈ (.expr start, L) :: (.expr stop, K) ::
        rounds.map fun r => ((.block body, r.start) : Visit),
        Visits frames (.stmt (.loop name counter start stop body), L) v := by
      simp only [List.forall_mem_cons, List.forall_mem_map]
      exact ⟨.single .start, .single (.stop ho), fun r hr => .head hrounds (hbodies r hr)⟩
    have honly : OnlyAppends slot (s :: t :: traces).flatten := by
      intro w hw mode hmode
      obtain ⟨v, hv, hvw⟩ := (History.flatten hhistories).mem_iff.1 hw
      exact honly w mode ((hvisits v hv).trans hvw) hmode
    refine ⟨o, p, K, N, a, b, rounds, s :: t :: traces, ho, asInteger_eq_ok.1 ha, hp,
      asInteger_eq_ok.1 hb, hruns, hhistories, fun old hlike hold => ?_⟩
    obtain ⟨new, hnew, hM⟩ := ((hstart slot).append ((hstop slot).append hbody)) honly old hold
    exact ⟨new, joined_of_foldlM hlike hnew, hM⟩
  · intro name target counter start stop e L K N o p a b old I ho ha hp hb hcounter hne hold hlike
      hI hsupplies
    obtain ⟨rounds, values, new, M, hruns, hlength, hvalues, hjoined, hM⟩ :=
      hsupplies.loopRuns target hne (inRange_toInt a) (inRange_toInt b) (Int.le_refl _) hI hold
        hlike
    exact ⟨rounds, values, new, M, run_loop name ho ha hp hb hruns hcounter, hruns, hlength,
      hvalues, hjoined, hM⟩

def numberItem : Expr := .list [.fetch "i" 1]

def copying : Expr := .block (.mk [.bind "copy" 1 (.fetch "xs" 0)] (some (.fetch "copy" 1)))

theorem accumulation_numbers :
    let L : Locals := [some (.list [.null]), none]
    let collecting : Block := accumulating "xs" 0 numberItem
    Assigned L 0 ∧
    (run [] (.assign "xs" 0 .append copying)).run L =
      (run [] (.assign "xs" 0 .set (.binary .add (.fetch "xs" 0) copying))).run L ∧
    Yields (run [] (.loop "i" 1 (.literal (.int 0)) (.literal (.int 3)) collecting)) L .onward
      [some (.list [.null, .int 0, .int 1, .int 2]), some (.int 2)] ∧
    (∃ traces : List (List Visit), Joined (.list [.null]) (addends 0 traces.flatten)
      (.list [.null, .int 0, .int 1, .int 2])) ∧
    ∃ values : List Value,
      Joined (.list [.null]) values (.list [.null, .int 0, .int 1, .int 2]) := by
  intro L collecting
  obtain ⟨hsum, hloop, hsupplied⟩ := accumulation [] 0
  have hL : Assigned L 0 := ⟨.list [.null], rfl⟩
  have hcopying : LimitedPart (fun slot _ => slot ≠ 0) (.expr copying) :=
    ⟨⟨⟨Nat.one_ne_zero, trivial⟩, trivial⟩, trivial⟩
  have hnumberItem : LimitedPart (fun slot _ => slot ≠ 0) (.expr numberItem) := ⟨trivial, trivial⟩
  have hcollecting : LimitedPart (fun slot mode => slot = 0 → mode = some .append)
      (.stmt (.loop "i" 1 (.literal (.int 0)) (.literal (.int 3)) collecting)) :=
    ⟨nofun, trivial, trivial, ⟨⟨fun _ => rfl, trivial, trivial⟩, trivial⟩, trivial⟩
  have hrun : Yields (run [] (.loop "i" 1 (.literal (.int 0)) (.literal (.int 3)) collecting)) L
      .onward [some (.list [.null, .int 0, .int 1, .int 2]), some (.int 2)] := rfl
  have hlike : Alike (.list [.null]) (.list [.null]) := .lists _ _
  have hsupplies : Supplies [] 1 0 numberItem (.list [.null]) 0 3 (fun K => K.length = 2) := by
    intro n K _ _ hK
    have hfetch : (K.set 1 (some (.int n)))[1]? = some (some (.int n)) :=
      List.getElem?_set_self (by omega)
    refine ⟨.owned (.list [.int n]), _, yields_bind.2 ⟨_, _, yields_bind.2 ⟨_, _,
      yields_bind.2 ⟨_, _, readLocal_yields.2 ⟨hfetch, rfl⟩, yields_pure.2 ⟨rfl, rfl⟩⟩,
      yields_bind.2 ⟨_, _, yields_pure.2 ⟨rfl, rfl⟩, yields_pure.2 ⟨rfl, rfl⟩⟩⟩,
      yields_pure.2 ⟨rfl, rfl⟩⟩, .lists _ _,
      fun w mode hw hmode => writes_allowed hw hnumberItem hmode rfl, fun new _ => ?_⟩
    simp only [List.length_set, hK]
  refine ⟨hL, hsum "xs" copying L hL fun o M _ w mode hw hmode =>
    writes_allowed hw hcopying hmode rfl, hrun, ?_, ?_⟩
  · obtain ⟨o, p, K, N, a, b, rounds, traces, -, -, -, -, -, -, hjoined⟩ :=
      hloop _ _ _ _ _ _ _ _ hrun fun w mode hw hmode => writes_allowed hw hcollecting hmode rfl
    obtain ⟨new, hnew, hM⟩ := hjoined _ hlike rfl
    cases hM
    exact ⟨traces, hnew⟩
  · obtain ⟨rounds, values, new, M, hyields, -, -, -, hnew, hM⟩ :=
      hsupplied "i" "xs" 1 (.literal (.int 0)) (.literal (.int 3)) numberItem L L L
        (.borrowed (.int 0)) (.borrowed (.int 3)) 0 3 (.list [.null]) (fun K => K.length = 2)
        rfl rfl rfl rfl (by decide) (by decide) rfl hlike rfl hsupplies
    cases hrun.symm.trans hyields
    cases hM
    exact ⟨values, hnew⟩

end TextGrammar
