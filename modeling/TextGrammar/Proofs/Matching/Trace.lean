import TextGrammar.Proofs.Matching.Atomic
import TextGrammar.Proofs.Matching.Brackets

/-! # What a matcher logs

A pattern that is matched without an error logs pairs of events, however often it goes back: what
was logged stays, and each rule that was entered on the way has been left. -/

namespace TextGrammar.Matching

def State.trace (s : State) : List Log.Event := s.log.reverse

def State.total (s : State) : Nat := s.place.offset + Text.byteLength s.place.rest

theorem State.Follows.total {s t : State} (h : t.Follows s) : t.total = s.total :=
  h.ahead.offset_add_byteLength

theorem State.trace_entered (s : State) (index : Nat) (name : String) :
    (s.entered index name).trace = s.trace ++ [.entering name s.place.offset] :=
  List.reverse_cons

theorem State.trace_returned (s t : State) (name : String) (matched : Bool) :
    (t.returned s name matched).trace = t.trace ++ [.leaving name t.place.offset matched] :=
  List.reverse_cons

@[simp] theorem State.trace_keep (s : State) (b : Option Binding) (c : Capture) :
    (s.keep b c).trace = s.trace := by
  cases b with
  | none => rfl
  | some b => cases hf : s.frames <;> simp [keep, hf, trace]

/-- Between two states pairs of events were logged, all from the first state's place on. -/
def Logged (length levels : Nat) (s t : State) : Prop :=
  ∃ events, t.trace = s.trace ++ events ∧ Log.Bracketed length levels s.place.offset events

namespace Logged
variable {length levels : Nat} {s t u : State}

/-- Nothing was logged. -/
theorem of_trace_eq (h : t.trace = s.trace) : Logged length levels s t :=
  ⟨[], by rw [h, List.append_nil], .nil⟩

theorem trans (hst : Logged length levels s t) (htu : Logged length levels t u)
    (hle : s.place.offset ≤ t.place.offset) : Logged length levels s u := by
  obtain ⟨events, ht, hevents⟩ := hst
  obtain ⟨more, hu, hmore⟩ := htu
  exact ⟨events ++ more, by rw [hu, ht, List.append_assoc], hevents.append (hmore.mono hle)⟩

end Logged

def Logs {α : Type} (length levels : Nat) (m : Matcher α) : Prop :=
  ∀ ⦃s : State⦄ ⦃x : α⦄ ⦃t : State⦄, Yields m s x t → s.total = length →
    Logged length levels s t

section
variable {length levels : Nat}

theorem matchLeaf_logs (l : Leaf) : Logs length levels (matchLeaf l) := by
  intro s c t h _
  obtain ⟨_, _, -, -, rfl⟩ | ⟨-, rfl, -⟩ := matchLeaf_yields h <;> exact .of_trace_eq rfl

theorem matchLiteral_logs (text : String) : Logs length levels (matchLiteral text) := by
  intro s c t h _
  obtain ⟨-, rfl, -⟩ | ⟨-, rfl, -⟩ := matchLiteral_yields h <;> exact .of_trace_eq rfl

theorem inFrame_logs {slots : Nat} {fields : Matcher Bool} {yielded : Matcher Outcome}
    (hfields : Logs length levels fields) (hyielded : Still yielded) :
    Logs length levels (inFrame slots fields yielded) := by
  intro s c u h htotal
  obtain ⟨t, t', ht, hc, rfl⟩ | ⟨t, ht, -, rfl⟩ := inFrame_yields h
  · obtain ⟨rfl, -⟩ := hyielded hc
    have hlogged := hfields ht htotal
    exact hlogged
  · have hlogged := hfields ht htotal
    exact hlogged

theorem repeatUpTo_logs {body : Matcher Outcome} (hbody : Logs length levels body)
    (hatomic : Atomic body) (rounds : Nat) : Logs length levels (repeatUpTo body rounds) := by
  induction rounds with
  | zero =>
    intro s items t h _
    obtain ⟨-, rfl⟩ := yields_pure.1 h
    exact .of_trace_eq rfl
  | succ rounds ih =>
    intro s items u h htotal
    obtain ⟨c, t, rest, hc, -, hrest, -⟩ | ⟨c, hc, -, -⟩ | ⟨t, hc, -, rfl⟩ := repeatUpTo_yields h
    · have hfollows := (hatomic hc).1.toFollows
      have hlogged := ih hrest (hfollows.total.trans htotal)
      exact (hbody hc htotal).trans hlogged hfollows.ahead.offset_le
    · exact hbody hc htotal
    · have hlogged := hbody hc htotal
      exact hlogged

theorem lookAhead_logs {body : Matcher Outcome} (hbody : Logs length levels body) :
    Logs length levels (lookAhead body) := by
  intro s c u h htotal
  obtain ⟨found, t, hfound, hend⟩ := lookAhead_yields h
  have hlogged := hbody hfound htotal
  obtain ⟨-, -, rfl⟩ | ⟨-, -, rfl⟩ := hend <;> exact hlogged

section
variable {g : Grammar} {call : Nat → Matcher Outcome}

mutual

theorem matchPattern_logs (hatomic : ∀ index, Atomic (call index))
    (hcall : ∀ index, Logs length levels (call index)) :
    ∀ p : Pattern, Logs length levels (matchPattern g call p)
  | .leaf l => matchLeaf_logs l
  | .literal text => matchLiteral_logs text
  | .sequence _ fields =>
    inFrame_logs (matchFields_logs hatomic hcall fields) (yieldRecord_still fields)
  | .action _ fields locals body =>
    inFrame_logs (matchFields_logs hatomic hcall fields) (yieldValue_still g locals body)
  | .repetition body => by
    intro s c t h htotal
    obtain ⟨items, hitems, -⟩ := repeatGreedily_yields h
    exact repeatUpTo_logs (matchPattern_logs hatomic hcall body) (matchPattern_atomic hatomic body)
      _ hitems htotal
  | .choice alternatives => matchFirst_logs hatomic hcall alternatives
  | .negation body => lookAhead_logs (matchPattern_logs hatomic hcall body)
  | .rule index _ => hcall index

theorem matchFields_logs (hatomic : ∀ index, Atomic (call index))
    (hcall : ∀ index, Logs length levels (call index)) :
    ∀ fields : List (Option Binding × Pattern), Logs length levels (matchFields g call fields)
  | [], s, all, t, h, _ => by
    obtain ⟨-, rfl⟩ := yields_pure.1 h
    exact .of_trace_eq rfl
  | (b, p) :: rest, s, all, u, h, htotal => by
    have hp := matchPattern_logs hatomic hcall p
    obtain ⟨c, t, ht, hrest⟩ | ⟨hu, -⟩ := matchFields_yields h
    · have hfollows := (t.keep_follows b c).trans (matchPattern_atomic hatomic p ht).1.toFollows
      have hlogged := matchFields_logs hatomic hcall rest hrest (hfollows.total.trans htotal)
      have hkept : Logged length levels s (t.keep b c) :=
        (hp ht htotal).trans (.of_trace_eq (t.trace_keep b c))
          (matchPattern_atomic hatomic p ht).1.ahead.offset_le
      exact hkept.trans hlogged hfollows.ahead.offset_le
    · exact hp hu htotal

theorem matchFirst_logs (hatomic : ∀ index, Atomic (call index))
    (hcall : ∀ index, Logs length levels (call index)) :
    ∀ ps : List Pattern, Logs length levels (matchFirst g call ps)
  | [], s, c, t, h, _ => by
    obtain ⟨-, rfl⟩ := yields_pure.1 h
    exact .of_trace_eq rfl
  | p :: rest, s, c, u, h, htotal => by
    have hp := matchPattern_logs hatomic hcall p
    obtain ⟨-, hu⟩ | ⟨t, ht, hrest⟩ := matchFirst_yields h
    · exact hp hu htotal
    · have hlogged := hp ht htotal
      have hback : Logged length levels s { t with place := s.place } := hlogged
      exact hback.trans (matchFirst_logs hatomic hcall rest hrest htotal) (Nat.le_refl _)

end

end

/-- A call logs the pair of its rule around the pairs of what it calls. -/
theorem callWithin_logs (g : Grammar) (limit levels index : Nat) :
    Logs length levels (callWithin g limit levels index) := by
  induction levels generalizing index with
  | zero =>
    intro s c t h _
    obtain ⟨_, _, -, hlevels, -⟩ := callWithin_yields h
    cases hlevels
  | succ levels ih =>
    intro s c u h htotal
    obtain ⟨r, left, -, hlevels, t, ht, rfl⟩ := callWithin_yields h
    cases hlevels
    have hatomic := callWithin_atomic g limit levels
    obtain ⟨inner, htrace, hinner⟩ := matchPattern_logs hatomic ih r.body ht htotal
    obtain ⟨hresumes, hplace⟩ := matchPattern_atomic hatomic r.body ht
    refine ⟨_, ?_, hinner.pair r.name t.place.offset c.isSome
      (fun _ => ⟨hresumes.ahead.offset_le, ?_⟩) fun hfailed => ?_⟩
    · rw [State.trace_returned, htrace, State.trace_entered, List.append_assoc, List.append_assoc,
        List.singleton_append]
      rfl
    · have hsum := hresumes.total
      unfold State.total at hsum htotal
      simp only [State.entered] at hsum
      omega
    · rw [Option.isSome_eq_false_iff, Option.isNone_iff_eq_none] at hfailed
      rw [hplace hfailed]

end

end TextGrammar.Matching
