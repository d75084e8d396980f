import TextGrammar.Proofs.Matching.Execution

/-! # Room for more open rules

Only a call asks whether there is room for another rule, and no matcher goes on after an error. So
a matcher that is given more room does the same as before, step for step, unless the nesting limit
ended it. -/

namespace TextGrammar.Matching
variable {α β : Type}

def Overflows (m : Matcher α) (s : State) : Prop :=
  ∃ rule limit, Faults m s (.depthLimit rule limit)

/-- A matcher does in every state what another one does there, unless the nesting limit ends that
one. -/
def Outlasts (m' m : Matcher α) : Prop := ∀ s, Overflows m s ∨ exec m' s = exec m s

namespace Outlasts

theorem refl (m : Matcher α) : Outlasts m m := fun _ => .inr rfl

theorem bind {m m' : Matcher α} {f f' : α → Matcher β} (hm : Outlasts m' m)
    (hf : ∀ x, Outlasts (f' x) (f x)) : Outlasts (m' >>= f') (m >>= f) := by
  intro s
  obtain ⟨rule, limit, hfault⟩ | hsame := hm s
  · exact .inl ⟨rule, limit, faults_bind.2 (.inl hfault)⟩
  · rcases hs : exec m s with ⟨e | x, t⟩
    · right
      rw [exec_bind, exec_bind, hsame, hs]
    · obtain ⟨rule, limit, hfault⟩ | hnext := hf x t
      · exact .inl ⟨rule, limit, faults_bind.2 (.inr ⟨x, t, hs, hfault⟩)⟩
      · right
        rw [exec_bind, exec_bind, hsame, hs]
        exact hnext

/-- What follows the same first step. -/
theorem after (m : Matcher α) {f f' : α → Matcher β} (hf : ∀ x, Outlasts (f' x) (f x)) :
    Outlasts (m >>= f') (m >>= f) :=
  (refl m).bind hf

/-- What precedes the same last step. -/
theorem before {m m' : Matcher α} (hm : Outlasts m' m) (f : α → Matcher β) :
    Outlasts (m' >>= f) (m >>= f) :=
  hm.bind fun x => refl (f x)

end Outlasts

theorem inFrame_outlasts {slots : Nat} {fields fields' : Matcher Bool}
    (hfields : Outlasts fields' fields) (yielded : Matcher Outcome) :
    Outlasts (inFrame slots fields' yielded) (inFrame slots fields yielded) :=
  .after _ fun _ => .after _ fun _ => hfields.before _

theorem repeatUpTo_outlasts {body body' : Matcher Outcome} (hbody : Outlasts body' body)
    (rounds : Nat) : Outlasts (repeatUpTo body' rounds) (repeatUpTo body rounds) := by
  induction rounds with
  | zero => exact .refl _
  | succ rounds ih =>
    refine .after _ fun start => hbody.bind fun c => ?_
    cases c with
    | none => exact .refl _
    | some c =>
      refine .after _ fun s => ?_
      split
      · exact ih.before _
      · exact .refl _

theorem repeatGreedily_outlasts {body body' : Matcher Outcome} (hbody : Outlasts body' body) :
    Outlasts (repeatGreedily body') (repeatGreedily body) :=
  .after _ fun _ => (repeatUpTo_outlasts hbody _).before _

theorem lookAhead_outlasts {body body' : Matcher Outcome} (hbody : Outlasts body' body) :
    Outlasts (lookAhead body') (lookAhead body) :=
  .after _ fun _ => hbody.before _

section
variable {g : Grammar} {call call' : Nat → Matcher Outcome}

mutual

theorem matchPattern_outlasts (hcall : ∀ index, Outlasts (call' index) (call index)) :
    ∀ p : Pattern, Outlasts (matchPattern g call' p) (matchPattern g call p)
  | .leaf _ | .literal _ => .refl _
  | .sequence _ fields => inFrame_outlasts (matchFields_outlasts hcall fields) _
  | .action _ fields _ _ => inFrame_outlasts (matchFields_outlasts hcall fields) _
  | .repetition body => repeatGreedily_outlasts (matchPattern_outlasts hcall body)
  | .choice alternatives => matchFirst_outlasts hcall alternatives
  | .negation body => lookAhead_outlasts (matchPattern_outlasts hcall body)
  | .rule index _ => hcall index

theorem matchFields_outlasts (hcall : ∀ index, Outlasts (call' index) (call index)) :
    ∀ fields : List (Option Binding × Pattern),
      Outlasts (matchFields g call' fields) (matchFields g call fields)
  | [] => .refl _
  | (b, p) :: rest => by
    refine (matchPattern_outlasts hcall p).bind fun c => ?_
    cases c with
    | none => exact .refl _
    | some c =>
      cases b with
      | none => exact matchFields_outlasts hcall rest
      | some b => exact .after _ fun _ => matchFields_outlasts hcall rest

theorem matchFirst_outlasts (hcall : ∀ index, Outlasts (call' index) (call index)) :
    ∀ ps : List Pattern, Outlasts (matchFirst g call' ps) (matchFirst g call ps)
  | [] => .refl _
  | p :: rest => by
    refine .after _ fun start => (matchPattern_outlasts hcall p).bind fun c => ?_
    cases c with
    | none => exact .after _ fun _ => matchFirst_outlasts hcall rest
    | some c => exact .refl _

end

end

theorem inRule_outlasts {index : Nat} {name : String} {body body' : Matcher Outcome}
    (hbody : Outlasts body' body) :
    Outlasts (inRule index name body') (inRule index name body) :=
  .after _ fun _ => .after _ fun _ => .after _ fun _ => hbody.before _

/-- A call with more room does the same, unless it ended for want of room. -/
theorem callWithin_outlasts (g : Grammar) {limit limit' levels levels' : Nat}
    (h : levels ≤ levels') (index : Nat) :
    Outlasts (callWithin g limit' levels' index) (callWithin g limit levels index) := by
  induction levels generalizing levels' index with
  | zero =>
    -- Without any room the call ends at once, whatever a call with more room does.
    intro s
    cases hr : g.rule? index with
    | none =>
      right
      unfold callWithin
      rw [hr]
    | some r =>
      left
      unfold callWithin
      rw [hr]
      exact ⟨r.name, limit, faults_throw.2 rfl⟩
  | succ levels ih =>
    obtain ⟨levels', rfl⟩ : ∃ k, levels' = k + 1 := ⟨levels' - 1, by omega⟩
    unfold callWithin
    cases g.rule? index with
    | none => exact .refl _
    | some r =>
      exact inRule_outlasts (matchPattern_outlasts (fun index => ih (by omega) index) r.body)

end TextGrammar.Matching
