import TextGrammar.Proofs.Matching.Execution

/-! # Rules at other places

A grammar may have its rules at other places of the table than another grammar has, with the
references to them changed accordingly. Its runs then are those of the other grammar: a place in
the table is seen in no result and in no message, only the name of the rule there is. -/

namespace TextGrammar
open Matching (State Matcher Outcome exec exec_bind matchLeaf matchLiteral yieldRecord yieldValue
  inFrame repeatUpTo repeatGreedily lookAhead matchPattern matchFields matchFirst inRule callWithin)

section
variable (move : Nat → Nat)

mutual

def Pattern.moved : Pattern → Pattern
  | .leaf l => .leaf l
  | .literal text => .literal text
  | .sequence slots fields => .sequence slots (Pattern.fieldsMoved fields)
  | .action slots fields locals body => .action slots (Pattern.fieldsMoved fields) locals body
  | .repetition body => .repetition body.moved
  | .choice alternatives => .choice (Pattern.allMoved alternatives)
  | .negation body => .negation body.moved
  | .rule index newName => .rule (move index) newName

def Pattern.allMoved : List Pattern → List Pattern
  | [] => []
  | p :: ps => p.moved :: Pattern.allMoved ps

def Pattern.fieldsMoved :
    List (Option Binding × Pattern) → List (Option Binding × Pattern)
  | [] => []
  | (b, p) :: rest => (b, p.moved) :: Pattern.fieldsMoved rest

end

def Rule.moved (r : Rule) : Rule := ⟨r.name, r.body.moved move⟩

theorem Pattern.bindings_fieldsMoved (fields : List Field) :
    (Pattern.fieldsMoved move fields).filterMap Prod.fst = fields.filterMap Prod.fst := by
  induction fields with
  | nil => rfl
  | cons f rest ih =>
    obtain ⟨b, p⟩ := f
    cases b with
    | none => exact ih
    | some b => exact congrArg (b :: ·) ih

def Matching.State.moved (s : State) : State := { s with rule := move s.rule }

@[simp] theorem Matching.State.moved_rule (s : State) : (s.moved move).rule = move s.rule := rfl

@[simp] theorem Matching.State.moved_place (s : State) : (s.moved move).place = s.place := rfl

@[simp] theorem Matching.State.moved_visible (s : State) : (s.moved move).visible = s.visible := rfl

/-- A grammar has the rules of another one at other places of its table. -/
structure Relocates (g g' : Grammar) : Prop where
  rule? : ∀ index, g'.rule? (move index) = (g.rule? index).map (Rule.moved move)
  outside : ∀ index, g.rule? index = none → move index = index
  find? : ∀ name, g'.find? name = (g.find? name).map move
  start : g'.start = move g.start

end

namespace Relocates
variable {move : Nat → Nat} {g g' : Grammar}

/-- A rule is called the same at its new place. -/
theorem nameOf (h : Relocates move g g') (index : Nat) :
    g'.nameOf (move index) = g.nameOf index := by
  have hrule : g'.rules[move index]? = (g.rules[index]?).map (Rule.moved move) := h.rule? index
  unfold Grammar.nameOf Grammar.nameIn
  rw [hrule]
  cases g.rules[index]? <;> rfl

end Relocates

namespace Matching
variable {move : Nat → Nat} {α β : Type} {s : State}

def EchoesAt (move : Nat → Nat) (m m' : Matcher α) (s : State) : Prop :=
  exec m' (s.moved move) = ((exec m s).1, (exec m s).2.moved move)

/-- A matcher does in every moved state what another one does in the state. -/
def Echoes (move : Nat → Nat) (m m' : Matcher α) : Prop := ∀ s, EchoesAt move m m' s

namespace EchoesAt

theorem pure (x : α) : EchoesAt move (pure x) (pure x) s := rfl

theorem throw (e : RunError) : EchoesAt move (throw e : Matcher α) (throw e) s := rfl

theorem get {f f' : State → Matcher β} (h : EchoesAt move (f s) (f' (s.moved move)) s) :
    EchoesAt move (get >>= f) (get >>= f') s := h

theorem modify {f f' : Unit → Matcher β} {k k' : State → State}
    (hk : k' (s.moved move) = (k s).moved move) (h : EchoesAt move (f ()) (f' ()) (k s)) :
    EchoesAt move (modify k >>= f) (modify k' >>= f') s := by
  change exec (f' ()) (k' (s.moved move)) = _
  rw [hk]
  exact h

theorem bind {m m' : Matcher α} {f f' : α → Matcher β} (hm : EchoesAt move m m' s)
    (hf : ∀ x t, Yields m s x t → EchoesAt move (f x) (f' x) t) :
    EchoesAt move (m >>= f) (m' >>= f') s := by
  unfold EchoesAt at hm ⊢
  rw [exec_bind, exec_bind, hm]
  rcases hs : exec m s with ⟨e | x, t⟩
  · rfl
  · exact hf x t hs

end EchoesAt

theorem matchLeaf_echoes (l : Leaf) : Echoes move (matchLeaf l) (matchLeaf l) := by
  intro s
  apply EchoesAt.get
  rw [State.moved_place]
  cases l.read? s.place.rest with
  | none => exact .modify rfl (.pure none)
  | some found => exact .modify rfl (.pure (some found.1))

theorem matchLiteral_echoes (text : String) :
    Echoes move (matchLiteral text) (matchLiteral text) := by
  intro s
  apply EchoesAt.get
  rw [State.moved_place]
  split
  · exact .modify rfl (.pure _)
  · exact .modify rfl (.pure none)

theorem yieldRecord_echoes (fields : List Field) :
    Echoes move (yieldRecord fields) (yieldRecord (Pattern.fieldsMoved move fields)) := by
  intro s
  apply EchoesAt.get
  rw [Pattern.bindings_fieldsMoved]
  exact .pure _

section
variable {g g' : Grammar}

theorem yieldValue_echoes (h : Relocates move g g') (locals : Nat) (body : Expr) :
    Echoes move (yieldValue g locals body) (yieldValue g' locals body) := by
  intro s
  apply EchoesAt.get
  rw [State.moved_visible, State.moved_rule, h.nameOf]
  cases Action.evaluate locals body s.visible with
  | ok v => exact .pure _
  | error fault => exact .throw _

end

theorem inFrame_echoes {slots : Nat} {fields fields' : Matcher Bool}
    {yielded yielded' : Matcher Outcome} (hfields : Echoes move fields fields')
    (hyielded : Echoes move yielded yielded') :
    Echoes move (inFrame slots fields yielded) (inFrame slots fields' yielded') := by
  intro s
  refine .get (.modify rfl ((hfields _).bind fun all t _ => ?_))
  cases all with
  | true => exact (hyielded t).bind fun c u _ => .modify rfl (.pure c)
  | false => exact .modify rfl (.modify rfl (.pure none))

theorem repeatUpTo_echoes {body body' : Matcher Outcome} (hbody : Echoes move body body')
    (rounds : Nat) : Echoes move (repeatUpTo body rounds) (repeatUpTo body' rounds) := by
  induction rounds with
  | zero =>
    intro s
    exact .pure []
  | succ rounds ih =>
    intro s
    refine .get ((hbody s).bind fun c t _ => ?_)
    cases c with
    | none => exact .modify rfl (.pure [])
    | some c =>
      apply EchoesAt.get
      rw [State.moved_place, State.moved_place]
      split
      · exact (ih t).bind fun items u _ => .pure (c :: items)
      · exact .pure []

theorem repeatGreedily_echoes {body body' : Matcher Outcome} (hbody : Echoes move body body') :
    Echoes move (repeatGreedily body) (repeatGreedily body') := by
  intro s
  exact .get ((repeatUpTo_echoes hbody _ s).bind fun items t _ => .pure _)

theorem lookAhead_echoes {body body' : Matcher Outcome} (hbody : Echoes move body body') :
    Echoes move (lookAhead body) (lookAhead body') := by
  intro s
  refine .get ((hbody s).bind fun c t _ => .modify rfl ?_)
  cases c with
  | none => exact .pure _
  | some c => exact .modify rfl (.pure none)

section
variable {g g' : Grammar} {call call' : Nat → Matcher Outcome}

mutual

theorem matchPattern_echoes (h : Relocates move g g')
    (hcall : ∀ index, Echoes move (call index) (call' (move index))) :
    ∀ p : Pattern, Echoes move (matchPattern g call p) (matchPattern g' call' (p.moved move))
  | .leaf l => matchLeaf_echoes l
  | .literal text => matchLiteral_echoes text
  | .sequence _ fields =>
    inFrame_echoes (matchFields_echoes h hcall fields) (yieldRecord_echoes fields)
  | .action _ fields locals body =>
    inFrame_echoes (matchFields_echoes h hcall fields) (yieldValue_echoes h locals body)
  | .repetition body => repeatGreedily_echoes (matchPattern_echoes h hcall body)
  | .choice alternatives => matchFirst_echoes h hcall alternatives
  | .negation body => lookAhead_echoes (matchPattern_echoes h hcall body)
  | .rule index _ => hcall index

theorem matchFields_echoes (h : Relocates move g g')
    (hcall : ∀ index, Echoes move (call index) (call' (move index))) :
    ∀ fields : List (Option Binding × Pattern),
      Echoes move (matchFields g call fields)
        (matchFields g' call' (Pattern.fieldsMoved move fields))
  | [], _ => .pure true
  | (b, p) :: rest, s => by
    refine (matchPattern_echoes h hcall p s).bind fun c t _ => ?_
    cases c with
    | none => exact .pure false
    | some c =>
      cases b with
      | none => exact matchFields_echoes h hcall rest t
      | some b =>
        refine .modify ?_ (matchFields_echoes h hcall rest _)
        rcases t with ⟨place, furthest, depth, _ | ⟨frame, outer⟩, base, rule, log⟩ <;> rfl

theorem matchFirst_echoes (h : Relocates move g g')
    (hcall : ∀ index, Echoes move (call index) (call' (move index))) :
    ∀ ps : List Pattern,
      Echoes move (matchFirst g call ps) (matchFirst g' call' (Pattern.allMoved move ps))
  | [], _ => .pure none
  | p :: ps, s => by
    refine .get ((matchPattern_echoes h hcall p s).bind fun c t _ => ?_)
    cases c with
    | none => exact .modify rfl (matchFirst_echoes h hcall ps _)
    | some c => exact .pure (some c)

end

end

theorem inRule_echoes {index : Nat} {name : String} {body body' : Matcher Outcome}
    (hbody : Echoes move body body') :
    Echoes move (inRule index name body) (inRule (move index) name body') := by
  intro s
  refine .get (.modify rfl (.modify rfl ((hbody _).bind fun c t _ => ?_)))
  exact .modify rfl (.get (.modify rfl (.pure c)))

/-- A rule that is called at its new place does what it does at its old one. -/
theorem callWithin_echoes {g g' : Grammar} (h : Relocates move g g') (limit levels index : Nat) :
    Echoes move (callWithin g limit levels index) (callWithin g' limit levels (move index)) := by
  induction levels generalizing index with
  | zero =>
    intro s
    unfold callWithin
    cases hr : g.rule? index with
    | none =>
      rw [h.rule?, hr, h.outside index hr]
      exact .throw _
    | some r =>
      rw [h.rule?, hr]
      exact .throw _
  | succ levels ih =>
    intro s
    unfold callWithin
    cases hr : g.rule? index with
    | none =>
      rw [h.rule?, hr, h.outside index hr]
      exact .throw _
    | some r =>
      rw [h.rule?, hr]
      exact inRule_echoes (matchPattern_echoes h ih r.body) s

end Matching

namespace Relocates
variable {move : Nat → Nat} {g g' : Grammar}

theorem startFor (h : Relocates move g g') (options : RunOptions) :
    g'.startFor options = (g.startFor options).map move := by
  unfold Grammar.startFor
  cases options.start with
  | none => exact congrArg Except.ok h.start
  | some name =>
    dsimp only
    rw [h.find?]
    cases g.find? name <;> rfl

theorem callFrom (h : Relocates move g g') (maxDepth index : Nat) (input : List Char) :
    g'.callFrom maxDepth (move index) input =
      ((g.callFrom maxDepth index input).1, (g.callFrom maxDepth index input).2.moved move) := by
  have hechoes := Matching.callWithin_echoes h maxDepth maxDepth index (.start input g.start)
  rw [Matching.EchoesAt, State.moved, State.start, ← h.start] at hechoes
  exact hechoes

/-- A run gives the same result and logs the same, wherever the rules stand in the table. -/
theorem runLogged (h : Relocates move g g') (options : RunOptions) (input : String) :
    g'.runLogged options input = g.runLogged options input := by
  unfold Grammar.runLogged
  rw [h.startFor]
  cases g.startFor options with
  | error e => rfl
  | ok index =>
    simp only [Except.map, h.callFrom, h.nameOf]
    rcases g.callFrom options.maxDepth index input.toList with ⟨e | c, s⟩ <;> rfl

end Relocates

end TextGrammar
