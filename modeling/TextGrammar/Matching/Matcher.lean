import TextGrammar.Grammar
import TextGrammar.Matching.Leaf
import TextGrammar.Matching.State

/-! # Matching patterns

A pattern either matches, yields a capture and leaves the matcher behind what it consumed, or
fails and leaves the matcher where it was. Choices are ordered and repetitions are greedy; neither
is taken back once it has matched. A pattern is matched over a function for the rules that it
refers to, and rules call each other up to a nesting limit. -/

namespace TextGrammar.Matching

/-- The capture of a pattern that matched, none for one that failed. -/
abbrev Outcome := Option Capture

def matchLeaf (l : Leaf) : Matcher Outcome := do
  match l.read? (← get).place.rest with
  | some (c, taken) =>
    advance taken
    return some c
  | none =>
    noteFailure
    return none

def matchLiteral (text : String) : Matcher Outcome := do
  if text.toList.isPrefixOf (← get).place.rest then
    advance text.toList.length
    return some (.text text)
  else
    noteFailure
    return none

/-- The fields of the record that a sequence yields: those of its bindings whose slots are filled,
each slot taken once. -/
def takeFields (frame : Action.Frame) : List Binding → List (String × Capture)
  | [] => []
  | b :: rest =>
    match frame[b.slot]? with
    | some (some c) => (b.name, c) :: takeFields (frame.set b.slot none) rest
    | _ => takeFields frame rest

def yieldRecord (fields : List Field) : Matcher Outcome := do
  let frame := (← get).frames.headD []
  return some (.record (takeFields frame (fields.filterMap Prod.fst)))

def yieldValue (g : Grammar) (locals : Nat) (body : Expr) : Matcher Outcome := do
  let s ← get
  match Action.evaluate locals body s.visible with
  | .ok v => return some (.value v)
  | .error fault => throw (.action (g.nameOf s.rule) fault)

/-- A sequence: its fields are matched with a frame of their own, which is closed at the end. -/
def inFrame (slots : Nat) (fields : Matcher Bool) (yielded : Matcher Outcome) :
    Matcher Outcome := do
  let s ← get
  openFrame slots
  if ← fields then
    let c ← yielded
    closeFrames s.frames.length
    return c
  else
    closeFrames s.frames.length
    goBack s.place
    return none

/-- Repeats a pattern while it matches and consumes input, for a number of rounds at most. -/
def repeatUpTo (body : Matcher Outcome) : (rounds : Nat) → Matcher (List Capture)
  | 0 => return []
  | rounds + 1 => do
    let start := (← get).place
    match ← body with
    | some c =>
      if start.offset < (← get).place.offset then return c :: (← repeatUpTo body rounds)
      else return []
    | none =>
      goBack start
      return []

/-- A repetition. Every round but the last takes a character, so there are no more rounds than
characters, and one. -/
def repeatGreedily (body : Matcher Outcome) : Matcher Outcome := do
  let items ← repeatUpTo body ((← get).place.rest.length + 1)
  return some (.list items)

/-- A negation: matches where its body fails, and consumes nothing. What happens while it looks
ahead does not count as a failure. -/
def lookAhead (body : Matcher Outcome) : Matcher Outcome := do
  let s ← get
  let c ← body
  modify fun t => { t with place := s.place, furthest := s.furthest }
  match c with
  | some _ =>
    noteFailure
    return none
  | none => return some .unit

mutual

/-- Matches a pattern, with a function for rules. -/
def matchPattern (g : Grammar) (call : Nat → Matcher Outcome) : Pattern → Matcher Outcome
  | .leaf l => matchLeaf l
  | .literal text => matchLiteral text
  | .sequence slots fields => inFrame slots (matchFields g call fields) (yieldRecord fields)
  | .action slots fields locals body =>
    inFrame slots (matchFields g call fields) (yieldValue g locals body)
  | .repetition body => repeatGreedily (matchPattern g call body)
  | .choice alternatives => matchFirst g call alternatives
  | .negation body => lookAhead (matchPattern g call body)
  | .rule index _ => call index

/-- Matches the fields of a sequence in order, and keeps the captures of bound fields. -/
def matchFields (g : Grammar) (call : Nat → Matcher Outcome) :
    List (Option Binding × Pattern) → Matcher Bool
  | [] => return true
  | (binding, p) :: rest => do
    match ← matchPattern g call p with
    | some c =>
      if let some b := binding then fillSlot b.slot c
      matchFields g call rest
    | none => return false

def matchFirst (g : Grammar) (call : Nat → Matcher Outcome) : List Pattern → Matcher Outcome
  | [] => return none
  | p :: rest => do
    let start := (← get).place
    match ← matchPattern g call p with
    | some c => return some c
    | none =>
      goBack start
      matchFirst g call rest

end

/-- Matches the pattern of a rule: it sees no frames of its caller, and is logged. -/
def inRule (index : Nat) (name : String) (body : Matcher Outcome) : Matcher Outcome := do
  let s ← get
  emit (.entering name s.place.offset)
  modify fun s => { s with depth := s.depth + 1, base := s.frames.length, rule := index }
  let c ← body
  modify fun t => { t with depth := t.depth - 1, base := s.base, rule := s.rule }
  emit (.leaving name (← get).place.offset c.isSome)
  return c

/-- Calls a rule while at most `levels` more rules may be opened. -/
def callWithin (g : Grammar) (limit : Nat) : (levels : Nat) → (index : Nat) → Matcher Outcome
  | levels, index => do
    match g.rule? index with
    | none => throw (.unknownRule index)
    | some r =>
      match levels with
      | 0 => throw (.depthLimit r.name limit)
      | levels + 1 => inRule index r.name (matchPattern g (callWithin g limit levels) r.body)

/-- Calls a rule; no more than `limit` rules may be open. -/
def call (g : Grammar) (limit index : Nat) : Matcher Outcome := do
  callWithin g limit (limit - (← get).depth) index

end TextGrammar.Matching
