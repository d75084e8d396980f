import TextGrammar.Matching.Matcher

/-! # Running grammars

A run matches a rule against an input: the whole of it for a value, or the front of it for a
capture. -/

namespace TextGrammar

/-- What a run may be told: how many rules may be open at a time, and the rule to start from if
it is not the start rule of the grammar. -/
structure RunOptions where
  maxDepth : Nat := 256
  start : Option String := none

namespace Grammar

/-- The rule that a run starts from. -/
def startFor (g : Grammar) (options : RunOptions) : Except RunError Nat :=
  match options.start with
  | none => .ok g.start
  | some name =>
    match g.find? name with
    | some index => .ok index
    | none => .error (.unknownStart name)

/-- The outcome of a call from the front of an input, and the state after it. -/
def callFrom (g : Grammar) (maxDepth index : Nat) (input : List Char) :
    Except RunError Matching.Outcome × Matching.State :=
  (Matching.call g maxDepth index).run (.start input g.start)

def conclude (input : List Char) (c : Matching.Outcome) (s : Matching.State) :
    Except RunError Value :=
  match c, s.place.rest with
  | some c, [] => .ok c.intoValue
  | _, _ => .error (.noMatch s.reach ((LineMap.ofText input).location s.reach))

/-- Matches the whole input, and says what is logged on the way. -/
def runLogged (g : Grammar) (options : RunOptions) (input : String) :
    Except RunError Value × List Log.Event :=
  match g.startFor options with
  | .error e => (.error e, [])
  | .ok index =>
    let text := input.toList
    let (outcome, s) := g.callFrom options.maxDepth index text
    (outcome.bind fun c => conclude text c s,
      .running (g.nameOf index) (Text.byteLength text) :: s.log.reverse)

/-- Matches the whole input, and gives the value of the start rule. -/
def run (g : Grammar) (options : RunOptions) (input : String) : Except RunError Value :=
  (g.runLogged options input).1

/-- Matches a rule against the front of the input, and says what is logged on the way. -/
def matchRuleLogged (g : Grammar) (index maxDepth : Nat) (input : String) :
    Except RunError (Option (Capture × Nat)) × List Log.Event :=
  let (outcome, s) := g.callFrom maxDepth index input.toList
  (outcome.map fun c => c.map fun c => (c, s.place.offset), s.log.reverse)

/-- Matches a rule against the front of the input, and gives its capture and the number of bytes
that it consumes. -/
def matchRule (g : Grammar) (index maxDepth : Nat) (input : String) :
    Except RunError (Option (Capture × Nat)) :=
  (g.matchRuleLogged index maxDepth input).1

end Grammar

end TextGrammar
