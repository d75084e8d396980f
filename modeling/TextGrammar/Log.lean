/-! # Log messages

What compiling and running report on the side. Each message has a level; a reader who asks for a
level gets its messages and the graver ones. -/

namespace TextGrammar.Log

/-- The levels of messages, the gravest first. -/
inductive Level where
  | error | warn | info | debug | trace
deriving DecidableEq, Repr

namespace Level

def rank : Level → Nat
  | .error => 1
  | .warn => 2
  | .info => 3
  | .debug => 4
  | .trace => 5

def name : Level → String
  | .error => "ERROR"
  | .warn => "WARN"
  | .info => "INFO"
  | .debug => "DEBUG"
  | .trace => "TRACE"

def all : List Level := [.error, .warn, .info, .debug, .trace]

end Level

/-- What a reader asks for: the messages of a level and the graver ones, or none at all. -/
abbrev Filter := Option Level

/-- Reads a filter, in upper or lower case. -/
def Filter.ofText? (text : String) : Option Filter :=
  let word := String.ofList (text.toList.map Char.toUpper)
  if word = "OFF" then some none
  else (Level.all.find? (·.name = word)).map some

def Filter.allows : Filter → Level → Bool
  | none, _ => false
  | some most, level => level.rank ≤ most.rank

inductive Event where
  | parsed (rules starts : Nat)
  | emptyRepetition (rule : String)
  | compiled (start : String)
  | refused (findings : Nat)
  | running (rule : String) (bytes : Nat)
  | entering (rule : String) (position : Nat)
  | leaving (rule : String) (position : Nat) (matched : Bool)
  | ready (rules : Nat)
deriving DecidableEq, Repr

namespace Event

def level : Event → Level
  | .parsed .. | .compiled .. | .refused .. | .running .. => .debug
  | .emptyRepetition .. => .warn
  | .entering .. | .leaving .. => .trace
  | .ready .. => .info

def message : Event → String
  | .parsed rules starts =>
    "Parsed " ++ toString rules ++ " rules and " ++ toString starts ++ " start designations"
  | .emptyRepetition rule =>
    "Rule `" ++ rule ++ "` repeats a pattern which can match empty input"
  | .compiled start => "Compiled grammar starting at `" ++ start ++ "`"
  | .refused findings => "Grammar has " ++ toString findings ++ " semantic errors"
  | .running rule bytes =>
    "Running `" ++ rule ++ "` over " ++ toString bytes ++ " bytes of input"
  | .entering rule position => "Entering " ++ rule ++ " at " ++ toString position
  | .leaving rule position matched =>
    "Leaving " ++ rule ++ " at " ++ toString position ++ ", " ++
      (if matched then "matched" else "failed")
  | .ready rules => "Compiled " ++ toString rules ++ " rules"

end Event

def Filter.select (f : Filter) (events : List Event) : List Event :=
  events.filter fun e => f.allows e.level

end TextGrammar.Log
