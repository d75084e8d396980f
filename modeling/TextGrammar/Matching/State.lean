import TextGrammar.Action.Evaluation
import TextGrammar.Log
import TextGrammar.Matching.RunError
import TextGrammar.Text.Offset

/-! # The state of a matcher

All open sequences of all open rules share one stack of frames. The rule being matched sees only
the frames above its base, which are those of its own open sequences. -/

namespace TextGrammar.Matching

/-- A place in the input: its byte offset, and the input from there on. -/
structure Place where
  offset : Nat
  rest : List Char

def Place.advance (p : Place) (characters : Nat) : Place :=
  ⟨p.offset + Text.byteLength (p.rest.take characters), p.rest.drop characters⟩

/-- The state of a matcher: where it is, how far it failed, how many rules are open, the frames
of the open sequences, innermost first, how many of them belong to callers of the rule being
matched, that rule, and what was logged, the latest first. -/
structure State where
  place : Place
  furthest : Nat
  depth : Nat
  frames : List Action.Frame
  base : Nat
  rule : Nat
  log : List Log.Event

def State.start (input : List Char) (rule : Nat) : State := ⟨⟨0, input⟩, 0, 0, [], 0, rule, []⟩

/-- The frames that an action of the rule being matched sees. -/
def State.visible (s : State) : List Action.Frame := s.frames.take (s.frames.length - s.base)

/-- The furthest offset that the matcher came to. -/
def State.reach (s : State) : Nat := max s.furthest s.place.offset

/-- Moves a matcher, and may end its run. -/
abbrev Matcher := ExceptT RunError (StateM State)

def advance (characters : Nat) : Matcher Unit :=
  modify fun s => { s with place := s.place.advance characters }

def goBack (place : Place) : Matcher Unit := modify fun s => { s with place }

def noteFailure : Matcher Unit := modify fun s => { s with furthest := s.reach }

def emit (e : Log.Event) : Matcher Unit := modify fun s => { s with log := e :: s.log }

/-- Opens a frame with a number of empty slots. -/
def openFrame (slots : Nat) : Matcher Unit :=
  modify fun s => { s with frames := List.replicate slots none :: s.frames }

/-- Closes all frames but the lowest `height` ones. -/
def closeFrames (height : Nat) : Matcher Unit :=
  modify fun s => { s with frames := s.frames.drop (s.frames.length - height) }

/-- Puts a capture into a slot of the innermost frame; a slot that the frame does not have keeps
nothing. -/
def fillSlot (slot : Nat) (c : Capture) : Matcher Unit :=
  modify fun s =>
    match s.frames with
    | [] => s
    | frame :: outer => { s with frames := frame.set slot (some c) :: outer }

end TextGrammar.Matching
