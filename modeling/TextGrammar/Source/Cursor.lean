import TextGrammar.Source.Fault

/-! # Reading tokens one after the other

A parser moves a cursor over the tokens of a source. The cursor counts how deep the construct it
stands in is nested, and nothing is read beyond the nesting limit. -/

namespace TextGrammar.Source

/-- The tokens still to read, the place of the token read last, the length of the source, and the
number of open nested constructs. -/
structure Cursor where
  rest : List Token
  last : Span
  stop : Nat
  depth : Nat

/-- How deep patterns, expressions and blocks may be nested. -/
def nestingLimit : Nat := 128

/-- A cursor in front of some tokens of a source with a length. -/
def Cursor.start (tokens : List Token) (stop : Nat) : Cursor := ⟨tokens, .point 0, stop, 0⟩

/-- The place of the next token; at the end, the end of the source. -/
def Cursor.here (c : Cursor) : Span :=
  match c.rest with
  | [] => .point c.stop
  | t :: _ => t.span

/-- Reads a part of the tokens or finds a fault. -/
abbrev Parser := StateT Cursor (Except Fault)

namespace Parser
variable {α β : Type}

def fail (cause : Cause) : Parser α := fun c => .error ⟨c.here, cause⟩

/-- Fails because something else is asked for. -/
def unexpected (expected : Expected) : Parser α := fun c =>
  .error ⟨c.here, .unexpected expected (.ofTokens c.rest)⟩

def here : Parser Span := return (← get).here

def last : Parser Span := return (← get).last

def spanFrom (start : Span) : Parser Span := return start.join (← last)

def peekAt (n : Nat) : Parser (Option Token.Kind) := return ((← get).rest[n]?).map Token.kind

def peek : Parser (Option Token.Kind) := peekAt 0

def at? (kind : Token.Kind) : Parser Bool := return (← peek) == some kind

def advance : Parser Unit := modify fun c =>
  match c.rest with
  | [] => c
  | t :: rest => { c with rest, last := t.span }

def accept (kind : Token.Kind) : Parser Bool := do
  if ← at? kind then
    advance
    return true
  else return false

def expect (kind : Token.Kind) : Parser Token := fun c =>
  match c.rest with
  | t :: rest =>
    if t.kind = kind then .ok (t, { c with rest, last := t.span })
    else unexpected (.token kind) c
  | [] => unexpected (.token kind) c

/-- Enters one more level of nesting. -/
def descend : Parser Unit := fun c =>
  if c.depth < nestingLimit then .ok ((), { c with depth := c.depth + 1 })
  else fail .nestingTooDeep c

/-- Leaves all levels of nesting that a parser has entered. -/
def keepDepth (p : Parser α) : Parser α := do
  let depth := (← get).depth
  let x ← p
  modify fun c => { c with depth }
  return x

/-- Reads one level deeper. -/
def nested (p : Parser α) : Parser α := keepDepth do
  descend
  p

/-- Repeats a step until it reads nothing more, for a number of rounds at most. -/
def manyUpTo (step : Parser (Option α)) : Nat → Parser (List α)
  | 0 => return []
  | n + 1 => do
    match ← step with
    | none => return []
    | some x => return x :: (← manyUpTo step n)

/-- Repeats a step until it reads nothing more. The step must take a token whenever it yields
something; there are then no more rounds than tokens. -/
def many (step : Parser (Option α)) : Parser (List α) := do
  manyUpTo step ((← get).rest.length + 1)

/-- The next item of a list that a token closes, behind a comma, unless the list ends. -/
def nextItem (close : Token.Kind) (item : Parser α) : Parser (Option α) := do
  if ← accept (.symbol .comma) then
    if ← at? close then return none
    else return some (← item)
  else return none

/-- Reads items separated by commas up to a closing token, which is read too; a comma may also
follow the last one. -/
def listUntil (close : Token.Kind) (item : Parser α) : Parser (List α) := do
  let items ←
    if ← at? close then pure []
    else do
      let first ← item
      let rest ← many (nextItem close item)
      pure (first :: rest)
  let _ ← expect close
  return items

end Parser

end TextGrammar.Source
