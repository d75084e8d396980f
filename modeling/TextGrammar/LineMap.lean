import TextGrammar.Text.Offset
import TextGrammar.Text.Split

/-! # Lines and columns

A line map is built once for a source and then turns byte offsets into one-based lines and
columns. Lines end at a line feed; a carriage return before it belongs to the line it ends.
Columns count characters. In a line of ASCII characters alone they are read off the offset,
in any other line the characters are counted. -/

namespace TextGrammar

/-- A position for readers, both numbers one-based. -/
structure Location where
  line : Nat
  column : Nat
deriving DecidableEq, Repr

/-- One line of a source: where it starts, its text without the line feed that ends it, and
whether that text is ASCII alone. -/
structure Line where
  start : Nat
  text : List Char
  ascii : Bool

/-- The lines of a source in order, and the length of the source in bytes. -/
structure LineMap where
  lines : Array Line
  length : Nat

namespace LineMap

/-- Places lines one after the other from an offset on, each followed by its line feed. -/
def place (start : Nat) : List (List Char) → List Line
  | [] => []
  | text :: rest =>
    ⟨start, text, text.all (·.val < 128)⟩ :: place (start + Text.byteLength text + 1) rest

def ofText (source : List Char) : LineMap :=
  ⟨(place 0 (Text.split '\n' source)).toArray, Text.byteLength source⟩

/-- How many lines there are; a final line feed is followed by an empty line. -/
def lineCount (map : LineMap) : Nat := map.lines.size

/-- The start of the line with an index, for an index past the end one that no offset reaches. -/
def startOf (map : LineMap) (index : Nat) : Nat :=
  match map.lines[index]? with
  | some line => line.start
  | none => map.length + 1

/-- Halves the candidates `low … low + count` until the last one that starts at or before
`offset` is left. -/
def bisect (map : LineMap) (offset : Nat) : (count low : Nat) → Nat
  | 0, low => low
  | count + 1, low =>
    let half := (count + 2) / 2
    if map.startOf (low + half) ≤ offset then
      bisect map offset (count + 1 - half) (low + half)
    else bisect map offset (half - 1) low
termination_by count => count
decreasing_by all_goals omega

/-- Numbers in locations have 32 bits; the largest of them stands for all that are larger. -/
def saturate (n : Nat) : Nat := min n (Nat.pow 2 32 - 1)

/-- The location of an offset. Offsets past the end are taken for the end, and one inside a
character for the start of that character. -/
def location (map : LineMap) (offset : Nat) : Location :=
  let offset := min offset map.length
  let index := map.bisect offset (map.lineCount - 1) 0
  match map.lines[index]? with
  | some line =>
    let column :=
      if line.ascii then offset - line.start
      else Text.charactersWithin (offset - line.start) line.text
    ⟨saturate (index + 1), saturate (column + 1)⟩
  | none => ⟨saturate (index + 1), 1⟩

end LineMap

end TextGrammar
