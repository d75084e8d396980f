/-! # Spans

A span is a range of byte offsets into a grammar source, from `start` up to and without `stop`. -/

namespace TextGrammar

structure Span where
  start : Nat
  stop : Nat
deriving DecidableEq, Repr, Inhabited

namespace Span

def point (offset : Nat) : Span := ⟨offset, offset⟩

/-- Holds of the spans that cover no byte, a span with its ends out of order among them. -/
def isEmpty (s : Span) : Bool := s.start ≥ s.stop

def join (s t : Span) : Span := ⟨min s.start t.start, max s.stop t.stop⟩

@[simp] theorem join_self (s : Span) : s.join s = s := by simp [join]

/-- Spans are ordered by their start, those with one start by their stop. -/
def less (s t : Span) : Bool := s.start < t.start || (s.start == t.start && s.stop < t.stop)

/-- A span is shown as its two offsets with two dots between them. -/
def text (s : Span) : String := toString s.start ++ ".." ++ toString s.stop

end Span

end TextGrammar
