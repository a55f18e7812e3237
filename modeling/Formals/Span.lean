/-!
# Spans

A `Span` is a run of characters of a source text, given by its first offset and its length.
Offsets are 32-bit words, and `stop` adds them as words.
-/

namespace Formals

/-- A run of `length` characters that begins at offset `start`. -/
structure Span where
  start : UInt32 := 0
  length : UInt32 := 0
  deriving DecidableEq, Repr, Inhabited

namespace Span

/-- The span from offset `first` up to, and without, offset `last`. -/
def ofBounds (first last : UInt32) : Span := ⟨first, last - first⟩

/-- The offset just past the span. -/
def stop (s : Span) : UInt32 := s.start + s.length

/-- A span without characters. -/
def isEmpty (s : Span) : Bool := s.length == 0

/-- The span from the lesser start to the greater end. -/
def union (s t : Span) : Span :=
  ofBounds (if s.start ≤ t.start then s.start else t.start)
    (if s.stop ≤ t.stop then t.stop else s.stop)

/-- Interval notation: `[2, 5)`. -/
def interval (s : Span) : String := s!"[{s.start}, {s.stop})"

/-- The bounds of the span: `2..5`. -/
def bounds (s : Span) : String := s!"{s.start}..{s.stop}"

end Span
end Formals
