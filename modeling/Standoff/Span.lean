import Standoff.Text.Bytes

/-! # Spans: half-open ranges of character positions

Positions count the characters (Unicode scalar values) of a text, so a span can be compared
with the cursor of a reader and with any other span over the same text.  A span may hold any
two numbers; `isOrdered` tells the proper ones.

* `Span.contains`, `Span.strictlyContains`, `Span.overlaps`: how spans and positions lie.
* `Span.slice`: the characters of a text that a span covers; `Span.byteRange?` finds their bytes.
* `Span.text`: the written form `[start,stop)`. -/

namespace Standoff

/-- Characters from `start` up to, not including, `stop`. -/
structure Span where
  start : Nat
  stop : Nat
deriving Repr, DecidableEq, Inhabited

namespace Span

/-- The zero-width span at a position. -/
def emptyAt (pos : Nat) : Span := ⟨pos, pos⟩

/-- Number of characters; an inverted span has none. -/
def length (s : Span) : Nat := s.stop - s.start

/-- No character lies inside: zero width, or inverted. -/
def isEmpty (s : Span) : Bool := decide (s.stop ≤ s.start)

def isOrdered (s : Span) : Bool := decide (s.start ≤ s.stop)

/-- `t` lies within `s`, ends included. -/
def contains (s t : Span) : Bool := decide (s.start ≤ t.start) && decide (t.stop ≤ s.stop)

/-- `pos` lies between two characters of `s`. -/
def strictlyContains (s : Span) (pos : Nat) : Bool := decide (s.start < pos) && decide (pos < s.stop)

/-- The two spans share a character. -/
def overlaps (s t : Span) : Bool :=
  !s.isEmpty && !t.isEmpty && decide (s.start < t.stop) && decide (t.start < s.stop)

/-- A zero-width span at exactly `pos`. -/
def isEmptyAt (s : Span) (pos : Nat) : Bool := s.isEmpty && s.start == pos

/-- The bytes that a span covers, from where its first character starts to where its last one
ends; none if it runs past the text.  The end is counted from the start, so a span without
characters needs no second look-up and may end anywhere. -/
def byteRange? (s : Span) (text : String) : Option (Nat × Nat) :=
  match (Text.boundaries 0 text.toList).drop s.start with
  | [] => none
  | start :: behind =>
    if s.isEmpty then some (start, start)
    else (behind[s.length - 1]?).map fun stop => (start, stop)

/-- The covered characters.  No text at all would mean a cut inside a character. -/
def slice? (s : Span) (text : String) : Option String :=
  match s.byteRange? text with
  | none => some ""
  | some (start, stop) => Text.between? text start stop

/-- The covered characters; none if the span is inverted or runs past the text. -/
def slice (s : Span) (text : String) : String := (s.slice? text).getD ""

/-- The written form, `[start,stop)`. -/
def text (s : Span) : String :=
  "[" ++ toString s.start ++ "," ++ toString s.stop ++ ")"

end Span

end Standoff
