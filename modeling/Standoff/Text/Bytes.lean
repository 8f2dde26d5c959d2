/-! # Bytes of a text

Characters take one to four bytes, and a text is cut between two of its bytes.  A cut inside a
character leaves no text on either side, so the functions that cut give `none` there.

* `Text.bytes?`, `Text.between?`: the part of a text between two bytes.
* `Text.boundaries`: where its characters start and end.
* `Text.occurrences`: where a byte occurs. -/

namespace Standoff

namespace Text

/-- The characters from byte `n` on; none if that is inside a character or beyond the end. -/
def dropBytes? : Nat → List Char → Option (List Char)
  | 0, cs => some cs
  | _ + 1, [] => none
  | n + 1, c :: cs => if n + 1 < c.utf8Size then none else dropBytes? (n + 1 - c.utf8Size) cs

/-- The characters up to byte `n`; none if that is inside a character or beyond the end. -/
def takeBytes? : Nat → List Char → Option (List Char)
  | 0, _ => some []
  | _ + 1, [] => none
  | n + 1, c :: cs =>
    if n + 1 < c.utf8Size then none else (takeBytes? (n + 1 - c.utf8Size) cs).map (c :: ·)

/-- The part of a text that starts at byte `offset` and has `length` bytes. -/
def bytes? (s : String) (offset length : Nat) : Option String :=
  ((dropBytes? offset s.toList).bind (takeBytes? length)).map String.ofList

/-- The part of a text from byte `start` up to byte `stop`; none also if they are inverted. -/
def between? (s : String) (start stop : Nat) : Option String :=
  if start ≤ stop then bytes? s start (stop - start) else none

/-- The bytes at which characters start, the first one at `start`, and the end of the last one. -/
def boundaries (start : Nat) : List Char → List Nat
  | [] => [start]
  | c :: cs => start :: boundaries (start + c.utf8Size) cs

/-- The positions of a byte, in ascending order. -/
def occurrences (b : UInt8) (bytes : ByteArray) : List Nat :=
  (List.range bytes.size).filter fun i => bytes[i]? == some b

end Text

end Standoff
