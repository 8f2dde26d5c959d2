import Standoff.Markup.Basic

/-! # Division of mark-up at a position

A row of siblings is divided at a position `pos`.  A node that contains `pos` strictly is cut
in two: both halves keep its name and attributes, the left one also its number, and what lies
below it is divided in the same way.  Every other node goes whole to one of three places:

* `Division.left`: it starts before `pos`;
* `Division.lifted`: it is a zero-width node at `pos`, which belongs to neither half;
* `Division.right`: it starts at `pos` or later.

Numbers for right halves are taken from the outside in and from left to right. -/

namespace Standoff

namespace Node

/-- The half of a node up to `pos`. -/
def leftHalf (n : Node) (pos : Nat) : Node := { n with span := ⟨n.span.start, pos⟩ }

/-- The half of a node from `pos` on, with a number of its own. -/
def rightHalf (n : Node) (pos : Nat) (id : NodeId) : Node :=
  { n with id := id, span := ⟨pos, n.span.stop⟩ }

end Node

/-- Mark-up on the two sides of a position, and the markers at it. -/
structure Division where
  left : Markup
  lifted : Markup
  right : Markup
  supply : Supply
deriving Repr, DecidableEq

namespace Division

/-- Everything again as one row. -/
def row (d : Division) : Markup := d.left ++ d.lifted ++ d.right

end Division

namespace Markup

/-- Divides a row at `pos`. -/
def divide (pos : Nat) : Markup → Supply → Division
  | .nil, s => ⟨.nil, .nil, .nil, s⟩
  | .node n kids rest, s =>
    if n.span.strictlyContains pos then
      let inner := divide pos kids (s.cut n pos)
      let outer := divide pos rest inner.supply
      { left := .node (n.leftHalf pos) inner.left outer.left
        lifted := inner.lifted ++ outer.lifted
        right := .node (n.rightHalf pos s.next) inner.right outer.right
        supply := outer.supply }
    else
      let outer := divide pos rest s
      if n.span.isEmptyAt pos then { outer with lifted := .node n kids outer.lifted }
      else if pos ≤ n.span.start then { outer with right := .node n kids outer.right }
      else { outer with left := .node n kids outer.left }

end Markup

end Standoff
