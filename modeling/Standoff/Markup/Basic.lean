import Standoff.Forest
import Standoff.Node

/-! # Mark-up: a forest of numbered elements

The elements over one text form a forest: parents cover their children, and siblings stand in
the order of the text.

* `Node`: an element with its number.
* `Markup.ids`, `Markup.node?`, `Markup.links?`: reading by number.
* `Markup.outline`: names, spans and nesting on one line.
* `Supply`: where the numbers of new nodes come from. -/

namespace Standoff

/-- An element of a document, known by its number. -/
structure Node extends Element where
  id : NodeId
deriving Repr, DecidableEq, Inhabited

abbrev Markup := Forest Node

namespace Markup

/-! ## Reading -/

/-- The numbers of all nodes, in document order. -/
def ids (m : Markup) : List NodeId := m.preorder.map (·.id)

/-- The numbers of the outermost nodes. -/
def rootIds (m : Markup) : List NodeId := m.labels.map (·.id)

/-- The elements without their numbers. -/
def elements (m : Markup) : Forest Element := m.map (·.toElement)

/-- The node with a number, and what lies below it. -/
def node? (m : Markup) (id : NodeId) : Option (Tree Node) := m.find? (·.id == id)

/-- The neighbours of a node; `top` is the parent of the outermost ones. -/
def links? (m : Markup) (top id : NodeId) : Option Links :=
  (m.row? (·.id == id)).bind fun (parent, row) =>
    (m.node? id).map fun t =>
      Links.ofRow id (some ((parent.map (·.id)).getD top)) (row.map (·.id)) (rootIds t.children)

/-! ## Outline -/

/-- Name and span of every element, children in braces, a space between siblings; all that in
front of `tail`. -/
def outlineOnto : Forest Element → List Char → List Char
  | .nil, tail => tail
  | .node e kids rest, tail =>
    let right := if rest.isNil then tail else ' ' :: outlineOnto rest tail
    let inner := if kids.isNil then right else '\x7b' :: outlineOnto kids ('\x7d' :: right)
    e.name.toList ++ (e.span.text.toList ++ inner)

def outline (m : Markup) : String := String.ofList (outlineOnto m.elements [])

end Markup

/-! ## Supply of numbers -/

/-- A cut of the element `name` over `span` at a position inside it. -/
structure Cut where
  name : String
  span : Span
  pos : Nat
  /-- The number of the element, which its left half keeps. -/
  left : NodeId
  /-- The new number of its right half. -/
  right : NodeId
deriving Repr, DecidableEq

/-- The next free number, and the cuts made so far, the latest first. -/
structure Supply where
  next : NodeId
  cuts : List Cut := []
deriving Repr, DecidableEq

namespace Supply

/-- The supply after one number has been taken. -/
def take (s : Supply) : Supply := { s with next := s.next + 1 }

/-- The supply after `n` has been cut at `pos`, its right half taking a number. -/
def cut (s : Supply) (n : Node) (pos : Nat) : Supply :=
  { next := s.next + 1, cuts := ⟨n.name, n.span, pos, n.id, s.next⟩ :: s.cuts }

end Supply

/-- Mark-up that has grown, and the supply left over. -/
structure Growth where
  markup : Markup
  supply : Supply
deriving Repr, DecidableEq

end Standoff
