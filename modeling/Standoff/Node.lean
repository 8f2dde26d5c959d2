import Standoff.Element

/-! # Nodes as readers see them

A node is known by its number.  `NodeView` gathers what can be asked about one: its content
and its neighbours (`Links`).  Where nodes stand in rows, `Links.ofRow` reads the neighbours off
the row.

Numbers of nodes are words of 32 bits, so a document or an arena is sound as long as it has fewer
than 2^32 slots, released ones included.  All that is said about numbers takes this for granted. -/

namespace Standoff

/-- Nodes are numbered from 0 in the order in which they come into being.  There are fewer than
2^32 of them. -/
abbrev NodeId := Nat

inductive NodeKind where
  /-- The node over the whole text. -/
  | document
  | element
deriving Repr, DecidableEq, Inhabited

/-- The neighbours of a node; a node by itself has none. -/
structure Links where
  parent : Option NodeId := none
  firstChild : Option NodeId := none
  lastChild : Option NodeId := none
  previous : Option NodeId := none
  next : Option NodeId := none
deriving Repr, DecidableEq, Inhabited

namespace Links

/-- The entry after the first `id` in a row. -/
def after? (id : NodeId) : List NodeId → Option NodeId
  | [] => none
  | x :: rest => if x = id then rest.head? else after? id rest

/-- The entry before the first `id` in a row. -/
def before? (id : NodeId) : List NodeId → Option NodeId
  | [] => none
  | [_] => none
  | x :: y :: rest => if y = id then some x else before? id (y :: rest)

/-- The neighbours of `id`, which stands in `row` and has the given children. -/
def ofRow (id : NodeId) (parent : Option NodeId) (row children : List NodeId) : Links where
  parent := parent
  firstChild := children.head?
  lastChild := children.getLast?
  previous := before? id row
  next := after? id row

end Links

/-- What can be asked about a node. -/
structure NodeView where
  kind : NodeKind
  name : String
  /-- The number of the name in its pool. -/
  nameId : Nat
  span : Span
  attributes : Attributes
  links : Links
deriving Repr, DecidableEq

namespace NodeView

def isElement (v : NodeView) : Bool := v.kind == .element

def hasChildren (v : NodeView) : Bool := v.links.firstChild.isSome

end NodeView

end Standoff
