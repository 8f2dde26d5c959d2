import Standoff.Forest
import Standoff.NamePool
import Standoff.Node

/-! # Arena: a store of linked nodes whose slots are used again

Every node has a slot, which holds its content and its links.  The children of a node are a
row linked in both directions; their parent knows both ends.  Releasing a subtree leaves its
slots to the next allocations, the slot released last going first.

* `Arena.alloc`, `Arena.allocElement`: a new node without links.
* `Arena.append`, `Arena.insertBefore`, `Arena.insertAfter`, `Arena.detach`: moving subtrees.
* `Arena.release`: giving a detached subtree back.
* `Arena.children`, `Arena.descendants`, `Arena.view?`, `Arena.tree?`: reading.

The rows are sound as long as a node is linked only while it is detached, never below itself
and only next to a child of the parent it is given, and is released once.  The operations do
not check this: each sets the links it names, whatever the others say. -/

namespace Standoff

/-- The content of a slot and its place in the forest. -/
structure Slot where
  kind : NodeKind := .element
  element : Element
  links : Links := {}
deriving Repr, DecidableEq, Inhabited

structure Arena where
  slots : Array Slot := #[]
  /-- Released slots, the latest first. -/
  free : List NodeId := []
  names : NamePool := {}
deriving Repr, DecidableEq, Inhabited

namespace Arena

/-! ## Slots -/

def slot? (a : Arena) (id : NodeId) : Option Slot := a.slots[id]?

/-- The links of a node; a number without a slot has none. -/
def links (a : Arena) (id : NodeId) : Links := ((a.slot? id).map (·.links)).getD {}

/-- Changes the slot of `id`, if there is one. -/
def update (a : Arena) (id : NodeId) (f : Slot → Slot) : Arena :=
  { a with slots := a.slots.modify id f }

/-- Number of slots, released ones included. -/
def slotCount (a : Arena) : Nat := a.slots.size

/-- Number of slots in use. -/
def liveCount (a : Arena) : Nat := a.slots.size - a.free.length

/-- Puts a node into the slot released last, or into a new one. -/
def alloc (a : Arena) (s : Slot) : Arena × NodeId :=
  match a.free with
  | id :: free => ({ a with slots := a.slots.setIfInBounds id s, free := free }, id)
  | [] => ({ a with slots := a.slots.push s }, a.slots.size)

/-- A new element without attributes. -/
def allocElement (a : Arena) (name : String) (span : Span) : Arena × NodeId :=
  { a with names := (a.names.intern name).1 }.alloc { element := ⟨name, span, {}⟩ }

/-- A new node over a text of `length` characters. -/
def allocDocument (a : Arena) (length : Nat) : Arena × NodeId :=
  a.alloc { kind := .document, element := ⟨"", ⟨0, length⟩, {}⟩ }

/-! ## Content -/

/-- Sets an attribute; its name is known to the pool even if the node is not there. -/
def setAttribute (a : Arena) (id : NodeId) (key value : String) : Arena :=
  { a with names := (a.names.intern key).1 }.update id fun s =>
    { s with element := { s.element with attributes := s.element.attributes.set key value } }

def attribute? (a : Arena) (id : NodeId) (key : String) : Option String :=
  (a.slot? id).bind fun s => s.element.attributes.get? key

def name? (a : Arena) (id : NodeId) : Option String := (a.slot? id).map (·.element.name)

/-- Moves the end of a node's span. -/
def setStop (a : Arena) (id : NodeId) (stop : Nat) : Arena :=
  a.update id fun s =>
    { s with element := { s.element with span := { s.element.span with stop := stop } } }

/-! ## Single links -/

/-- Changes the links of a node. -/
def relink (a : Arena) (id : NodeId) (f : Links → Links) : Arena :=
  a.update id fun s => { s with links := f s.links }

def setParent (a : Arena) (id : NodeId) (x : Option NodeId) : Arena :=
  a.relink id fun l => { l with parent := x }

def setFirstChild (a : Arena) (id : NodeId) (x : Option NodeId) : Arena :=
  a.relink id fun l => { l with firstChild := x }

def setLastChild (a : Arena) (id : NodeId) (x : Option NodeId) : Arena :=
  a.relink id fun l => { l with lastChild := x }

def setPrevious (a : Arena) (id : NodeId) (x : Option NodeId) : Arena :=
  a.relink id fun l => { l with previous := x }

def setNext (a : Arena) (id : NodeId) (x : Option NodeId) : Arena :=
  a.relink id fun l => { l with next := x }

/-! ## Moving subtrees -/

/-- Makes a detached node the last child of `parent`. -/
def append (a : Arena) (parent child : NodeId) : Arena :=
  let a := match (a.links parent).lastChild with
    | some last => (a.setPrevious child last).setNext last child
    | none => a.setFirstChild parent child
  (a.setLastChild parent child).setParent child parent

/-- Links a detached node before a child of `parent`, or last if no child is given. -/
def insertBefore (a : Arena) (parent : NodeId) (anchor : Option NodeId) (child : NodeId) :
    Arena :=
  match anchor with
  | none => a.append parent child
  | some anchor =>
    let before := (a.links anchor).previous
    let a := ((a.setPrevious child before).setNext child anchor).setPrevious anchor child
    let a := match before with
      | some x => a.setNext x child
      | none => a.setFirstChild parent child
    a.setParent child parent

/-- Links a detached node after a sibling; nothing happens if that has no parent. -/
def insertAfter (a : Arena) (sibling child : NodeId) : Arena :=
  match (a.links sibling).parent with
  | none => a
  | some parent => a.insertBefore parent (a.links sibling).next child

/-- Takes a node, with its subtree, out of its row. -/
def detach (a : Arena) (id : NodeId) : Arena :=
  let l := a.links id
  let a := match l.previous, l.parent with
    | some x, _ => a.setNext x l.next
    | none, some parent => a.setFirstChild parent l.next
    | none, none => a
  let a := match l.next, l.parent with
    | some x, _ => a.setPrevious x l.previous
    | none, some parent => a.setLastChild parent l.previous
    | none, none => a
  a.relink id fun l => { l with parent := none, previous := none, next := none }

/-! ## Reading rows -/

/-- The nodes from `start` on to the right, at most `fuel` of them. -/
def rowFrom (a : Arena) : Nat → Option NodeId → List NodeId
  | 0, _ => []
  | _, none => []
  | fuel + 1, some id => id :: a.rowFrom fuel (a.links id).next

/-- The children of a node, left to right.  No row is longer than the store. -/
def children (a : Arena) (id : NodeId) : List NodeId :=
  a.rowFrom a.slotCount (a.links id).firstChild

/-- The trees of a row up to the one of `stop`, in front of `right`; at most `fuel` steps to the
left and down. -/
def treesUpTo (a : Arena) : Nat → Option NodeId → Forest NodeId → Forest NodeId
  | 0, _, right => right
  | _, none, right => right
  | fuel + 1, some id, right =>
    a.treesUpTo fuel (a.links id).previous
      (.node id (a.treesUpTo fuel (a.links id).lastChild .nil) right)

/-- What lies below a node.  No way to the left and down is longer than the store. -/
def below (a : Arena) (id : NodeId) : Forest NodeId :=
  a.treesUpTo a.slotCount (a.links id).lastChild .nil

/-- All nodes below `id`, in document order. -/
def descendants (a : Arena) (id : NodeId) : List NodeId := (a.below id).preorder

/-- The content of a node; a number without a slot has none. -/
def element (a : Arena) (id : NodeId) : Element := ((a.slot? id).map (·.element)).getD default

/-- The subtree of a node as a value. -/
def tree? (a : Arena) (id : NodeId) : Option (Tree Element) :=
  (a.slot? id).map fun s => { label := s.element, children := (a.below id).map a.element }

def view? (a : Arena) (id : NodeId) : Option NodeView :=
  (a.slot? id).map fun s =>
    { kind := s.kind
      name := s.element.name
      nameId := (a.names.lookup s.element.name).getD 0
      span := s.element.span
      attributes := s.element.attributes
      links := s.links }

/-! ## Giving back -/

/-- Clears a slot's links and attributes and leaves it to later allocations. -/
def releaseSlot (a : Arena) (id : NodeId) : Arena :=
  { a.update id fun s =>
      { s with links := {}, element := { s.element with attributes := {} } } with
    free := id :: a.free }

/-- Gives back a detached node and all below it, in document order, the node itself last. -/
def release (a : Arena) (id : NodeId) : Arena :=
  (a.descendants id ++ [id]).foldl releaseSlot a

end Arena

end Standoff
