import Standoff.Markup.Merge
import Standoff.NamePool

/-! # Documents: a text and the mark-up over it

The text never changes.  Node 0 is the document node over the whole text; every other node is
an element of the mark-up.  Names get their numbers in the order in which the document first
meets them.

* `Document.addSpan`, `Document.insert`, `Document.merge`: adding elements.  A failure leaves
  no document behind, so the one before it is still the one at hand.
* `Document.setAttribute`, `Document.attribute?`, `Document.attributes`: attributes.
* `Document.view?`, `Document.children`, `Document.descendants`, `Document.findByName`,
  `Document.coveredText?`: reading.
* `Document.outline`: the mark-up on one line.
* `Document.flaw?`: the first breach of nesting and order. -/

namespace Standoff

structure Document where
  text : String
  markup : Markup
  names : NamePool
  /-- The next free node number. -/
  next : NodeId
deriving Repr, DecidableEq

/-- A document with one more element or tree. -/
structure Addition where
  document : Document
  /-- The number of the new element, or of the new tree's root. -/
  id : NodeId
  /-- The cuts it took, in the order in which they were made. -/
  cuts : List Cut
deriving Repr, DecidableEq

namespace Document

/-- The number of the document node. -/
def rootId : NodeId := 0

/-- A text without mark-up. -/
def ofText (text : String) : Document :=
  { text := text, markup := .nil, names := {}, next := 1 }

/-- The span of the document node. -/
def wholeSpan (doc : Document) : Span := ⟨0, doc.text.length⟩

/-! ## Reading -/

def view? (doc : Document) (id : NodeId) : Option NodeView :=
  if id = rootId then
    some
      { kind := .document
        name := ""
        nameId := 0
        span := doc.wholeSpan
        attributes := {}
        links := Links.ofRow rootId none [rootId] doc.markup.rootIds }
  else
    (doc.markup.node? id).bind fun t => (doc.markup.links? rootId id).map fun links =>
      { kind := .element
        name := t.label.name
        nameId := (doc.names.lookup t.label.name).getD 0
        span := t.label.span
        attributes := t.label.attributes
        links := links }

def span? (doc : Document) (id : NodeId) : Option Span :=
  if id = rootId then some doc.wholeSpan else (doc.markup.node? id).map (·.label.span)

/-- The name of a node; the document node has the empty one. -/
def name? (doc : Document) (id : NodeId) : Option String :=
  if id = rootId then some "" else (doc.markup.node? id).map (·.label.name)

/-- The part of the text that a node covers. -/
def coveredText? (doc : Document) (id : NodeId) : Option String :=
  (doc.span? id).map (·.slice doc.text)

/-- What lies below a node. -/
def below (doc : Document) (id : NodeId) : Markup :=
  if id = rootId then doc.markup
  else match doc.markup.node? id with
    | some t => t.children
    | none => .nil

/-- The children of a node, left to right. -/
def children (doc : Document) (id : NodeId) : List NodeId := (doc.below id).rootIds

/-- All nodes below a node, in document order. -/
def descendants (doc : Document) (id : NodeId) : List NodeId := (doc.below id).ids

/-- The outermost elements. -/
def roots (doc : Document) : List NodeId := doc.children rootId

def elementCount (doc : Document) : Nat := doc.markup.size

/-- The elements with a name, in document order. -/
def findByName (doc : Document) (name : String) : List NodeId :=
  (doc.markup.preorder.filter (·.name == name)).map (·.id)

/-- Every element with the number of its parent, in document order. -/
def listing (doc : Document) : List (NodeId × Node) := under rootId doc.markup
where
  under (parent : NodeId) : Markup → List (NodeId × Node)
    | .nil => []
    | .node n kids rest => (parent, n) :: (under n.id kids ++ under parent rest)

def outline (doc : Document) : String := doc.markup.outline

/-! ## Attributes -/

/-- The attributes of an element, in the order in which their names were first set. -/
def attributes (doc : Document) (id : NodeId) : Attributes :=
  match doc.view? id with
  | some v => v.attributes
  | none => {}

def attribute? (doc : Document) (id : NodeId) (key : String) : Option String :=
  (doc.attributes id).get? key

/-- Sets an attribute of an element.  The name gets its number even if there is no such
element. -/
def setAttribute (doc : Document) (id : NodeId) (key value : String) : Document :=
  { doc with
    names := (doc.names.intern key).1
    markup := doc.markup.modify (·.id == id) fun n =>
      { n with attributes := n.attributes.set key value } }

/-! ## Adding elements -/

/-- Why a span has no place in the document, if it has none. -/
def misfit? (doc : Document) (span : Span) : Option ConflictReason :=
  if !span.isOrdered then some .inverted
  else if doc.text.length < span.stop then some (.outOfBounds doc.text.length)
  else none

/-- The names of elements and of their attributes, in document order. -/
def namesOf (es : List Element) : List String :=
  es.flatMap fun e => e.name :: e.attributes.map (·.1)

/-- The document with mark-up that grew by `es`. -/
def grown (doc : Document) (es : List Element) (p : Placement) : Addition where
  document :=
    { doc with
      markup := p.markup.gather p.id p.strays
      names := doc.names.internAll (namesOf es)
      next := p.supply.next }
  id := p.id
  cuts := p.supply.cuts.reverse

/-- Inserts one element.  The claimed elements become its children. -/
def insert (doc : Document) (e : Element) (claimed : List NodeId) (balancing : Balancing) :
    Except MergeConflict Addition :=
  match doc.misfit? e.span with
  | some reason => .error ⟨e.name, e.span, reason⟩
  | none =>
    match doc.markup.place e claimed balancing (fun inside s => .ok ⟨inside, s⟩) ⟨doc.next, []⟩ with
    | .error conflict => .error conflict
    | .ok p => .ok (doc.grown [e] p)

/-- Inserts an element that crosses no other. -/
def addSpan (doc : Document) (name : String) (span : Span) : Except MergeConflict Addition :=
  doc.insert ⟨name, span, {}⟩ [] .strict

/-- Merges a tree of elements. -/
def merge (doc : Document) (t : Tree Element) (balancing : Balancing) :
    Except MergeConflict Addition :=
  match doc.misfit? t.label.span with
  | some reason => .error ⟨t.label.name, t.label.span, reason⟩
  | none =>
    match Markup.misfit? t.label.span t.children with
    | some conflict => .error conflict
    | none =>
      match doc.markup.mergeTree balancing t ⟨doc.next, []⟩ with
      | .error conflict => .error conflict
      | .ok p => .ok (doc.grown (Forest.ofTree t).preorder p)

/-! ## Nesting and order -/

/-- A breach of nesting or order at node `id`. -/
inductive Flaw where
  | alien (id : NodeId)
  | inverted (id : NodeId) (span : Span)
  | orphan (id : NodeId)
  | escapes (id : NodeId) (span parent : Span)
  | overlaps (id : NodeId) (span previous : Span)
deriving Repr, DecidableEq

def Flaw.message : Flaw → String
  | alien id => "node " ++ toString id ++ " is not an element"
  | inverted id span => "node " ++ toString id ++ " has inverted span " ++ span.text
  | orphan id => "node " ++ toString id ++ " has no parent"
  | escapes id span parent =>
    "node " ++ toString id ++ " " ++ span.text ++ " escapes its parent " ++ parent.text
  | overlaps id span previous =>
    "node " ++ toString id ++ " " ++ span.text ++ " overlaps its previous sibling "
      ++ previous.text

/-- The span of a node that can be seen. -/
def spanOf (view? : NodeId → Option NodeView) (id : NodeId) : Span :=
  (view? id).elim ⟨0, 0⟩ (·.span)

/-- The breach at a node.  The node is compared with its parent and with the sibling before it,
wherever its links say that these are. -/
def flawAt? (view? : NodeId → Option NodeView) (id : NodeId) : Option Flaw :=
  (view? id).bind fun v =>
    if v.kind ≠ .element then some (.alien id)
    else if !v.span.isOrdered then some (.inverted id v.span)
    else match v.links.parent with
      | none => some (.orphan id)
      | some p =>
        if !(spanOf view? p).contains v.span then some (.escapes id v.span (spanOf view? p))
        else
          let overlapped := (v.links.previous.map (spanOf view?)).filter fun s =>
            decide (v.span.start < s.stop)
          overlapped.map (Flaw.overlaps id v.span)

/-- The first breach at one of the nodes. -/
def firstFlaw? (view? : NodeId → Option NodeView) (ids : List NodeId) : Option Flaw :=
  ids.findSome? (flawAt? view?)

/-- The first place where a node is no element, is inverted, leaves its parent or overlaps the
sibling before it. -/
def flaw? (doc : Document) : Option Flaw := firstFlaw? doc.view? (doc.descendants rootId)

end Document

end Standoff
