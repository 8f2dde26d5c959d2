import Standoff.Arena
import Standoff.Document
import Standoff.Event
import Standoff.Options
import Standoff.Text.Quoted

/-! # Builder: from grammar events to mark-up

A builder follows the nonterminals that are open, the attribute scopes inside the innermost of
them, and the cursor.  When a nonterminal ends, its node is delivered:

* deferred: a root goes to the target as a whole tree, all others wait below their parent;
* incremental: every node goes to the target at once, with the nodes that the target made for
  its children as its claim.

Nodes that wait are kept in an arena.  An event that is refused changes nothing, except that a
node which the target refuses is gone.

* `MergeTarget`: what nodes are delivered to; a `Document` is one.
* `Builder.handle`: the handler.
* `Builder.finish`: the end of the stream. -/

namespace Standoff

/-! ## Targets -/

/-- A target's answer: its next state, the node it made, and the cuts that took. -/
structure Delivery (τ : Type) where
  target : τ
  outcome : Except MergeConflict NodeId
  cuts : List Cut := []

/-- What finished nodes are delivered to. -/
class MergeTarget (τ : Type) where
  /-- Takes a whole tree. -/
  merge : τ → Tree Element → Balancing → Delivery τ
  /-- Takes one element over nodes that it made before. -/
  insert : τ → Element → List NodeId → Balancing → Delivery τ

/-- The document after an attempt to add to it. -/
def Document.deliver (doc : Document) (attempt : Except MergeConflict Addition) :
    Delivery Document :=
  match attempt with
  | .ok a => { target := a.document, outcome := .ok a.id, cuts := a.cuts }
  | .error conflict => { target := doc, outcome := .error conflict }

instance : MergeTarget Document where
  merge doc t balancing := doc.deliver (doc.merge t balancing)
  insert doc e claimed balancing := doc.deliver (doc.insert e claimed balancing)

/-! ## State -/

/-- A nonterminal that has started and not ended. -/
structure OpenNode where
  /-- Its slot among the waiting nodes. -/
  id : NodeId
  /-- The target's nodes for its children so far, if delivery is incremental. -/
  claimed : List NodeId := []
deriving Repr, DecidableEq

/-- An attribute that has started and not ended. -/
structure AttributeScope where
  name : String
  value : String := ""
deriving Repr, DecidableEq

/-- Counts of a run. -/
structure BuildReport where
  cursor : Nat
  /-- Roots delivered. -/
  roots : Nat
  /-- Nodes delivered. -/
  merged : Nat
deriving Repr, DecidableEq

structure Builder (τ : Type) where
  target : τ
  options : Options
  /-- The nodes that are not delivered yet. -/
  pending : Arena := {}
  /-- The open nonterminals, the innermost first. -/
  stack : List OpenNode := []
  /-- The open attributes of the innermost nonterminal, the innermost first. -/
  scopes : List AttributeScope := []
  cursor : Nat := 0
  roots : Nat := 0
  merged : Nat := 0

/-- The furthest cursor: the greatest number in a word of 64 bits. -/
def maxCursor : Nat := 18446744073709551615

namespace Builder

variable {τ : Type}

/-- A builder at the start of a stream. -/
def start (target : τ) (options : Options) : Builder τ := { target := target, options := options }

/-- Number of open nonterminals. -/
def depth (b : Builder τ) : Nat := b.stack.length

def report (b : Builder τ) : BuildReport := ⟨b.cursor, b.roots, b.merged⟩

/-- Refuses an event that does not nest. -/
def mismatch (b : Builder τ) (kind : Mismatch) : Response (Builder τ) :=
  .refuse b (.mismatch kind b.cursor)

/-- The name of a waiting node. -/
def nameOf (b : Builder τ) (n : OpenNode) : String := (b.pending.name? n.id).getD ""

/-! ## Trace -/

/-- What the trace says about an event, between its kind and the cursor. -/
def detail (b : Builder τ) : Event → String
  | .startNonterminal name => name
  | .endNonterminal name => name
  | .startAttribute name => name
  | .endAttribute =>
    match b.scopes with
    | [] => "-"
    | s :: _ => s.name ++ "=" ++ Text.quote s.value
  | .terminal codepoint => AnnotateError.codepointText codepoint
  | .excluded length => toString length

/-- The trace of an event, if there is to be one. -/
def traced (b : Builder τ) (e : Event) : List Notice :=
  if b.options.trace then
    [.line (e.kind.text ++ " " ++ b.detail e ++ " @" ++ toString b.cursor)]
  else []

/-- A line about a delivery, if there is to be one. -/
def remark (b : Builder τ) (text : String) : List Notice :=
  if b.options.verbose then [.line text] else []

/-! ## Delivery -/

section Delivery

variable [MergeTarget τ]

/-- Delivers the tree of a root. -/
def deliverTree (b : Builder τ) (id : NodeId) : Response (Builder τ) :=
  let t := (b.pending.tree? id).getD ⟨default, .nil⟩
  let count := 1 + t.children.size
  let d := MergeTarget.merge b.target t b.options.balancing
  let cuts := d.cuts.map Notice.cut
  let b := { b with target := d.target, pending := b.pending.release id }
  match d.outcome with
  | .error conflict => (Response.refuse b (.conflict conflict)).withNotices cuts
  | .ok _ =>
    .accept { b with roots := b.roots + 1, merged := b.merged + count }
      (cuts
        ++ b.remark ("merged " ++ t.label.name ++ " " ++ t.label.span.text ++ ", "
          ++ toString count ++ " node(s)")
        ++ [.closed t.label.name t.label.span])

/-- Delivers one node over those of its children. -/
def deliverElement (b : Builder τ) (n : OpenNode) : Response (Builder τ) :=
  let e := b.pending.element n.id
  let d := MergeTarget.insert b.target e n.claimed b.options.balancing
  let cuts := d.cuts.map Notice.cut
  let b := { b with target := d.target, pending := b.pending.release n.id }
  match d.outcome with
  | .error conflict => (Response.refuse b (.conflict conflict)).withNotices cuts
  | .ok host =>
    let b := { b with merged := b.merged + 1 }
    let b := match b.stack with
      | [] => { b with roots := b.roots + 1 }
      | parent :: outer =>
        { b with stack := { parent with claimed := parent.claimed ++ [host] } :: outer }
    .accept b
      (cuts
        ++ b.remark ("inserted " ++ e.name ++ " " ++ e.span.text ++ " over "
          ++ toString n.claimed.length ++ " child(ren)")
        ++ [.closed e.name e.span])

/-- Delivers a node that has left the stack. -/
def deliver (b : Builder τ) (n : OpenNode) : Response (Builder τ) :=
  match b.options.merge, b.stack with
  | .deferred, parent :: _ =>
    .accept { b with pending := b.pending.append parent.id n.id } []
  | .deferred, [] => b.deliverTree n.id
  | .incremental, _ => b.deliverElement n

end Delivery

/-! ## Events -/

/-- Moves the cursor by `length`, or says that it would go too far. -/
def advanced (b : Builder τ) (length : Nat) : Except AnnotateError (Builder τ) :=
  if b.cursor + length ≤ maxCursor then .ok { b with cursor := b.cursor + length }
  else .error (.cursorOverflow length b.cursor)

def startNonterminal (b : Builder τ) (name : String) : Response (Builder τ) :=
  if name = "" then b.mismatch .emptyName
  else match b.scopes with
    | _ :: _ => b.mismatch (.nonterminalInAttribute name)
    | [] =>
      let (pending, id) := b.pending.allocElement name (.emptyAt b.cursor)
      .accept { b with pending := pending, stack := { id := id } :: b.stack } []

def endNonterminal [MergeTarget τ] (b : Builder τ) (name : String) : Response (Builder τ) :=
  match b.stack with
  | [] => b.mismatch (.unopenedEnd name)
  | n :: outer =>
    if b.nameOf n ≠ name then b.mismatch (.nameMismatch (b.nameOf n) name)
    else match b.scopes with
      | _ :: _ => b.mismatch (.attributeOpenAtEnd name)
      | [] =>
        deliver { b with stack := outer, pending := b.pending.setStop n.id b.cursor } n

def startAttribute (b : Builder τ) (name : String) : Response (Builder τ) :=
  match b.stack with
  | [] => b.mismatch (.attributeOutsideNode name)
  | _ :: _ => .accept { b with scopes := { name := name } :: b.scopes } []

def endAttribute (b : Builder τ) : Response (Builder τ) :=
  match b.scopes, b.stack with
  | [], _ => b.mismatch .unopenedAttributeEnd
  | s :: outer, [] => { b with scopes := outer }.mismatch (.attributeOutsideNode s.name)
  | s :: outer, n :: _ =>
    .accept { b with scopes := outer, pending := b.pending.setAttribute n.id s.name s.value } []

/-- Adds a character to the value of the innermost attribute, if one is open. -/
def pushChar (b : Builder τ) (c : Char) : Builder τ :=
  match b.scopes with
  | [] => b
  | s :: outer => { b with scopes := { s with value := s.value.push c } :: outer }

/-- A terminal moves the cursor now. -/
def advances (b : Builder τ) : Bool :=
  match b.scopes with
  | [] => true
  | s :: _ => b.options.attributeCursor.advances s.name

def terminal (b : Builder τ) (codepoint : Nat) : Response (Builder τ) :=
  match Text.contentChar? codepoint with
  | none => .refuse b (.illegalCharacter codepoint b.cursor)
  | some c =>
    match if b.advances then b.advanced 1 else .ok b with
    | .error e => .refuse b e
    | .ok moved => .accept (moved.pushChar c) []

def excluded (b : Builder τ) (length : Nat) : Response (Builder τ) :=
  match b.advanced length with
  | .error e => .refuse b e
  | .ok moved => .accept moved []

/-- Takes an event. -/
def apply [MergeTarget τ] (b : Builder τ) : Event → Response (Builder τ)
  | .startNonterminal name => b.startNonterminal name
  | .endNonterminal name => b.endNonterminal name
  | .startAttribute name => b.startAttribute name
  | .endAttribute => b.endAttribute
  | .terminal codepoint => b.terminal codepoint
  | .excluded length => b.excluded length

/-- Takes an event, and traces it first. -/
def handle [MergeTarget τ] : Handler (Builder τ) := fun b e =>
  (b.apply e).withNotices (b.traced e)

/-- Ends the stream: everything that was opened must have been closed. -/
def finish (b : Builder τ) : Except AnnotateError BuildReport :=
  match b.stack, b.scopes with
  | [], [] => .ok b.report
  | stack, scopes => .error (.mismatch (.unclosed stack.length scopes.length) b.cursor)

end Builder

end Standoff
