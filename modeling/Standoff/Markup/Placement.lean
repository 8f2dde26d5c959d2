import Standoff.Error
import Standoff.Markup.Division
import Standoff.Policy

/-! # Placement of one element among existing ones

A new element goes into the innermost row whose owner has room for it, takes the siblings that
lie inside it as children, and stands between those before and those after it.

1. `Span.admits` tells which existing node the search for the row goes into; the row is the
   `Forest.focus` of that test.
2. `Span.side` tells how a sibling lies.  One that crosses a boundary of the new span is cut
   there (`Markup.cutCrossing`), or forbids the placement (`Markup.firstCrossing`).
3. `Markup.deal` sorts the row into siblings before, inside and after.
4. `Markup.place` puts the parts together.

Nodes may be *claimed* for the new element: the search does not go into them, and they become
children whatever their span.  Claimed nodes outside the row are *strays*; `Markup.gather`
fetches them. -/

namespace Standoff

/-! ## How spans lie -/

/-- How an existing sibling lies to a new span. -/
inductive Side where
  | before
  | inside
  | after
  /-- It crosses the boundary of the new span at `pos`. -/
  | crossing (pos : Nat)
deriving Repr, DecidableEq

namespace Span

/-- How `existing` lies to `span`.  A marker on a boundary of the new span stays outside. -/
def side (existing span : Span) : Side :=
  if existing.isEmpty then
    if existing.start ≤ span.start then .before
    else if span.stop ≤ existing.start then .after
    else .inside
  else if existing.stop ≤ span.start then .before
  else if span.stop ≤ existing.start then .after
  else if span.contains existing then .inside
  else if existing.start < span.start then .crossing span.start
  else .crossing span.stop

/-- A node over `existing` has room for `span`.  Equal spans nest the new one inside; a marker
needs a character on both sides. -/
def admits (existing span : Span) : Bool :=
  if span.isEmpty then existing.strictlyContains span.start
  else !existing.isEmpty && existing.contains span

/-- Nothing to the right of `existing`, which lies after `span`, can belong inside.  Markers at
the end of `span` say nothing, since claimed markers may follow them. -/
def isBeyond (existing span : Span) : Bool :=
  !existing.isEmpty || decide (span.stop < existing.start)

end Span

/-! ## Siblings that cross -/

namespace Markup

/-- The first sibling that crosses `span`, claimed ones and those beyond it apart. -/
def firstCrossing (claimed : List NodeId) (span : Span) : Markup → Option Node
  | .nil => none
  | .node n _ rest =>
    if n.id ∈ claimed then firstCrossing claimed span rest
    else match n.span.side span with
      | .crossing _ => some n
      | .after => if n.span.isBeyond span then none else firstCrossing claimed span rest
      | _ => firstCrossing claimed span rest

/-- Cuts every sibling that crosses `span` at the boundary it crosses, claimed ones and those
beyond it apart.  A sibling cut at the end of `span` leaves its right half beyond. -/
def cutCrossing (claimed : List NodeId) (span : Span) : Markup → Supply → Growth
  | .nil, s => ⟨.nil, s⟩
  | .node n kids rest, s =>
    if n.id ∈ claimed then keep n kids (cutCrossing claimed span rest s)
    else match n.span.side span with
      | .crossing pos =>
        let halves := divide pos (.node n kids .nil) s
        if pos = span.stop then ⟨halves.row ++ rest, halves.supply⟩
        else
          let right := cutCrossing claimed span rest halves.supply
          ⟨halves.row ++ right.markup, right.supply⟩
      | .after =>
        if n.span.isBeyond span then ⟨.node n kids rest, s⟩
        else keep n kids (cutCrossing claimed span rest s)
      | _ => keep n kids (cutCrossing claimed span rest s)
where
  /-- A tree in front of a row that has grown. -/
  keep (n : Node) (kids : Markup) (g : Growth) : Growth := { g with markup := .node n kids g.markup }

/-! ## Before, inside, after -/

/-- A row sorted by side. -/
structure Deal where
  before : Markup
  inside : Markup
  after : Markup
deriving Repr, DecidableEq

/-- Sorts a row without crossings.  Claimed nodes go inside.  Once a sibling lies after `span`
(`passed`), only nodes that go inside leave their place. -/
def deal (claimed : List NodeId) (span : Span) : Bool → Markup → Deal
  | _, .nil => ⟨.nil, .nil, .nil⟩
  | passed, .node n kids rest =>
    if n.id ∈ claimed then
      let d := deal claimed span passed rest
      { d with inside := .node n kids d.inside }
    else match n.span.side span with
      | .inside =>
        let d := deal claimed span passed rest
        { d with inside := .node n kids d.inside }
      | .after =>
        if n.span.isBeyond span then ⟨.nil, .nil, .node n kids rest⟩
        else
          let d := deal claimed span true rest
          { d with after := .node n kids d.after }
      | _ =>
        let d := deal claimed span passed rest
        if passed then { d with after := .node n kids d.after }
        else { d with before := .node n kids d.before }

/-! ## Placement -/

end Markup

/-- Mark-up with a new node, and the claimed nodes that are not in its reach. -/
structure Placement extends Growth where
  id : NodeId
  strays : List NodeId
deriving Repr, DecidableEq

namespace Markup

/-- Places `e`, made anew, in a row.  `fill` may add to what lies inside. -/
def placeInRow (e : Element) (claimed : List NodeId) (balancing : Balancing)
    (fill : Markup → Supply → Except MergeConflict Growth) (row : Markup) (s : Supply) :
    Except MergeConflict Placement :=
  match balancing, row.firstCrossing claimed e.span with
  | .strict, some n => .error ⟨e.name, e.span, .crossing n.name n.span⟩
  | _, _ =>
    let reach := row.ids
    let cut := row.cutCrossing claimed e.span s
    let d := deal claimed e.span false cut.markup
    match fill d.inside cut.supply.take with
    | .error conflict => .error conflict
    | .ok inside =>
      .ok
        { markup := d.before ++ .node ⟨e.rebuilt, cut.supply.next⟩ inside.markup d.after
          supply := inside.supply
          id := cut.supply.next
          strays := claimed.filter fun c => c ∉ reach }

/-- Places `e` in the innermost row that has room for it. -/
def place (e : Element) (claimed : List NodeId) (balancing : Balancing)
    (fill : Markup → Supply → Except MergeConflict Growth) (m : Markup) (s : Supply) :
    Except MergeConflict Placement :=
  let c := m.focus fun n => n.id ∉ claimed && n.span.admits e.span
  match placeInRow e claimed balancing fill c.row s with
  | .error conflict => .error conflict
  | .ok p => .ok { p with markup := c.plug p.markup }

/-! ## Strays -/

/-- The order of children that come together from several rows: by start, markers first. -/
def comesFirst (s t : Span) : Bool :=
  decide (s.start < t.start) || (s.start == t.start && (s.isEmpty || !t.isEmpty))

/-- Inserts a numbered span before the first one that it may precede. -/
def insertInOrder (x : NodeId × Span) : List (NodeId × Span) → List (NodeId × Span)
  | [] => [x]
  | y :: rest => if comesFirst x.2 y.2 then x :: y :: rest else y :: insertInOrder x rest

/-- Sorts by `comesFirst`; nodes that may stand either way keep their order. -/
def inOrder (xs : List (NodeId × Span)) : List (NodeId × Span) := xs.foldr insertInOrder []

/-- Makes `x`, with all below it, the last child of `parent`. -/
def moveUnder (parent : NodeId) (m : Markup) (x : NodeId) : Markup :=
  match m.remove (·.id == x) with
  | some (t, m) => m.adopt (·.id == parent) t
  | none => m

/-- Fetches strays from wherever they are, and orders them among the children of `parent`. -/
def gather (parent : NodeId) (strays : List NodeId) (m : Markup) : Markup :=
  match strays, m.node? parent with
  | _ :: _, some t =>
    let members := (rootIds t.children ++ strays).filterMap fun x =>
      (m.node? x).map fun t => (x, t.label.span)
    ((inOrder members).map (·.1)).foldl (moveUnder parent) m
  | _, _ => m

end Markup

end Standoff
