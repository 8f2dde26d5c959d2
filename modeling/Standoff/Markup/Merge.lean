import Standoff.Markup.Placement

/-! # Merging a tree of elements into mark-up

A tree is merged from the outside in: its root is placed, then its children one after another
into what lies inside the root, and so on down.

* `Markup.misfit?`: the first element of a tree that does not lie within its parent.
* `Markup.mergeRow`: merges a row of trees, left to right.
* `Markup.mergeTree`: merges one tree. -/

namespace Standoff

namespace Markup

/-- The first element, in document order, that is inverted or not within its parent's span. -/
def misfit? (parent : Span) : Forest Element → Option MergeConflict
  | .nil => none
  | .node e kids rest =>
    if !e.span.isOrdered then some ⟨e.name, e.span, .inverted⟩
    else if !parent.contains e.span then some ⟨e.name, e.span, .outsideParent parent⟩
    else (misfit? e.span kids).or (misfit? parent rest)

/-- Merges the trees of a row one after another. -/
def mergeRow (balancing : Balancing) : Forest Element → Markup → Supply →
    Except MergeConflict Growth
  | .nil, m, s => .ok ⟨m, s⟩
  | .node e kids rest, m, s =>
    match m.place e [] balancing (fun inside s => mergeRow balancing kids inside s) s with
    | .error conflict => .error conflict
    | .ok p => mergeRow balancing rest p.markup p.supply

/-- Merges one tree; its root has the number in the answer. -/
def mergeTree (balancing : Balancing) (t : Tree Element) (m : Markup) (s : Supply) :
    Except MergeConflict Placement :=
  m.place t.label [] balancing (fun inside s => mergeRow balancing t.children inside s) s

end Markup

end Standoff
