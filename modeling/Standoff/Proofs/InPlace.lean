import Standoff.Proofs.Balancing
import Standoff.Proofs.Origins

/-! # Additions in place
The functions that add to a document answer with a new document or with a conflict.  Here the same
work is done in place, one node after another: a conflict leaves the document as it is at that
moment, whatever has been cut or placed until then.  Every element is checked against the node that
it goes below as it is then, and a strict merge that fails goes back to a copy.

    edit with m below P ── place e ──▸ edit with e below P ── place its children ──▸ …

* `InPlace`: changes that may fail halfway.
* `InPlace.place`, `InPlace.merge`: the additions.
* `InPlace.run_place`: a placement below a node is one in the row below it.
* `Document.insert_inPlace`: an insertion in place gives what the function does. -/

namespace Standoff

/-! ## The mark-up below a node -/

namespace Markup

/-- Mark-up with the row `g` below node `P`. -/
def withBelow (P : NodeId) (g m : Markup) : Markup := Forest.setBelow (·.id == P) g m

/-- The scan of a row, sibling after sibling: the row and the supply as they are where it ends, and
the sibling that ended it if that is not to be cut. -/
def scan (claimed : List NodeId) (span : Span) (balancing : Balancing) :
    Markup → Supply → Growth × Option Node
  | .nil, s => (⟨.nil, s⟩, none)
  | .node n kids rest, s =>
    if n.id ∈ claimed then keep n kids (scan claimed span balancing rest s)
    else match n.span.side span with
      | .crossing pos =>
        match balancing with
        | .strict => (⟨.node n kids rest, s⟩, some n)
        | .inner =>
          let halves := divide pos (.node n kids .nil) s
          if pos = span.stop then (⟨halves.row ++ rest, halves.supply⟩, none)
          else
            let right := scan claimed span balancing rest halves.supply
            (⟨halves.row ++ right.1.markup, right.1.supply⟩, right.2)
      | .after =>
        if n.span.isBeyond span then (⟨.node n kids rest, s⟩, none)
        else keep n kids (scan claimed span balancing rest s)
      | _ => keep n kids (scan claimed span balancing rest s)
where
  /-- A tree in front of a row that has been scanned. -/
  keep (n : Node) (kids : Markup) (r : Growth × Option Node) : Growth × Option Node :=
    (⟨.node n kids r.1.markup, r.1.supply⟩, r.2)

end Markup

/-! ## Edits -/

/-- A document that is being changed, and its cuts so far, the latest first. -/
structure Edit where
  document : Document
  cuts : List Cut := []

namespace Edit

open Document

def supply (w : Edit) : Supply := ⟨w.document.next, w.cuts⟩

/-- Another row below node `P`, and the supply that is left then. -/
def setBelow (w : Edit) (P : NodeId) (g : Growth) : Edit where
  document :=
    { w.document with
      markup := if P = rootId then g.markup else .withBelow P g.markup w.document.markup
      next := g.supply.next }
  cuts := g.supply.cuts

def intern (w : Edit) (names : List String) : Edit :=
  { w with document := { w.document with names := w.document.names.internAll names } }

def gather (w : Edit) (parent : NodeId) (strays : List NodeId) : Edit :=
  { w with document := { w.document with markup := w.document.markup.gather parent strays } }

/-- Why an element over `span` has no place below node `P`, if it has none. -/
def obstacle? (w : Edit) (P : NodeId) (span : Span) : Option ConflictReason :=
  if !span.isOrdered then some .inverted
  else if w.document.text.length < span.stop then some (.outOfBounds w.document.text.length)
  else match w.document.span? P with
    | some parent => if parent.contains span then none else some (.outsideParent parent)
    | none => none

end Edit

/-- A change to a document in place.  When it fails the document stays as it is at that moment. -/
abbrev InPlace (α : Type) : Type := ExceptT MergeConflict (StateM Edit) α

namespace InPlace

open Document Markup

/-- Refuses an element that has no place below node `P`. -/
def check (P : NodeId) (e : Element) : InPlace Unit := do
  let w ← get
  match w.obstacle? P e.span with
  | some reason => throw ⟨e.name, e.span, reason⟩
  | none => pure ()

/-- Looks for the row of an element below node `P`, and scans it. -/
def search (P : NodeId) (e : Element) (claimed : List NodeId) (balancing : Balancing) :
    InPlace (Forest.Focus Node × Growth) := do
  let w ← get
  let c := site claimed e.span (w.document.below P)
  let r := scan claimed e.span balancing c.row w.supply
  set (w.setBelow P ⟨c.plug r.1.markup, r.1.supply⟩)
  match r.2 with
  | some n => throw ⟨e.name, e.span, .crossing n.name n.span⟩
  | none => pure (c, r.1)

/-- Puts an element, made anew, into its row, over what lies inside and over claimed nodes from
elsewhere. -/
def settle (P : NodeId) (e : Element) (claimed : List NodeId) (c : Forest.Focus Node) (g : Growth) :
    InPlace NodeId := do
  let d := deal claimed e.span false g.markup
  let id := g.supply.next
  modify fun w => (w.intern (namesOf [e])).setBelow P
    ⟨c.plug (d.before ++ .node ⟨e.rebuilt, id⟩ d.inside d.after), g.supply.take⟩
  modify fun w => w.gather id (claimed.filter fun x => x ∉ ids c.row)
  return id

/-- Places an element below node `P`. -/
def place (P : NodeId) (e : Element) (claimed : List NodeId) (balancing : Balancing) :
    InPlace NodeId := do
  check P e
  let (c, g) ← search P e claimed balancing
  settle P e claimed c g

/-- Merges the trees of a row below node `P`, one after another. -/
def mergeBelow (balancing : Balancing) : Forest Element → NodeId → InPlace Unit
  | .nil, _ => pure ()
  | .node e kids rest, P => do
    let id ← place P e [] balancing
    mergeBelow balancing kids id
    mergeBelow balancing rest P

/-- Merges a tree below node `P`. -/
def mergeWithin (balancing : Balancing) (t : Tree Element) (P : NodeId) : InPlace NodeId := do
  let id ← place P t.label [] balancing
  mergeBelow balancing t.children id
  return id

def addSpan (name : String) (span : Span) : InPlace NodeId :=
  place rootId ⟨name, span, {}⟩ [] .strict

def insert (e : Element) (claimed : List NodeId) (balancing : Balancing) : InPlace NodeId :=
  place rootId e claimed balancing

end InPlace

/-- Why a tree has no place in the document, if it has none: its root does not lie in the text, or
a node below does not lie within its parent. -/
def Document.refusal? (doc : Document) (t : Tree Element) : Option MergeConflict :=
  match doc.misfit? t.label.span with
  | some reason => some ⟨t.label.name, t.label.span, reason⟩
  | none => Markup.misfit? t.label.span t.children

namespace InPlace

open Document

/-- Merges a tree.  A strict merge that fails halfway puts the document back as it was. -/
def merge (t : Tree Element) (balancing : Balancing) : InPlace NodeId := do
  let w ← get
  if let some conflict := w.document.refusal? t then throw conflict
  match balancing with
  | .inner => mergeWithin .inner t rootId
  | .strict =>
    tryCatch (mergeWithin .strict t rootId) fun conflict => do
      modify fun now => { now with document := w.document }
      throw conflict

end InPlace

/-- Changes a document in place, and what comes of it. -/
def Document.perform (doc : Document) (change : InPlace NodeId) : Delivery Document :=
  let r := change.run.run { document := doc }
  { target := r.2.document, outcome := r.1, cuts := r.2.cuts.reverse }

/-! ## Scans -/

namespace Markup

variable {claimed : List NodeId} {span : Span} {m f g k kids rest : Markup} {s : Supply} {n : Node}
  {P x : NodeId}

/-- A scan that may cut. -/
theorem scan_inner (claimed : List NodeId) (span : Span) (m : Markup) (s : Supply) :
    scan claimed span .inner m s = (cutCrossing claimed span m s, none) := by
  induction m generalizing s with
  | nil => rfl
  | node n kids rest _ ih =>
    rw [scan, cutCrossing]
    simp only [ih]
    split
    · rfl
    · cases n.span.side span with
      | before => rfl
      | inside => rfl
      | after => dsimp only; split <;> rfl
      | crossing pos => dsimp only; split <;> rfl

/-- A scan that may not cut leaves the row. -/
theorem scan_strict (claimed : List NodeId) (span : Span) (m : Markup) (s : Supply) :
    scan claimed span .strict m s = (⟨m, s⟩, firstCrossing claimed span m) := by
  induction m generalizing s with
  | nil => rfl
  | node n kids rest _ ih =>
    rw [scan, firstCrossing]
    simp only [ih]
    split
    · rfl
    · cases n.span.side span with
      | before => rfl
      | inside => rfl
      | after => dsimp only; split <;> rfl
      | crossing pos => rfl

/-! ## Rows below a node -/

theorem withBelow_node : withBelow P g (.node n kids rest) =
    .node n (if n.id = P then g else withBelow P g kids) (withBelow P g rest) := by
  rw [withBelow, Forest.setBelow]
  by_cases hn : n.id = P
  · rw [if_pos (beq_iff_eq.mpr hn), if_pos hn]
    rfl
  · rw [if_neg (mt beq_iff_eq.mp hn), if_neg hn]
    rfl

@[simp] theorem withBelow_append :
    withBelow P g (f ++ k) = withBelow P g f ++ withBelow P g k := by
  induction f with
  | nil => rfl
  | node n kids rest _ ih => rw [Forest.node_append, withBelow_node, withBelow_node, ih]; rfl

theorem withBelow_of_not_mem (h : P ∉ m.ids) : withBelow P g m = m := by
  induction m with
  | nil => rfl
  | node n kids rest ihk ihr =>
    simp only [ids_node, List.mem_cons, List.mem_append, not_or] at h
    rw [withBelow_node, if_neg (Ne.symm h.1), ihk h.2.1, ihr h.2.2]

theorem withBelow_withBelow (f g m : Markup) :
    withBelow P f (withBelow P g m) = withBelow P f m := by
  induction m with
  | nil => rfl
  | node n kids rest ihk ihr =>
    rw [withBelow_node, withBelow_node, withBelow_node, ihr]
    split
    · rfl
    · rw [ihk]

/-- A row below a node that stands below `P` alone. -/
theorem withBelow_inside (hx : x ∉ m.ids) (f g : Markup) :
    withBelow x f (withBelow P g m) = withBelow P (withBelow x f g) m := by
  induction m with
  | nil => rfl
  | node n kids rest ihk ihr =>
    simp only [ids_node, List.mem_cons, List.mem_append, not_or] at hx
    rw [withBelow_node, withBelow_node, withBelow_node, if_neg (Ne.symm hx.1), ihr hx.2.2]
    split
    · rfl
    · rw [ihk hx.2.1]

/-- Around the focussed row nothing changes below a node that is new in the row. -/
theorem withBelow_plug (hx : x ∉ m.ids) (f : Markup) :
    withBelow x f ((site claimed span m).plug g) = (site claimed span m).plug (withBelow x f g) := by
  induction m using Forest.focus_induction (enters claimed span) with
  | row m hm =>
    rw [site_of_none hm]
    rfl
  | inner h n kids rest hh hn ih =>
    simp only [ids_append, ids_node, List.mem_append, List.mem_cons, not_or] at hx
    obtain ⟨hx₁, hx₂, hx₃, hx₄⟩ := hx
    rw [site_append_node hh hn]
    show withBelow x f (h ++ .node n _ rest) = h ++ .node n _ rest
    rw [withBelow_append, withBelow_of_not_mem hx₁, withBelow_node, if_neg (Ne.symm hx₂), ih hx₃,
      withBelow_of_not_mem hx₄]

theorem node?_withBelow {t : Tree Node} (h : m.node? P = some t) :
    (withBelow P g m).node? P = some ⟨t.label, g⟩ := by
  induction m with
  | nil => cases h
  | node n kids rest ihk ihr =>
    rw [node?_node] at h
    rw [withBelow_node, node?_node]
    split at h
    · next hn =>
      cases h
      rw [if_pos hn, if_pos hn]
    · next hn =>
      rw [if_neg hn, if_neg hn]
      rcases Option.or_eq_some_iff.mp h with h | ⟨hnone, h⟩
      · rw [ihk h]
        rfl
      · rw [withBelow_of_not_mem (node?_eq_none_iff.mp hnone), hnone, ihr h]
        rfl

/-- A node that is not there otherwise is found in the row below `P`. -/
theorem node?_withBelow_new (hx : x ∉ m.ids) (hP : P ∈ m.ids) :
    (withBelow P g m).node? x = g.node? x := by
  induction m with
  | nil => cases hP
  | node n kids rest ihk ihr =>
    simp only [ids_node, List.mem_cons, List.mem_append, not_or] at hx
    rw [ids_node, List.mem_cons, List.mem_append] at hP
    have hor (f : Markup) (hxf : x ∉ f.ids) (ih : P ∈ f.ids → (withBelow P g f).node? x = g.node? x) :
        (withBelow P g f).node? x = g.node? x ∨ (withBelow P g f).node? x = none := by
      by_cases hPf : P ∈ f.ids
      · exact .inl (ih hPf)
      · exact .inr (by rw [withBelow_of_not_mem hPf, node?_eq_none_iff.mpr hxf])
    rw [withBelow_node, node?_node, if_neg (Ne.symm hx.1)]
    by_cases hn : n.id = P
    · rw [if_pos hn]
      rcases hor rest hx.2.2 (ihr hx.2.2) with h | h <;> rw [h] <;> cases g.node? x <;> rfl
    · rw [if_neg hn]
      rcases hP with hP | hP | hP
      · exact absurd hP.symm hn
      · rw [ihk hx.2.1 hP]
        rcases hor rest hx.2.2 (ihr hx.2.2) with h | h <;> rw [h] <;> cases g.node? x <;> rfl
      · rw [ihr hx.2.2 hP]
        rcases hor kids hx.2.1 (ihk hx.2.1) with h | h <;> rw [h] <;> cases g.node? x <;> rfl

theorem mem_ids_withBelow (hx : x ∈ (withBelow P g m).ids) : x ∈ m.ids ∨ x ∈ g.ids := by
  induction m with
  | nil => cases hx
  | node n kids rest ihk ihr =>
    rw [withBelow_node, ids_node, List.mem_cons, List.mem_append] at hx
    rw [ids_node, List.mem_cons, List.mem_append]
    rcases hx with hx | hx | hx
    · exact .inl (.inl hx)
    · split at hx
      · exact .inr hx
      · exact (ihk hx).imp_left fun h => .inr (.inl h)
    · exact (ihr hx).imp_left fun h => .inr (.inr h)

end Markup

/-! ## Changes one after another -/

namespace Edit

open Document

variable {w : Edit} {P : NodeId} {span : Span} {g g' : Growth}

theorem setBelow_setBelow : (w.setBelow P g).setBelow P g' = w.setBelow P g' := by
  by_cases hP : P = rootId
  · simp only [setBelow, if_pos hP]
  · simp only [setBelow, if_neg hP, Markup.withBelow_withBelow]

theorem intern_setBelow (names : List String) :
    ((w.setBelow P g).intern names).setBelow P g' = (w.intern names).setBelow P g' :=
  setBelow_setBelow (w := w.intern names)

end Edit

namespace InPlace

open Document Markup

variable {α β : Type} {x : InPlace α} {f : α → InPlace β} {w w' : Edit} {a : α} {c : MergeConflict}

theorem run_bind_ok (h : x.run.run w = (.ok a, w')) : (x >>= f).run.run w = (f a).run.run w' := by
  rw [ExceptT.run_bind, StateT.run_bind, h]
  rfl

theorem run_bind_error (h : x.run.run w = (.error c, w')) :
    (x >>= f).run.run w = (.error c, w') := by
  rw [ExceptT.run_bind, StateT.run_bind, h]
  rfl

theorem run_get {f : Edit → InPlace β} : (get >>= f : InPlace β).run.run w = (f w).run.run w := rfl

variable {P : NodeId} {e : Element} {claimed : List NodeId} {balancing : Balancing}

theorem run_check_some {reason : ConflictReason} (h : w.obstacle? P e.span = some reason) :
    (check P e).run.run w = (.error ⟨e.name, e.span, reason⟩, w) := by
  rw [check, run_get]
  rw [h]
  rfl

theorem run_check_none (h : w.obstacle? P e.span = none) :
    (check P e).run.run w = (.ok (), w) := by
  rw [check, run_get]
  rw [h]
  rfl

theorem run_place_of_obstacle {reason : ConflictReason} (h : w.obstacle? P e.span = some reason) :
    (place P e claimed balancing).run.run w = (.error ⟨e.name, e.span, reason⟩, w) :=
  run_bind_error (run_check_some h)

theorem run_search (h : balancing = .strict →
      crossing? claimed e.span (w.document.below P) = none) :
    (search P e claimed balancing).run.run w =
      let c := site claimed e.span (w.document.below P)
      let g := cutCrossing claimed e.span c.row w.supply
      (.ok (c, g), w.setBelow P ⟨c.plug g.markup, g.supply⟩) := by
  rw [search, run_get]
  cases balancing with
  | inner =>
    simp only [scan_inner]
    rfl
  | strict =>
    have hnone := h rfl
    rw [crossing?] at hnone
    simp only [scan_strict, hnone, cutCrossing_of_firstCrossing hnone]
    rfl

theorem run_search_strict {n : Node} (h : crossing? claimed e.span (w.document.below P) = some n) :
    (search P e claimed .strict).run.run w =
      (.error ⟨e.name, e.span, .crossing n.name n.span⟩,
        w.setBelow P ⟨w.document.below P, w.supply⟩) := by
  rw [search, run_get]
  rw [crossing?] at h
  simp only [scan_strict, h, plug_site]
  rfl

theorem run_settle (c : Forest.Focus Node) (g : Growth) :
    (settle P e claimed c g).run.run w =
      (.ok g.supply.next, ((w.intern (namesOf [e])).setBelow P
        ⟨c.plug ((deal claimed e.span false g.markup).before ++
          .node ⟨e, g.supply.next⟩ (deal claimed e.span false g.markup).inside
            (deal claimed e.span false g.markup).after), g.supply.take⟩).gather
        g.supply.next (claimed.filter fun x => x ∉ ids c.row)) := by
  rw [settle, Element.rebuilt_eq]
  rfl

/-- A placement below `P` is one in the row below `P`. -/
theorem run_place (h : w.obstacle? P e.span = none)
    (hstrict : balancing = .strict → crossing? claimed e.span (w.document.below P) = none) :
    ∃ p, (w.document.below P).place e claimed balancing (fun inside s => .ok ⟨inside, s⟩) w.supply =
        .ok p ∧
      (place P e claimed balancing).run.run w =
        (.ok p.id, ((w.intern (namesOf [e])).setBelow P p.toGrowth).gather p.id p.strays) := by
  rw [place, run_bind_ok (run_check_none h), run_bind_ok (run_search hstrict), place_of_row,
    placeInRow, Element.rebuilt_eq]
  · refine ⟨_, rfl, (run_settle _ _).trans ?_⟩
    rw [Edit.intern_setBelow]
  · intro n hbalancing hcross
    cases (hstrict hbalancing).symm.trans hcross

/-- A placement that may not cut is refused where something crosses. -/
theorem run_place_strict (h : w.obstacle? P e.span = none) {n : Node}
    (hcross : crossing? claimed e.span (w.document.below P) = some n) :
    (place P e claimed .strict).run.run w =
      (.error ⟨e.name, e.span, .crossing n.name n.span⟩,
        w.setBelow P ⟨w.document.below P, w.supply⟩) := by
  rw [place, run_bind_ok (run_check_none h), run_bind_error (run_search_strict hcross)]

end InPlace

/-! ## Additions of one element -/

namespace Document

open Markup InPlace

variable {doc : Document} {e : Element} {claimed : List NodeId} {balancing : Balancing}

theorem perform_eq {change : InPlace NodeId} {outcome : Except MergeConflict NodeId} {w : Edit}
    (h : change.run.run { document := doc } = (outcome, w)) :
    doc.perform change = ⟨w.document, outcome, w.cuts.reverse⟩ := by
  rw [perform, h]

theorem obstacle?_rootId (doc : Document) (span : Span) :
    Edit.obstacle? { document := doc } rootId span = doc.misfit? span := by
  rw [Edit.obstacle?, misfit?]
  split
  · rfl
  · split
    · rfl
    · next hstop =>
      have hstop : span.stop ≤ doc.text.length := Nat.le_of_not_lt hstop
      have hcontains : doc.wholeSpan.contains span = true := by
        simp [wholeSpan, Span.contains, hstop]
      rw [span?, if_pos rfl]
      simp only [hcontains, if_true]

/-- An insertion in place. -/
theorem insert_inPlace (doc : Document) (e : Element) (claimed : List NodeId)
    (balancing : Balancing) :
    doc.deliver (doc.insert e claimed balancing) =
      doc.perform (InPlace.insert e claimed balancing) := by
  rw [InPlace.insert]
  cases hmisfit : doc.misfit? e.span with
  | some reason =>
    have hobstacle := (obstacle?_rootId doc e.span).trans hmisfit
    rw [perform_eq (run_place_of_obstacle hobstacle), insert, hmisfit]
    rfl
  | none =>
    have hobstacle := (obstacle?_rootId doc e.span).trans hmisfit
    rw [insert, hmisfit]
    dsimp only
    by_cases hstrict : balancing = .strict → crossing? claimed e.span doc.markup = none
    · obtain ⟨p, hp, hrun⟩ := run_place (P := rootId) (w := { document := doc }) hobstacle hstrict
      rw [perform_eq hrun]
      have hp : doc.markup.place e claimed balancing (fun inside s => .ok ⟨inside, s⟩)
        ⟨doc.next, []⟩ = .ok p := hp
      rw [hp]
      rfl
    · obtain ⟨rfl, hcross⟩ := Classical.not_imp.mp hstrict
      obtain ⟨n, hn⟩ := Option.ne_none_iff_exists'.mp hcross
      rw [perform_eq (run_place_strict (P := rootId) (w := { document := doc }) hobstacle hn),
        place_strict_of_crossing hn]
      rfl

theorem addSpan_inPlace (doc : Document) (name : String) (span : Span) :
    doc.deliver (doc.addSpan name span) = doc.perform (InPlace.addSpan name span) :=
  insert_inPlace doc ⟨name, span, {}⟩ [] .strict

end Document

end Standoff
