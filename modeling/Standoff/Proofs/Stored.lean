import Standoff.Proofs.Placements

/-!
# Documents that are links only

A document that is stored in an arena is changed by moving links.  Here the changes are put together
from placements along links, each of which gets fuel for twice as many nodes as there are slots; a
placement whose loops run out of it leaves no document at all.

    well-formed document ── change in place ──▸ well-formed document
            │ stored                                    │ stored
    text and arena ─────── change along links ──────▸ text and arena

* `Document.WellFormed.run_place`: a placement in place keeps a document well formed.
* `Relinking`: changes along links, which may run out of fuel.
* `Relinking.place`, `Relinking.insert`, `Relinking.merge`: the additions.
* `Relinking.Traces`, `Relinking.Traces.bind`: the square above, for one change to one document, and
  squares side by side.
* `Document.WellFormed.traces_insert`, `Document.WellFormed.traces_merge`,
  `Document.WellFormed.setAttribute_stored`: the squares of the operations on a document.
-/

namespace Standoff

/-! ## Placements below a node of a well-formed document -/

namespace Markup

/-- Another row below a node is another tree in its place. -/
theorem withBelow_eq_instead {m g : Markup} {u : Tree Node} {P : NodeId} (hm : m.ids.Nodup)
    (hu : m.node? P = some u) : withBelow P g m = instead P (.ofTree ⟨u.label, g⟩) m := by
  induction m with
  | nil => cases hu
  | node n kids rest ihk ihr =>
    obtain ⟨hnk, hnr, hk, hr, hkr⟩ := nodup_node.mp hm
    rw [node?_node] at hu
    rw [withBelow_node, instead_node]
    split at hu
    · next hn =>
      cases hu
      rw [if_pos hn, if_pos hn, withBelow_of_not_mem (hn ▸ hnr), instead_of_not_mem (hn ▸ hnr)]
      rfl
    · next hn =>
      -- the node is on one side only, and the other one stays
      rw [if_neg hn, if_neg hn]
      rcases Option.or_eq_some_iff.mp hu with hu | ⟨hnone, hu⟩
      · have hPr := hkr P (mem_of_node? hu)
        rw [ihk hk hu, withBelow_of_not_mem hPr, instead_of_not_mem hPr]
      · have hPk := node?_eq_none_iff.mp hnone
        rw [ihr hr hu, withBelow_of_not_mem hPk, instead_of_not_mem hPk]

end Markup

namespace Document.WellFormed

open Markup

variable {w : Edit} {P : NodeId} {span : Span} {e : Element} {balancing : Balancing}
  (h : w.document.WellFormed)
include h

/-- The nodes are known by their numbers. -/
theorem known_iff : (P = rootId ∨ P ∈ w.document.markup.ids) ↔ P < w.document.next := by
  rw [h.mem_ids_iff]
  constructor
  · rintro (rfl | ⟨-, hlt⟩)
    · exact h.pos
    · exact hlt
  · exact fun hlt => (Nat.eq_zero_or_pos P).imp_right fun hpos => ⟨hpos, hlt⟩

theorem span?_of_lt (hP : P < w.document.next) : ∃ span, w.document.span? P = some span := by
  obtain ⟨s, hs⟩ := h.stores
  exact ⟨_, hs.span?_eq (h.known_iff.mpr hP)⟩

/-- A row that has grown below a node. -/
theorem setBelow {g : Growth} (hspan : w.document.span? P = some span)
    (hg : Grows span.start span.stop (w.document.below P) w.supply g.markup g.supply) :
    (w.setBelow P g).document.WellFormed := by
  have hcount (y : NodeId) : (w.setBelow P g).document.markup.ids.count y =
      w.document.markup.ids.count y + w.supply.taken g.supply y := by
    by_cases hP : P = rootId
    · simp only [Edit.setBelow, if_pos hP]
      rw [hg.count, Document.below, if_pos hP]
    · rw [Document.span?, if_neg hP] at hspan
      obtain ⟨u, hu, -⟩ := Option.map_eq_some_iff.mp hspan
      obtain ⟨front, back, hfront, hback⟩ := preorder_instead h.nodup hu
      have hkids := hg.count y
      rw [Document.below, if_neg hP, hu] at hkids
      simp only [Edit.setBelow, if_neg hP]
      rw [withBelow_eq_instead h.nodup hu, ids, hback, ids, hfront]
      simp only [Forest.ofTree, Forest.preorder_node, Forest.preorder_nil, List.map_append,
        List.map_cons, List.count_append, List.count_cons, ids] at hkids ⊢
      omega
  refine ⟨?_, Nat.le_trans h.pos hg.le.next, fun y => ?_⟩
  · by_cases hP : P = rootId
    · rw [Document.span?, if_pos hP] at hspan
      cases hspan
      simp only [Edit.setBelow, if_pos hP]
      exact hg.nests
    · rw [Document.span?, if_neg hP] at hspan
      obtain ⟨u, hu, rfl⟩ := Option.map_eq_some_iff.mp hspan
      simp only [Edit.setBelow, if_neg hP]
      rw [withBelow_eq_instead h.nodup hu]
      exact h.nests.instead h.nodup hu ⟨Nat.le_refl _, hg.nests, Nat.le_refl _⟩
  · rw [hcount, h.numbered]
    exact Supply.taken_add (s := ⟨1, []⟩) (t := ⟨w.document.next, []⟩) (u := ⟨g.supply.next, []⟩)
      (.of_cuts h.pos rfl) (.of_cuts hg.le.next rfl) y

/-- An element that nothing keeps out can be inserted below a node. -/
theorem insertable_below (hspan : w.document.span? P = some span)
    (hclear : w.obstacle? P e.span = none) :
    Insertable span.start span.stop [] e (w.document.below P) w.supply := by
  obtain ⟨hord, hlo, hhi⟩ := Edit.within_of_clear hspan hclear
  obtain ⟨s, hs⟩ := h.stores
  have hP : P = rootId ∨ P ∈ w.document.markup.ids := by
    by_cases hP : P = rootId
    · exact .inl hP
    · rw [Document.span?, if_neg hP] at hspan
      obtain ⟨u, hu, -⟩ := Option.map_eq_some_iff.mp hspan
      exact .inr (mem_of_node? hu)
  obtain ⟨hnodup, hsub⟩ := hs.ids_below hP
  exact ⟨h.nests_below hspan, hlo, hord, hhi, hnodup,
    fun x hx => (h.mem_ids_iff.mp (hsub x hx)).2, claims_nil⟩

/-- A placement in place with nothing claimed keeps the document well formed. -/
theorem run_place (hP : P < w.document.next) (e : Element) (balancing : Balancing) :
    let r := (InPlace.place P e [] balancing).run.run w
    r.2.document.WellFormed ∧ r.2.document.text = w.document.text ∧
      w.document.next ≤ r.2.document.next ∧ ∀ id, r.1 = .ok id → id < r.2.document.next := by
  intro r
  obtain ⟨span, hspan⟩ := h.span?_of_lt hP
  cases hclear : w.obstacle? P e.span with
  | some reason =>
    have hr : r = _ := InPlace.run_place_of_obstacle hclear
    rw [hr]
    exact ⟨h, rfl, Nat.le_refl _, fun id hid => nomatch hid⟩
  | none =>
    have hins := h.insertable_below hspan hclear
    -- what forbids a strict placement leaves the row as it is
    by_cases hstrict : balancing = .strict → crossing? [] e.span (w.document.below P) = none
    · obtain ⟨p, hp, hr⟩ := InPlace.run_place hclear hstrict
      have hr : r = _ := hr
      obtain ⟨inside, hin, rfl⟩ :=
        place_ok hins.nests hins.lo_le hins.ordered hins.le_hi claims_nil (fresh_nil _) hp
      cases hin
      have hnamed : (w.intern (namesOf [e])).document.WellFormed := ⟨h.nests, h.pos, h.numbered⟩
      rw [hr]
      refine ⟨hnamed.setBelow hspan hins.grows, rfl, hins.grows.le.next, fun id hid => ?_⟩
      cases hid
      exact Nat.lt_succ_self _
    · obtain ⟨rfl, hcross⟩ := Classical.not_imp.mp hstrict
      obtain ⟨n, hn⟩ := Option.ne_none_iff_exists'.mp hcross
      have hr : r = _ := InPlace.run_place_strict hclear hn
      rw [hr]
      exact ⟨h.setBelow hspan (.refl hins.nests _), rfl, Nat.le_refl _, fun id hid => nomatch hid⟩

end Document.WellFormed

/-! ## Changes along links -/

/-- A text, and the arena that holds the mark-up over it. -/
structure Stored where
  text : String
  arena : Arena
deriving Repr, DecidableEq

def Document.stored (doc : Document) : Stored := ⟨doc.text, doc.arena⟩

/-- A change along links.  When it fails the arena stays as it is at that moment; when a loop runs
out of fuel there is no document any more. -/
abbrev Relinking (α : Type) : Type := ExceptT MergeConflict (StateT Stored Option) α

namespace Stored

open Document

/-- A text without mark-up: its arena holds the document node. -/
def ofText (text : String) : Stored := ⟨text, (({} : Arena).allocDocument text.length).1⟩

/-- Sets an attribute of an element; its name is known to the pool even if there is no such
element. -/
def setAttribute (w : Stored) (id : NodeId) (key value : String) : Stored :=
  { w with
    arena := ({ w.arena with names := (w.arena.names.intern key).1 } : Arena).update id fun s =>
      if s.kind = .element then
        { s with element := { s.element with attributes := s.element.attributes.set key value } }
      else s }

/-- Why a tree has no place in the text, if it has none. -/
def refusal? (w : Stored) (t : Tree Element) : Option MergeConflict :=
  match w.arena.obstacle? w.text.length rootId t.label.span with
  | some reason => some ⟨t.label.name, t.label.span, reason⟩
  | none => Markup.misfit? t.label.span t.children

end Stored

namespace Relinking

open Document

/-- Places an element below node `P`. -/
def place (P : NodeId) (e : Element) (claimed : List NodeId) (balancing : Balancing) :
    Relinking NodeId :=
  ExceptT.mk fun w =>
    (w.arena.place w.text.length P e claimed balancing .needed (2 * w.arena.slotCount)).map
      fun r => (r.outcome, { w with arena := r.arena })

/-- Merges the trees of a row below node `P`, one after another. -/
def mergeBelow (balancing : Balancing) : Forest Element → NodeId → Relinking Unit
  | .nil, _ => pure ()
  | .node e kids rest, P => do
    let id ← place P e [] balancing
    mergeBelow balancing kids id
    mergeBelow balancing rest P

/-- Merges a tree below node `P`. -/
def mergeWithin (balancing : Balancing) (t : Tree Element) (P : NodeId) : Relinking NodeId := do
  let id ← place P t.label [] balancing
  mergeBelow balancing t.children id
  return id

def addSpan (name : String) (span : Span) : Relinking NodeId :=
  place rootId ⟨name, span, {}⟩ [] .strict

def insert (e : Element) (claimed : List NodeId) (balancing : Balancing) : Relinking NodeId :=
  place rootId e claimed balancing

/-- Merges a tree.  A strict merge that fails halfway puts the arena back as it was. -/
def merge (t : Tree Element) (balancing : Balancing) : Relinking NodeId := do
  let w ← get
  if let some conflict := w.refusal? t then throw conflict
  match balancing with
  | .inner => mergeWithin .inner t rootId
  | .strict =>
    tryCatch (mergeWithin .strict t rootId) fun conflict => do
      modify fun now => { now with arena := w.arena }
      throw conflict

/-! ## Changes along links and in place -/

variable {α β : Type}

/-- The change along links comes to what the change in place comes to, and that is well formed. -/
structure Traces (link : Relinking α) (change : InPlace α) (w : Edit) : Prop where
  run : link.run.run w.document.stored =
    some ((change.run.run w).1, (change.run.run w).2.document.stored)
  wellFormed : (change.run.run w).2.document.WellFormed
  text : (change.run.run w).2.document.text = w.document.text
  next_le : w.document.next ≤ (change.run.run w).2.document.next

variable {w w' : Edit} {link : Relinking α} {change : InPlace α} {a : α} {conflict : MergeConflict}
  {P : NodeId} {e : Element} {balancing : Balancing} {claimed : List NodeId} {t : Tree Element}

theorem run_bind_ok {f : α → Relinking β} {v v' : Stored} (h : link.run.run v = some (.ok a, v')) :
    (link >>= f).run.run v = (f a).run.run v' := by
  rw [ExceptT.run_bind, StateT.run_bind, h]
  rfl

theorem run_bind_error {f : α → Relinking β} {v v' : Stored}
    (h : link.run.run v = some (.error conflict, v')) :
    (link >>= f).run.run v = some (.error conflict, v') := by
  rw [ExceptT.run_bind, StateT.run_bind, h]
  rfl

theorem Traces.of_run {r : Except MergeConflict α × Edit} (hchange : change.run.run w = r)
    (hlink : link.run.run w.document.stored = some (r.1, r.2.document.stored))
    (hwf : r.2.document.WellFormed) (htext : r.2.document.text = w.document.text)
    (hnext : w.document.next ≤ r.2.document.next) : Traces link change w := by
  subst hchange
  exact ⟨hlink, hwf, htext, hnext⟩

theorem traces_pure (h : w.document.WellFormed) (a : α) : Traces (pure a) (pure a) w :=
  ⟨rfl, h, rfl, Nat.le_refl _⟩

/-- One change after another. -/
theorem Traces.bind {f : α → Relinking β} {g : α → InPlace β} (h : Traces link change w)
    (hf : ∀ a w', change.run.run w = (.ok a, w') → Traces (f a) (g a) w') :
    Traces (link >>= f) (change >>= g) w := by
  obtain ⟨hlink, hwf, htext, hnext⟩ := h
  cases hchange : change.run.run w with
  | mk outcome w' =>
    rw [hchange] at hlink hwf htext hnext
    cases outcome with
    | error conflict =>
      exact .of_run (InPlace.run_bind_error hchange) (run_bind_error hlink) hwf htext hnext
    | ok a =>
      obtain ⟨hlink', hwf', htext', hnext'⟩ := hf a w' hchange
      exact .of_run (InPlace.run_bind_ok hchange) ((run_bind_ok hlink).trans hlink') hwf'
        (htext'.trans htext) (Nat.le_trans hnext hnext')

/-- What the placement along links and the one in place come to. -/
theorem run_place (h : w.document.WellFormed) (hP : P < w.document.next)
    (hclaims : w.document.ClaimsWithin claimed e.span)
    (hfree : ∀ c ∈ claimed, P ∉ c :: w.document.descendants c) :
    let r := (InPlace.place P e claimed balancing).run.run w
    r.2.document.text = w.document.text →
    (place P e claimed balancing).run.run w.document.stored = some (r.1, r.2.document.stored) := by
  intro r htext
  obtain ⟨s, hs⟩ := h.stores
  obtain ⟨p, hp, -, -, -, hsame⟩ :=
    hs.place_ends (h.known_iff.mpr hP) h hclaims balancing .needed
  obtain ⟨houtcome, harena⟩ := hsame hfree
  have hrun : (place P e claimed balancing).run.run w.document.stored =
      (w.document.arena.place w.document.text.length P e claimed balancing .needed
        (2 * w.document.arena.slotCount)).map fun r => (r.outcome, ⟨w.document.text, r.arena⟩) := rfl
  have hfuel : 2 * w.document.next ≤ 2 * w.document.arena.slotCount :=
    Nat.le_of_eq (congrArg (2 * ·) hs.size.symm)
  rw [hrun, hp _ hfuel, Option.map_some, houtcome, harena, ← htext]
  rfl

/-- A placement with nothing claimed, below any node. -/
theorem traces_place (h : w.document.WellFormed) (hP : P < w.document.next) (e : Element)
    (balancing : Balancing) : Traces (place P e [] balancing) (InPlace.place P e [] balancing) w := by
  obtain ⟨hwf, htext, hnext, -⟩ := h.run_place hP e balancing
  exact ⟨run_place h hP (List.forall_mem_nil _) (List.forall_mem_nil _) htext, hwf, htext, hnext⟩

/-- A merge of a row: every node that trees go below is known when its turn comes. -/
theorem traces_mergeBelow (balancing : Balancing) (fs : Forest Element)
    (h : w.document.WellFormed) (hP : P < w.document.next) :
    Traces (mergeBelow balancing fs P) (InPlace.mergeBelow balancing fs P) w := by
  induction fs generalizing w P with
  | nil => exact traces_pure h ()
  | node e kids rest ihk ihr =>
    -- `e` is known when its children go below it, and `P` still is when the rest does
    refine (traces_place h hP e balancing).bind fun id w₁ h₁ => ?_
    obtain ⟨hwf₁, -, hnext₁, hid⟩ := h.run_place hP e balancing
    rw [h₁] at hwf₁ hnext₁ hid
    have hkids := ihk hwf₁ (hid id rfl)
    refine hkids.bind fun _ w₂ h₂ => ?_
    have hwf₂ := hkids.wellFormed
    have hnext₂ := hkids.next_le
    rw [h₂] at hwf₂ hnext₂
    exact ihr hwf₂ (Nat.lt_of_lt_of_le hP (Nat.le_trans hnext₁ hnext₂))

theorem traces_mergeWithin (balancing : Balancing) (t : Tree Element) (h : w.document.WellFormed)
    (hP : P < w.document.next) :
    Traces (mergeWithin balancing t P) (InPlace.mergeWithin balancing t P) w := by
  refine (traces_place h hP t.label balancing).bind fun id w₁ h₁ => ?_
  obtain ⟨hwf₁, -, -, hid⟩ := h.run_place hP t.label balancing
  rw [h₁] at hwf₁ hid
  have hkids := traces_mergeBelow balancing t.children hwf₁ (hid id rfl)
  refine hkids.bind fun _ w₂ h₂ => ?_
  have hwf₂ := hkids.wellFormed
  rw [h₂] at hwf₂
  exact traces_pure hwf₂ id

/-! ## Merges of a tree -/

variable {v v' : Stored} {id : NodeId}

theorem run_get {f : Stored → Relinking β} : (get >>= f : Relinking β).run.run v = (f v).run.run v :=
  rfl

theorem run_merge_refused (ht : v.refusal? t = some conflict) :
    (merge t balancing).run.run v = some (.error conflict, v) := by
  rw [merge, run_get]
  simp only [ht]
  rfl

theorem run_merge_inner (ht : v.refusal? t = none) :
    (merge t .inner).run.run v = (mergeWithin .inner t rootId).run.run v := by
  rw [merge, run_get]
  simp only [ht]

theorem run_merge_strict (ht : v.refusal? t = none)
    (hrun : (mergeWithin .strict t rootId).run.run v = some (.ok id, v')) :
    (merge t .strict).run.run v = some (.ok id, v') := by
  rw [merge, run_get]
  simp only [ht]
  rw [ExceptT.run_tryCatch, StateT.run_bind, hrun]
  rfl

/-- A strict merge that fails goes back to the arena that it started with. -/
theorem run_merge_strict_failed (ht : v.refusal? t = none)
    (hrun : (mergeWithin .strict t rootId).run.run v = some (.error conflict, v')) :
    (merge t .strict).run.run v = some (.error conflict, { v' with arena := v.arena }) := by
  rw [merge, run_get]
  simp only [ht]
  rw [ExceptT.run_tryCatch, StateT.run_bind, hrun]
  rfl

end Relinking

/-! ## Additions to a stored document -/

namespace Document.WellFormed

open Markup Relinking

variable {doc : Document} (h : doc.WellFormed)
include h

theorem refusal?_stored (t : Tree Element) : doc.stored.refusal? t = doc.refusal? t := by
  obtain ⟨s, hs⟩ := h.stores
  have hobstacle := (hs.obstacle?_eq (w := { document := doc }) (.inl rfl) t.label.span).trans
    (obstacle?_rootId doc t.label.span)
  rw [Stored.refusal?, refusal?]
  exact congrArg (fun reason : Option ConflictReason => match reason with
    | some reason => some (⟨t.label.name, t.label.span, reason⟩ : MergeConflict)
    | none => Markup.misfit? t.label.span t.children) hobstacle

theorem traces_merge (t : Tree Element) (balancing : Balancing) :
    Traces (Relinking.merge t balancing) (InPlace.merge t balancing) { document := doc } := by
  have hstored := h.refusal?_stored t
  have hwithin := traces_mergeWithin (w := { document := doc }) (P := rootId) balancing t h h.pos
  cases ht : doc.refusal? t with
  | some conflict =>
    exact .of_run (InPlace.run_merge_refused ht) (run_merge_refused (hstored.trans ht)) h rfl
      (Nat.le_refl _)
  | none =>
    cases balancing with
    | inner =>
      exact .of_run (InPlace.run_merge_inner ht)
        ((run_merge_inner (hstored.trans ht)).trans hwithin.run) hwithin.wellFormed hwithin.text
        hwithin.next_le
    | strict =>
      obtain ⟨hlink, hwf, htext, hnext⟩ := hwithin
      cases hchange : (InPlace.mergeWithin .strict t rootId).run.run { document := doc } with
      | mk outcome w' =>
        rw [hchange] at hlink hwf htext hnext
        cases outcome with
        | ok id =>
          exact .of_run (InPlace.run_merge_strict ht hchange)
            (run_merge_strict (hstored.trans ht) hlink) hwf htext hnext
        | error conflict =>
          refine .of_run (InPlace.run_merge_strict_failed ht hchange)
            ((run_merge_strict_failed (hstored.trans ht) hlink).trans ?_) h rfl (Nat.le_refl _)
          have htext : w'.document.text = doc.text := htext
          show some (Except.error conflict, Stored.mk w'.document.text doc.arena) = _
          rw [htext]
          rfl

/-- The document node is neither claimed nor below a claimed node. -/
theorem rootId_free {claimed : List NodeId} {span : Span} (hclaims : doc.ClaimsWithin claimed span) :
    ∀ c ∈ claimed, rootId ∉ c :: doc.descendants c := by
  intro c hc hmem
  have hcm := (h.claims hclaims).present c hc
  obtain ⟨u, hu⟩ := exists_node? hcm
  rw [h.descendants_of_node? hu] at hmem
  exact h.rootId_not_mem (treeIds_subset hu hmem)

theorem traces_insert {e : Element} {claimed : List NodeId}
    (hclaims : doc.ClaimsWithin claimed e.span) (balancing : Balancing) :
    Traces (Relinking.insert e claimed balancing) (InPlace.insert e claimed balancing)
      { document := doc } := by
  obtain ⟨hwf, htext, hnext⟩ :
      (doc.perform (InPlace.insert e claimed balancing)).target.WellFormed ∧
      (doc.perform (InPlace.insert e claimed balancing)).target.text = doc.text ∧
      doc.next ≤ (doc.perform (InPlace.insert e claimed balancing)).target.next := by
    rw [← insert_inPlace]
    cases ha : doc.insert e claimed balancing with
    | error conflict => exact ⟨h, rfl, Nat.le_refl _⟩
    | ok a =>
      obtain ⟨hins, rfl⟩ := h.insert_eq hclaims ha
      exact ⟨h.insert hclaims ha, insert_text ha, hins.grows.le.next⟩
  exact ⟨Relinking.run_place (w := { document := doc }) h h.pos hclaims (h.rootId_free hclaims)
    htext, hwf, htext, hnext⟩

theorem traces_addSpan (name : String) (span : Span) :
    Traces (Relinking.addSpan name span) (InPlace.addSpan name span) { document := doc } :=
  traces_place h h.pos ⟨name, span, {}⟩ .strict

end Document.WellFormed

/-! ## Attributes of a stored document -/

/-- The slot of an element takes the attribute, that of the document node does not. -/
theorem Stored.content_setAttribute (w : Stored) (id : NodeId) (key value : String) {x : NodeId}
    {kind : NodeKind} {e : Element} (hx : w.arena.content x = some (kind, e)) :
    (w.setAttribute id key value).arena.content x = some (kind,
      if id = x ∧ kind = .element then { e with attributes := e.attributes.set key value }
      else e) := by
  obtain ⟨slot, hslot, hsame⟩ := Option.map_eq_some_iff.mp hx
  obtain ⟨rfl, rfl⟩ := Prod.mk.inj hsame
  rw [setAttribute, Arena.content_update]
  by_cases hid : id = x
  · show (if id = x then (w.arena.slot? x).map _ else _) = _
    rw [if_pos hid, hslot]
    by_cases hkind : slot.kind = .element <;> simp [hid, hkind]
  · rw [if_neg hid, if_neg fun hboth => hid hboth.1]
    exact hx

theorem Document.shape_setAttribute (doc : Document) (id : NodeId) (key value : String) :
    (doc.setAttribute id key value).markup.shape = doc.markup.shape := by
  show Forest.map _ (Forest.map _ doc.markup) = _
  rw [Forest.map_map]
  refine Forest.map_congr fun n _ => ?_
  dsimp only
  split <;> rfl

/-- In the arena an attribute is set where the document sets it. -/
theorem Document.WellFormed.setAttribute_stored {doc : Document} (h : doc.WellFormed) (id : NodeId)
    (key value : String) :
    doc.stored.setAttribute id key value = (doc.setAttribute id key value).stored := by
  obtain ⟨s, hs⟩ := h.stores
  have hshape := doc.shape_setAttribute id key value
  have hstores : (doc.stored.setAttribute id key value).arena.Stores s
      (doc.setAttribute id key value) :=
    { (hs.toKeeps.names _).update id _ fun t => by split <;> rfl with
      free := hs.free
      loose := hs.loose
      size := (Arena.size_update ..).trans hs.size
      names := congrArg (fun names : NamePool => (names.intern key).1) hs.names
      root := by rw [← Markup.labels_shape, hshape, Markup.labels_shape, hs.root]
      whole := by
        rw [doc.stored.content_setAttribute id key value hs.whole, if_neg fun hboth => nomatch hboth.2]
        rfl
      carries := Arena.carries_of_unfolds (hshape ▸ hs.carries.unfolds) fun n hn => by
        obtain ⟨k, hk, rfl⟩ := List.mem_map.mp ((Forest.preorder_map _ doc.markup).symm ▸ hn)
        have hnode := doc.stored.content_setAttribute id key value (hs.carries.node hk)
        by_cases hid : k.id = id
        · simpa [hid] using hnode
        · simpa [hid, Ne.symm hid] using hnode }
  exact congrArg (Stored.mk doc.text) hstores.eq_arena

end Standoff
