import Standoff.Proofs.Atomicity
import Standoff.Proofs.Scans
import Standoff.Proofs.Searches
import Standoff.Proofs.Splits

/-!
# How far a scan goes

The scan of a row may end before the row does: behind the first sibling after the span with nothing
but siblings behind the span after it, nothing can belong inside.  Markers at the end of the span do
not end it, since a claimed marker may stand among them.

    before … │ across the start │ inside … │ across the end │ after …

* `Markup.InClasses`, `Markup.inClasses`: the sides of siblings, along a row with nothing claimed.
* `Arena.Scan.readAll_deal`: what a scan adopts, and where it puts the new node.
* `Edit.searched`, `Arena.Stores.searched`: the search and the scan on a document.
* `Document.WellFormed.scan_reach`: a scan to the end of the row does the same.
-/

namespace Standoff

/-! ## The sides of siblings -/

namespace Markup

variable {lo hi : Nat} {m : Markup} {span : Span} {n : Node}

/-- Siblings before the span, at most one across its start, siblings inside, at most one across its
end, and siblings after it. -/
def InClasses (span : Span) (l : List Node) : Prop :=
  ∃ before acrossStart inside acrossStop after : List Node,
    l = before ++ (acrossStart ++ (inside ++ (acrossStop ++ after))) ∧
    (∀ n ∈ before, n.span.side span = .before) ∧
    (acrossStart.length ≤ 1 ∧
      ∀ n ∈ acrossStart, n.span.side span = .crossing span.start ∧ n.span.start < span.start) ∧
    (∀ n ∈ inside, n.span.side span = .inside) ∧
    (acrossStop.length ≤ 1 ∧
      ∀ n ∈ acrossStop, n.span.side span = .crossing span.stop ∧ span.start ≤ n.span.start) ∧
    ∀ n ∈ after, n.span.side span = .after

theorem after_of_nests (h : Nests lo hi m) (hab : span.start ≤ span.stop) (hlo : span.stop ≤ lo)
    (hstart : span.start < lo) : ∀ n ∈ m.labels, n.span.side span = .after := fun n hn => by
  have hbounds := h.bounds (Forest.labels_subset_preorder hn)
  exact Span.side_after ⟨hab, by omega⟩ hbounds.2.1

/-- From inside the span on. -/
theorem inClasses_inside (h : Nests lo hi m) (hab : span.start ≤ span.stop)
    (hlo : span.start < lo) : ∃ inside acrossStop after : List Node,
      m.labels = inside ++ (acrossStop ++ after) ∧
      (∀ n ∈ inside, n.span.side span = .inside) ∧
      (acrossStop.length ≤ 1 ∧
        ∀ n ∈ acrossStop, n.span.side span = .crossing span.stop ∧ span.start ≤ n.span.start) ∧
      ∀ n ∈ after, n.span.side span = .after := by
  induction m generalizing lo with
  | nil => exact ⟨[], [], [], rfl, by simp, by simp, by simp⟩
  | node n kids rest _ ih =>
    obtain ⟨hn, hkids, hrest⟩ := nests_node.mp h
    have hord := hkids.le
    rcases Span.sides n.span span with hs | hs | hs | hs | hs | hs
    · omega
    · exact ⟨[], [], n :: rest.labels, rfl, by simp, by simp,
        after_of_nests (m := .node n kids rest) (nests_node.mpr ⟨Nat.le_refl _, hkids, hrest⟩) hab
          hs.1 (by omega)⟩
    · obtain ⟨inside, acrossStop, after, heq, hinside, hstop, hafter⟩ := ih hrest (by omega)
      refine ⟨n :: inside, acrossStop, after, by rw [Forest.labels_node, heq]; rfl, ?_, hstop, hafter⟩
      exact List.forall_mem_cons.mpr ⟨Span.side_inside hs hord, hinside⟩
    · omega
    · refine ⟨[], [n], rest.labels, rfl, by simp, ⟨Nat.le_refl _, ?_⟩,
        after_of_nests hrest hab (Nat.le_of_lt hs.2.2) (by omega)⟩
      exact fun k hk => List.mem_singleton.mp hk ▸ ⟨Span.side_crossStop hs, hs.1⟩
    · omega

/-- The sides come in order along a row that has no room for the span. -/
theorem inClasses (h : Nests lo hi m) (hab : span.start ≤ span.stop)
    (hroom : ∀ n ∈ m.labels, n.span.admits span = false) : InClasses span m.labels := by
  induction m generalizing lo with
  | nil => exact ⟨[], [], [], [], [], rfl, by simp, by simp, by simp, by simp, by simp⟩
  | node n kids rest _ ih =>
    obtain ⟨hn, hkids, hrest⟩ := nests_node.mp h
    have hord := hkids.le
    have hfull : ¬ n.span.admits span = true := by simp [hroom n (List.mem_cons_self ..)]
    rw [Span.admits_iff] at hfull
    rcases Span.sides n.span span with hs | hs | hs | hs | hs | hs
    · obtain ⟨before, acrossStart, inside, acrossStop, after, heq, hbefore, h⟩ :=
        ih hrest fun k hk => hroom k (List.mem_cons_of_mem _ hk)
      refine ⟨n :: before, acrossStart, inside, acrossStop, after,
        by rw [Forest.labels_node, heq]; rfl, ?_, h⟩
      exact List.forall_mem_cons.mpr ⟨Span.side_before hs, hbefore⟩
    · refine ⟨[], [], [], [], n :: rest.labels, rfl, by simp, by simp, by simp, by simp, ?_⟩
      exact List.forall_mem_cons.mpr
        ⟨Span.side_after ⟨hab, hs⟩ hord, after_of_nests hrest hab (by omega) (by omega)⟩
    · obtain ⟨inside, acrossStop, after, heq, hinside, h⟩ := inClasses_inside hrest hab (by omega)
      refine ⟨[], [], n :: inside, acrossStop, after, by rw [Forest.labels_node, heq]; rfl, by simp,
        by simp, ?_, h⟩
      exact List.forall_mem_cons.mpr ⟨Span.side_inside hs hord, hinside⟩
    · obtain ⟨inside, acrossStop, after, heq, h⟩ := inClasses_inside hrest hab (by omega)
      refine ⟨[], [n], inside, acrossStop, after, by rw [Forest.labels_node, heq]; rfl, by simp,
        ⟨Nat.le_refl _, fun k hk => ?_⟩, h⟩
      exact List.mem_singleton.mp hk ▸ ⟨Span.side_crossStart ⟨hs.1, hs.2.1, hab⟩, hs.1⟩
    · refine ⟨[], [], [], [n], rest.labels, rfl, by simp, by simp, by simp,
        ⟨Nat.le_refl _, fun k hk => ?_⟩, after_of_nests hrest hab (by omega) (by omega)⟩
      exact List.mem_singleton.mp hk ▸ ⟨Span.side_crossStop hs, hs.1⟩
    · omega

section Cuts

variable {claimed : List NodeId} {s : Supply} {x : NodeId} {kids rest : Markup}

/-- What the cuts of a row make of its first sibling: it stays whole, and so may the rest of the
row, or it is cut. -/
theorem cutCrossing_cases (claimed : List NodeId) (span : Span) (n : Node) (kids rest : Markup)
    (s : Supply) :
    cutCrossing claimed span (.node n kids rest) s =
        ⟨.node n kids (cutCrossing claimed span rest s).markup,
          (cutCrossing claimed span rest s).supply⟩ ∨
      cutCrossing claimed span (.node n kids rest) s = ⟨.node n kids rest, s⟩ ∨
      ∃ pos halves, halves = divide pos (.node n kids .nil) s ∧
        (cutCrossing claimed span (.node n kids rest) s = ⟨halves.row ++ rest, halves.supply⟩ ∨
          cutCrossing claimed span (.node n kids rest) s =
            ⟨halves.row ++ (cutCrossing claimed span rest halves.supply).markup,
              (cutCrossing claimed span rest halves.supply).supply⟩) := by
  by_cases hc : n.id ∈ claimed
  · exact .inl (cutCrossing_claimed hc)
  · cases hside : n.span.side span with
    | before => exact .inl (cutCrossing_whole hc (.inl hside))
    | inside => exact .inl (cutCrossing_whole hc (.inr (.inl hside)))
    | after =>
      cases hbeyond : n.span.isBeyond span with
      | true => exact .inr (.inl (by simp [cutCrossing, hc, hside, hbeyond]))
      | false => exact .inl (cutCrossing_whole hc (.inr (.inr ⟨hside, hbeyond⟩)))
    | crossing pos =>
      refine .inr (.inr ⟨pos, _, rfl, ?_⟩)
      simp only [cutCrossing, if_neg hc, hside]
      split
      · exact .inl rfl
      · exact .inr rfl

/-- The cuts of a row keep its nodes, and add those that they make. -/
theorem mem_ids_cutCrossing : x ∈ (cutCrossing claimed span m s).markup.ids ↔
    x ∈ m.ids ∨ s.next ≤ x ∧ x < (cutCrossing claimed span m s).supply.next := by
  have hnone {y : NodeId} : ¬ (y ≤ x ∧ x < y) := fun h => Nat.not_lt.mpr h.1 h.2
  induction m generalizing s with
  | nil => exact ⟨.inl, fun h => h.resolve_right hnone⟩
  | node n kids rest _ ih =>
    have hnode : x ∈ ids (.node n kids rest) ↔ x ∈ ids (.node n kids .nil) ∨ x ∈ ids rest := by
      simp [or_assoc]
    rcases cutCrossing_cases claimed span n kids rest s with h | h | ⟨pos, halves, hhalves, h | h⟩
    · simp only [h, ids_node, List.mem_cons, List.mem_append, ih, or_assoc]
    · rw [h]
      exact ⟨.inl, fun h => h.resolve_right hnone⟩
    all_goals
      have hmade : x ∈ halves.row.ids ↔ x ∈ ids (.node n kids .nil) ∨
          s.next ≤ x ∧ x < halves.supply.next := hhalves ▸ mem_ids_divide
    · rw [h, ids_append, List.mem_append, hmade, hnode]
      exact or_right_comm
    · have hle : s.next ≤ halves.supply.next := hhalves ▸ (divide_le ..).next
      have hle' := (cutCrossing_le claimed span rest halves.supply).next
      have hsplit : s.next ≤ x ∧ x < (cutCrossing claimed span rest halves.supply).supply.next ↔
          (s.next ≤ x ∧ x < halves.supply.next) ∨ halves.supply.next ≤ x ∧
            x < (cutCrossing claimed span rest halves.supply).supply.next := by
        constructor
        · intro h
          rcases Nat.lt_or_ge x halves.supply.next with hx | hx
          · exact .inl ⟨h.1, hx⟩
          · exact .inr ⟨hx, h.2⟩
        · rintro (h | h)
          · exact ⟨h.1, Nat.lt_of_lt_of_le h.2 hle'⟩
          · exact ⟨Nat.le_trans hle h.1, h.2⟩
      rw [h, ids_append, List.mem_append, hmade, hnode, hsplit]
      exact (or_congr_right ih).trans or_or_or_comm

/-- Every node of a row is cut at most once. -/
theorem next_cutCrossing_le (h : Nests lo hi m) :
    (cutCrossing claimed span m s).supply.next ≤ s.next + m.size := by
  induction m generalizing s lo with
  | nil => exact Nat.le_refl _
  | node n kids rest _ ih =>
    obtain ⟨hn, hkids, hrest⟩ := nests_node.mp h
    rw [Forest.size, ← Nat.add_assoc]
    rcases cutCrossing_cases claimed span n kids rest s with h | h | ⟨pos, halves, hhalves, h | h⟩
    · rw [h]
      exact Nat.le_trans (ih hrest) (Nat.add_le_add_right (Nat.le_add_right ..) _)
    · rw [h]
      exact Nat.le_trans (Nat.le_add_right ..) (Nat.le_add_right ..)
    all_goals
      have hmade : halves.supply.next ≤ s.next + (1 + kids.size) := by
        rw [hhalves, next_divide (nests_node.mpr ⟨hn, hkids, Nat.le_refl _⟩)]
        refine Nat.add_le_add_left (Nat.le_trans (List.length_filter_le ..) ?_) _
        rw [Forest.length_preorder]
        exact Nat.le_refl _
    · rw [h]
      exact Nat.le_trans hmade (Nat.le_add_right ..)
    · rw [h]
      exact Nat.le_trans (ih hrest) (Nat.add_le_add_right hmade _)

end Cuts

/-- A scan that comes to no conflict cuts what crosses. -/
theorem scan_of_none {claimed : List NodeId} {balancing : Balancing} {s : Supply}
    (h : (scan claimed span balancing m s).2 = none) :
    (scan claimed span balancing m s).1 = cutCrossing claimed span m s := by
  cases balancing with
  | inner => rw [scan_inner]
  | strict =>
    rw [scan_strict] at h ⊢
    exact (cutCrossing_of_firstCrossing h).symm

/-- The nodes that were there before are in the row as scanned if they were in the row. -/
theorem mem_ids_scan {claimed : List NodeId} {balancing : Balancing} {s : Supply} {x : NodeId}
    (hx : x < s.next) : x ∈ (scan claimed span balancing m s).1.markup.ids ↔ x ∈ m.ids := by
  cases balancing with
  | strict => rw [scan_strict]
  | inner =>
    rw [scan_inner, mem_ids_cutCrossing]
    exact ⟨fun h => h.resolve_right fun h => Nat.not_lt.mpr h.1 hx, .inl⟩

theorem next_scan_le {claimed : List NodeId} {balancing : Balancing} {s : Supply}
    (h : Nests lo hi m) :
    (scan claimed span balancing m s).1.supply.next ≤ s.next + m.size := by
  cases balancing with
  | strict =>
    rw [scan_strict]
    exact Nat.le_add_right ..
  | inner =>
    rw [scan_inner]
    exact next_cutCrossing_le h

end Markup

/-! ## What a scan hands on -/

namespace Arena

open Document Markup

variable {a : Arena} {s t : Family} {doc : Document} {w : Edit} {P Q : NodeId} {e : Element}
  {claimed : List NodeId} {balancing : Balancing} {span : Span} {m : Markup} {r R : Scan}

namespace Scan

/-- The siblings that are adopted, and the one in front of which the new node goes. -/
theorem readAll_deal (claimed : List NodeId) (span : Span) (r : Scan) (m : Markup) :
    (r.readAll claimed span (upToEnd claimed span m.labels)).inside =
        r.inside ++ (deal claimed span r.anchor.isSome m).inside.rootIds ∧
      (r.readAll claimed span (upToEnd claimed span m.labels)).anchor =
        r.anchor.or (deal claimed span r.anchor.isSome m).after.rootIds.head? := by
  induction m generalizing r with
  | nil => exact ⟨(List.append_nil _).symm, (Option.or_none ..).symm⟩
  | node n kids rest _ ih =>
    by_cases hends : Ends claimed span n
    · rw [Forest.labels_node, upToEnd, if_pos hends, deal_beyond _ hends.1 hends.2.1 hends.2.2]
      show (r.read claimed span n).inside = _ ∧ (r.read claimed span n).anchor = _
      rw [read_after hends.1 hends.2.1]
      exact ⟨(List.append_nil _).symm, rfl⟩
    · rw [Forest.labels_node, upToEnd, if_neg hends]
      obtain ⟨hinside, hanchor⟩ := ih (r.read claimed span n)
      show ((r.read claimed span n).readAll _ _ _).inside = _ ∧
        ((r.read claimed span n).readAll _ _ _).anchor = _
      rw [hinside, hanchor]
      by_cases hc : n.id ∈ claimed
      · rw [deal_claimed _ hc, read, if_pos hc]
        exact ⟨List.append_assoc .., rfl⟩
      · cases hside : n.span.side span with
        | inside =>
          rw [deal_inside _ hc hside, read_inside hc hside]
          exact ⟨List.append_assoc .., rfl⟩
        | after =>
          have hbeyond : n.span.isBeyond span = false := by
            rw [← Bool.not_eq_true]
            exact fun hb => hends ⟨hc, hside, hb⟩
          rw [deal_after _ hc hside hbeyond, read_after hc hside]
          cases hr : r.anchor <;> simp [stopAt, visit, hr, rootIds]
        | before =>
          rw [read_before hc hside]
          cases hr : r.anchor <;> simp [deal, hc, hside, visit, hr]
        | crossing pos =>
          rw [read, if_neg hc, hside]
          cases hr : r.anchor <;> simp [deal, hc, hside, visit, hr]

end Scan

end Arena

/-! ## The search on a document -/

namespace Edit

open Document Markup

/-- `Q` is over the row that the search from `P` ends in. -/
structure Site (w : Edit) (claimed : List NodeId) (span : Span) (P Q : NodeId) : Prop where
  known : Q = rootId ∨ Q ∈ w.document.markup.ids
  below : w.document.below Q = (site claimed span (w.document.below P)).row
  setBelow : ∀ g : Growth,
    w.setBelow P ⟨(site claimed span (w.document.below P)).plug g.markup, g.supply⟩ =
      w.setBelow Q g

/-- The edit after the search for the row of `e` and its scan. -/
def searched (w : Edit) (P : NodeId) (e : Element) (claimed : List NodeId) (balancing : Balancing) :
    Edit :=
  let c := site claimed e.span (w.document.below P)
  let r := Markup.scan claimed e.span balancing c.row w.supply
  w.setBelow P ⟨c.plug r.1.markup, r.1.supply⟩

/-- A span that nothing keeps out lies within that of the node. -/
theorem within_of_clear {w : Edit} {P : NodeId} {span within : Span}
    (hspan : w.document.span? P = some within) (hclear : w.obstacle? P span = none) :
    span.start ≤ span.stop ∧ within.start ≤ span.start ∧ span.stop ≤ within.stop := by
  simp only [obstacle?, hspan] at hclear
  split at hclear
  · cases hclear
  · next hordered =>
    split at hclear
    · cases hclear
    · split at hclear
      · next hin =>
        simp only [Span.contains, Bool.and_eq_true, decide_eq_true_eq] at hin
        exact ⟨by simpa [Span.isOrdered] using hordered, hin⟩
      · cases hclear

end Edit

/-- What is below a node nests within it. -/
theorem Document.WellFormed.nests_below {doc : Document} (h : doc.WellFormed) {P : NodeId}
    {within : Span} (hspan : doc.span? P = some within) :
    Markup.Nests within.start within.stop (doc.below P) := by
  rw [Document.span?] at hspan
  rw [Document.below]
  split at hspan
  · next hP0 =>
    cases hspan
    rw [if_pos hP0]
    exact h.nests
  · next hP0 =>
    obtain ⟨u, hu, rfl⟩ := Option.map_eq_some_iff.mp hspan
    rw [if_neg hP0, hu]
    exact (Markup.nests_node.mp (h.nests_ofTree hu)).2.1

namespace Arena

open Document Markup

variable {a : Arena} {s t : Family} {w : Edit} {P Q : NodeId} {e : Element}
  {claimed way late : List NodeId} {balancing : Balancing} {span : Span} {R : Scan}

/-- The search from `P` ends at the row below `Q`, which `R` has scanned. -/
structure Found (a : Arena) (s t : Family) (w : Edit) (P Q : NodeId) (e : Element)
    (claimed : List NodeId) (balancing : Balancing) (way : List NodeId) (R : Scan)
    (late : List NodeId) : Prop where
  descend : ∀ fuel, 2 * w.document.next ≤ fuel →
    a.descend claimed e.span fuel P (a.links P).firstChild = some (Q, way)
  scan : ∀ reach fuel, 2 * w.document.next ≤ fuel →
    scan e claimed balancing reach fuel { arena := a } (a.links Q).firstChild =
      some (R.upTo late reach)
  way : way.Sublist (w.document.below P).ids
  /-- No claimed node is over the row, unless it is over `P`. -/
  free : ∀ c ∈ claimed, Relation.ReflTransGen s.Over c Q → Relation.ReflTransGen s.Over c P
  site : w.Site claimed e.span P Q
  scanned : Scanned e claimed { arena := a } R s t Q [] (w.document.below Q)
    (Markup.scan claimed e.span balancing (w.document.below Q) w.supply) late
  stores : R.arena.Stores t (w.searched P e claimed balancing).document

namespace Stores

variable (h : a.Stores s w.document) (hP : P = rootId ∨ P ∈ w.document.markup.ids)
include h hP

theorem ids_below : (w.document.below P).ids.Nodup ∧
    ∀ x ∈ (w.document.below P).ids, x ∈ w.document.markup.ids := by
  rw [Document.below]
  split
  · exact ⟨h.rooted.nodup, fun _ hx => hx⟩
  · next hP0 =>
    obtain ⟨u, hu⟩ := exists_node? (hP.resolve_left hP0)
    have hnodup := nodup_treeIds h.rooted.nodup hu
    rw [treeIds_eq, List.nodup_cons] at hnodup
    rw [hu]
    exact ⟨hnodup.2, fun x hx => treeIds_subset hu (treeIds_eq u ▸ List.mem_cons_of_mem _ hx)⟩

/-- Below a node, a node is found as in all of the mark-up. -/
theorem node?_below {x : NodeId} (hx : x ∈ (w.document.below P).ids) :
    w.document.markup.node? x = (w.document.below P).node? x := by
  rw [Document.below] at hx ⊢
  split
  · rfl
  · next hP0 =>
    rw [if_neg hP0] at hx
    obtain ⟨u, hu⟩ := exists_node? (hP.resolve_left hP0)
    rw [hu] at hx ⊢
    exact node?_children h.rooted.nodup hu hx

theorem site (howns : OverSite claimed span (w.document.below P) P Q) : w.Site claimed span P Q := by
  rcases howns with ⟨rfl, hsite⟩ | ⟨n, hn, -, hplug⟩
  · exact ⟨hP, by rw [hsite], fun g => by rw [hsite]; rfl⟩
  · have hQ := mem_of_node? hn
    have hQm := (h.ids_below hP).2 Q hQ
    refine ⟨.inr hQm, ?_, fun g => ?_⟩
    · rw [Document.below, if_neg (h.mem_ids.mp hQm).1, h.node?_below hP hQ, hn]
    · rw [hplug]
      exact h.setBelow_within hP hQ

theorem size_below : (w.document.below P).size ≤ w.document.next := by
  obtain ⟨hnodup, hsub⟩ := h.ids_below hP
  have hlen := length_le_of_nodup hnodup fun y hy => (h.mem_ids.mp (hsub y hy)).2
  rwa [ids, List.length_map, Forest.length_preorder] at hlen

/-- Both see the same span at a node. -/
theorem span?_eq : w.document.span? P = some (a.element P).span := by
  rw [Document.span?]
  split
  · next hP0 => rw [hP0, element_of_content h.whole]
  · next hP0 =>
    obtain ⟨u, hu⟩ := exists_node? (hP.resolve_left hP0)
    have hmem := (node?_spec hu).2 u.label (by simp [Forest.ofTree])
    rw [hu, ← (node?_spec hu).1, h.carries.element hmem]
    rfl

theorem obstacle?_eq (span : Span) :
    a.obstacle? w.document.text.length P span = w.obstacle? P span := by
  rw [obstacle?, Edit.obstacle?, h.span?_eq hP]

variable (hdoc : w.document.WellFormed) (hclear : w.obstacle? P e.span = none)
  (hclaims : w.document.ClaimsWithin claimed e.span)
include hdoc hclear hclaims

/-- The row that the search ends in. -/
theorem searched : ∃ lo hi,
    Searched lo hi claimed e.span (Markup.site claimed e.span (w.document.below P)).row w.supply := by
  obtain ⟨within, hspan⟩ : ∃ within, w.document.span? P = some within := ⟨_, h.span?_eq hP⟩
  obtain ⟨hab, hlo, hhi⟩ := Edit.within_of_clear hspan hclear
  obtain ⟨lo, hi, -, -, hrow, -⟩ := (hdoc.nests_below hspan).focus claimed hlo hab hhi
  have hin : ∀ n ∈ (Markup.site claimed e.span (w.document.below P)).row.labels,
      n ∈ w.document.markup.preorder := fun n hn => by
    have hn := mem_row_of_site (Forest.labels_subset_preorder hn)
    rw [Document.below] at hn
    split at hn
    · exact hn
    · next hP0 =>
      obtain ⟨u, hu⟩ := exists_node? (hP.resolve_left hP0)
      rw [hu] at hn
      exact (node?_spec hu).2 n (by simp [Forest.ofTree, hn])
  have hall := hdoc.claims hclaims
  exact ⟨lo, hi, hrow, hab,
    fun n hn hc => admits_of_not_enters (Forest.focus_row_not_entered _ _ n hn) hc,
    fun n hn hc => hall.within n (hin n hn) hc,
    fun c hc => (hdoc.mem_ids_iff.mp (hall.present c hc)).2⟩

/-- The search and the scan along links come out as those of the document. -/
theorem found (balancing : Balancing) : ∃ Q t way R late,
    a.Found s t w P Q e claimed balancing way R late := by
  obtain ⟨hrow, hcarries⟩ := h.below hP
  obtain ⟨Q, way, hdown, hway, howns, hfree⟩ := h.toFull.descend hcarries hrow claimed e.span
  have hsite := h.site hP howns
  obtain ⟨lo, hi, hsearched⟩ := h.searched hP hdoc hclear hclaims
  rw [← hsite.below] at hsearched
  obtain ⟨hQrow, hQcarries⟩ := h.below hsite.known
  obtain ⟨R, t, late, hscan, hend⟩ := scansRow e claimed balancing (w.document.below Q)
    (r := { arena := a }) h.toFull (hQrow.trans (List.nil_append _).symm) hQcarries h.size.symm rfl
      hsearched
  have hlive {x : NodeId} (hx : x = rootId ∨ x ∈ w.document.markup.ids) : x ∈ s.live :=
    hx.elim (fun hx => hx ▸ h.root_live) fun hx => h.mem_live.mpr (h.size ▸ (h.mem_ids.mp hx).2)
  refine ⟨Q, t, way, R, late, fun fuel hfuel => ?_, fun reach fuel hfuel => ?_, hway, hfree, hsite,
    hend, ?_⟩
  · rw [(h.links_live (hlive hP)).2, hrow]
    exact hdown fuel (Nat.le_trans (h.size_below hP)
      (Nat.le_trans (Nat.le_mul_of_pos_left _ Nat.two_pos) hfuel))
  · rw [(h.links_live (hlive hsite.known)).2, hQrow]
    exact hscan reach fuel (Nat.le_trans (Nat.mul_le_mul_left 2 (h.size_below hsite.known)) hfuel)
  · have hstored := h.setBelow hsite.known hend.toFull hend.frame hend.outer hend.carries hend.size
    rw [← hsite.setBelow] at hstored
    rw [Edit.searched, ← hsite.below]
    exact hstored

end Stores

/-- The placement after a scan that came to `late` as well. -/
def Placing.upTo (r : Placing) (late : List NodeId) : Reach → Placing
  | .needed => r
  | .whole => { r with visited := { r.visited with scan := r.visited.scan ++ late } }

/-- The placement below `Q` after its search and its scan. -/
def Scan.placing (R : Scan) (Q : NodeId) (e : Element) (strays way : List NodeId)
    (walks : List (List NodeId)) : Placing :=
  let visited : Visited := { descent := way, scan := R.visits, splits := R.splits }
  match R.conflict with
  | some conflict => { arena := R.arena, outcome := .error conflict, visited := visited }
  | none =>
    let b := R.arena.settle Q R.anchor e (R.arena.brood R.inside strays)
    { arena := b.1, outcome := .ok b.2, visited := { visited with walks := walks } }

namespace Stores

variable (h : a.Stores s w.document) (hP : P = rootId ∨ P ∈ w.document.markup.ids)
  (hdoc : w.document.WellFormed) (hclear : w.obstacle? P e.span = none)
  (hclaims : w.document.ClaimsWithin claimed e.span)
  (hf : a.Found s t w P Q e claimed balancing way R late)
include h hP hdoc hclear hclaims hf

/-- The scan makes one new node at most out of every node of its row. -/
theorem size_found : R.arena.slots.size ≤ 2 * w.document.next := by
  obtain ⟨lo, hi, hsearched⟩ := h.searched hP hdoc hclear hclaims
  rw [← hf.site.below] at hsearched
  rw [hf.scanned.size, Nat.two_mul]
  exact Nat.le_trans (next_scan_le hsearched.nests)
    (Nat.add_le_add_left (h.size_below hf.site.known) _)

/-- The placement does not run out of fuel, and ends as its search and its scan tell. -/
theorem place_found : ∃ walks,
    (∀ reach fuel, 2 * w.document.next ≤ fuel →
      a.place w.document.text.length P e claimed balancing reach fuel =
        some ((R.placing Q e (claimed.filter fun x => x ∉ (w.document.below Q).ids) way walks).upTo
          late reach)) ∧
      walks.length = claimed.length ∧ ∀ v ∈ walks, v.Nodup ∧ ∀ y ∈ v, y < R.arena.slots.size := by
  have hlt : ∀ c ∈ claimed, c < w.supply.next := fun c hc =>
    (hdoc.mem_ids_iff.mp ((hdoc.claims hclaims).present c hc)).2
  have hgrown : w.supply.next ≤ R.arena.slots.size :=
    Nat.le_trans (Nat.le_of_eq h.size.symm) hf.scanned.frame.size
  obtain ⟨walks, hwalks, honce⟩ := hf.scanned.toFull.astray hf.scanned.carries hf.scanned.outer
    fun c hc => Nat.lt_of_lt_of_le (hlt c hc) hgrown
  have hfar : (claimed.filter fun c =>
        c ∉ (Markup.scan claimed e.span balancing (w.document.below Q) w.supply).1.markup.ids) =
      claimed.filter fun c => c ∉ (w.document.below Q).ids :=
    List.filter_congr fun c hc => by simp only [mem_ids_scan (hlt c hc)]
  rw [hfar] at hwalks
  have hsize := h.size_found hP hdoc hclear hclaims hf
  refine ⟨walks, fun reach fuel hfuel => ?_, honce⟩
  have hfar := hwalks fuel (Nat.le_trans hsize hfuel)
  simp only [place, h.obstacle?_eq hP, hclear, hf.descend fuel hfuel, Option.bind_some,
    hf.scan reach fuel hfuel]
  cases hconflict : R.conflict with
  | some conflict => cases reach <;> simp only [Scan.upTo, Placing.upTo, Scan.placing, hconflict]
  | none =>
    cases reach <;>
      simp only [Scan.upTo, Placing.upTo, Scan.placing, hconflict, hfar, Option.map_some]

end Stores

end Arena

namespace Document

open Markup

variable {doc : Document} {P : NodeId} {e : Element} {claimed : List NodeId}

namespace WellFormed

variable (h : doc.WellFormed)
include h

/-- A scan that goes as far as needed does all that a scan to the end of the row does, and so does
the placement: what the longer scan comes to as well changes nothing.  With nothing claimed the
siblings of the row come in the order of their sides. -/
theorem scan_reach (hP : P = rootId ∨ P ∈ doc.markup.ids) (hclaims : doc.ClaimsWithin claimed e.span)
    (balancing : Balancing) :
    (∃ (r : Arena.Placing) (late : List NodeId), ∀ fuel : Nat, 2 * doc.next ≤ fuel →
      doc.arena.place doc.text.length P e claimed balancing .needed fuel = some r ∧
      doc.arena.place doc.text.length P e claimed balancing .whole fuel =
        some { r with visited := { r.visited with scan := r.visited.scan ++ late } }) ∧
    (doc.arena.obstacle? doc.text.length P e.span = none → ∃ Q way R late,
      (∀ fuel : Nat, 2 * doc.next ≤ fuel →
        doc.arena.descend claimed e.span fuel P (doc.arena.links P).firstChild = some (Q, way) ∧
        Arena.scan e claimed balancing .needed fuel { arena := doc.arena }
          (doc.arena.links Q).firstChild = some R ∧
        Arena.scan e claimed balancing .whole fuel { arena := doc.arena }
          (doc.arena.links Q).firstChild = some { R with visits := R.visits ++ late }) ∧
      doc.below Q = (site claimed e.span (doc.below P)).row ∧
      R.arena = (Edit.searched { document := doc } P e claimed balancing).document.arena ∧
      (let row := doc.below Q
        let cut := cutCrossing claimed e.span row ⟨doc.next, []⟩
        (balancing = .inner → R.conflict = none) ∧
        (balancing = .strict → R.conflict = (firstCrossing claimed e.span row).map fun n =>
          ⟨e.name, e.span, .crossing n.name n.span⟩) ∧
        (R.conflict = none →
          R.inside = (deal claimed e.span false cut.markup).inside.rootIds ∧
            R.anchor = (deal claimed e.span false cut.markup).after.rootIds.head?) ∧
        (claimed = [] → InClasses e.span row.labels))) := by
  obtain ⟨s, hs⟩ := h.stores
  have hobstacle := hs.obstacle?_eq (w := { document := doc }) hP e.span
  cases hclear : Edit.obstacle? { document := doc } P e.span with
  | some reason =>
    rw [hclear] at hobstacle
    refine ⟨⟨{ arena := doc.arena, outcome := .error ⟨e.name, e.span, reason⟩ }, [],
      fun fuel _ => ⟨?_, ?_⟩⟩, fun hnone => ?_⟩
    · simp only [Arena.place, hobstacle]
    · simp only [Arena.place, hobstacle, List.append_nil]
    · cases hobstacle.symm.trans hnone
  | none =>
    obtain ⟨Q, t, way, R, late, hf⟩ := hs.found (w := { document := doc }) hP h hclear hclaims balancing
    obtain ⟨walks, hplace, -⟩ := hs.place_found (w := { document := doc }) hP h hclear hclaims hf
    refine ⟨⟨_, late, fun fuel hfuel => ⟨hplace .needed fuel hfuel, hplace .whole fuel hfuel⟩⟩,
      fun _ => ⟨Q, way, R, late, fun fuel hfuel => ⟨hf.descend fuel hfuel,
        hf.scan .needed fuel hfuel, hf.scan .whole fuel hfuel⟩, hf.site.below, hf.stores.eq_arena,
        ?_⟩⟩
    have hconflict := hf.scanned.conflict
    refine ⟨?_, ?_, ?_, ?_⟩
    · rintro rfl
      rw [hconflict, scan_inner]
      rfl
    · rintro rfl
      rw [hconflict, scan_strict]
    · intro hnone
      have hout := Option.map_eq_none_iff.mp (hconflict.symm.trans hnone)
      have hread := hf.scanned.read hout
      rw [scan_of_none hout] at hread
      obtain ⟨hinside, hanchor⟩ := Arena.Scan.readAll_deal claimed e.span { arena := doc.arena }
        (cutCrossing claimed e.span (doc.below Q) ⟨doc.next, []⟩).markup
      exact ⟨hread.1.trans hinside, hread.2.trans hanchor⟩
    · rintro rfl
      obtain ⟨lo, hi, hsearched⟩ := hs.searched (w := { document := doc }) hP h hclear hclaims
      rw [← hf.site.below] at hsearched
      exact inClasses hsearched.nests hsearched.ordered fun n hn =>
        hsearched.room n hn List.not_mem_nil

omit h in
/-- An element crosses the start.  Of two markers at the end the second one is claimed, and then
comes an element that ends the scan. -/
theorem scan_reach_marker :
    let host := Session.apply (ofText "abcdefgh")
      [.addSpan "a" ⟨0, 3⟩, .addSpan "b" ⟨3, 4⟩, .addSpan "m" ⟨5, 5⟩, .addSpan "c" ⟨5, 5⟩,
        .addSpan "d" ⟨5, 7⟩, .addSpan "f" ⟨7, 8⟩]
    let e : Element := ⟨"p", ⟨1, 5⟩, {}⟩
    host.WellFormed ∧ host.ClaimsWithin [4] e.span ∧
      host.arena.obstacle? host.text.length rootId e.span = none ∧
      (∃ (r : Arena.Placing) (late : List NodeId), ∀ fuel : Nat, 2 * host.next ≤ fuel →
        host.arena.place host.text.length rootId e [4] .inner .needed fuel = some r ∧
        host.arena.place host.text.length rootId e [4] .inner .whole fuel =
          some { r with visited := { r.visited with scan := r.visited.scan ++ late } }) ∧
      ∃ Q R late, (∀ fuel : Nat, 2 * host.next ≤ fuel →
          Arena.scan e [4] .inner .needed fuel { arena := host.arena }
            (host.arena.links Q).firstChild = some R ∧
          Arena.scan e [4] .inner .whole fuel { arena := host.arena }
            (host.arena.links Q).firstChild = some { R with visits := R.visits ++ late }) ∧
        R.conflict = none ∧ R.inside = [7, 2, 4] ∧ R.anchor = some 3 := by
  intro host e
  have h : host.WellFormed :=
    (Session.wellFormed_apply (wellFormed_ofText "abcdefgh") (by decide +kernel)).1
  have hclaims : host.ClaimsWithin [4] e.span := by decide +kernel
  have hclear : host.arena.obstacle? host.text.length rootId e.span = none := by decide +kernel
  obtain ⟨hplace, hscan⟩ := h.scan_reach (.inl rfl) hclaims .inner
  obtain ⟨Q, way, R, late, hloops, hrow, -, hconflict, -, hread, -⟩ := hscan hclear
  have hconflict := hconflict rfl
  obtain ⟨hinside, hanchor⟩ := hread hconflict
  rw [hrow] at hinside hanchor
  exact ⟨h, hclaims, hclear, hplace, Q, R, late, fun fuel hfuel => (hloops fuel hfuel).2, hconflict,
    hinside.trans (by decide +kernel), hanchor.trans (by decide +kernel)⟩

end WellFormed

end Document

end Standoff
