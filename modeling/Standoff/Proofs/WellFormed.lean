import Standoff.Proofs.Growth
import Standoff.Proofs.Shape

/-! # Well-formed documents

A document is well formed if its mark-up nests in the text and its elements have the numbers from
1 up to the next free one, each once.  Then the links of its nodes describe one tree, every node
lies where its links say, and the check of nesting finds nothing.

* `Document.Rooted.links`: the tree of the links; distinct numbers are enough for it.
* `Document.WellFormed.insert`, `Document.WellFormed.merge`, `Document.WellFormed.setAttribute`:
  well-formed documents stay well formed. -/

namespace Standoff

namespace Document

open Markup

variable {doc : Document} {e : Element} {claimed : List NodeId} {balancing : Balancing}
  {a : Addition} {x : NodeId}

/-! ## Numbers -/

/-- The document node and the elements have numbers of their own. -/
def Rooted (doc : Document) : Prop := (rootId :: doc.markup.ids).Nodup

instance (doc : Document) : Decidable doc.Rooted :=
  inferInstanceAs (Decidable (rootId :: doc.markup.ids).Nodup)

namespace Rooted

variable (h : doc.Rooted)
include h

theorem nodup : doc.markup.ids.Nodup := (List.nodup_cons.mp h).2

theorem rootId_not_mem : rootId ∉ doc.markup.ids := (List.nodup_cons.mp h).1

theorem view?_of_mem (hx : x ∈ doc.markup.ids) :
    doc.view? x = (doc.markup.node? x).bind fun t => (doc.markup.links? rootId x).map fun links =>
      { kind := .element
        name := t.label.name
        nameId := (doc.names.lookup t.label.name).getD 0
        span := t.label.span
        attributes := t.label.attributes
        links := links } := by
  have hne : x ≠ rootId := fun heq => h.rootId_not_mem (heq ▸ hx)
  rw [view?, if_neg hne]

/-- Every element is seen with its span and with the links of its place. -/
theorem everywhere_view? :
    Everywhere (fun p r n kids => ∃ v, doc.view? n.id = some v ∧ v.span = n.span ∧
      v.links = Links.ofRow n.id (some (parentId rootId p)) (r.map (·.id)) (rootIds kids))
      none doc.markup.labels doc.markup := by
  refine ((everywhere_links? h.nodup rootId).and
    (everywhere_node? h.nodup _ _)).mono fun p r n kids hn => ?_
  have hview := h.view?_of_mem (mem_of_node? hn.2)
  rw [hn.1, hn.2] at hview
  exact ⟨_, hview, rfl, rfl⟩

/-- The links of all nodes describe one tree over the document node. -/
theorem links : Describes (fun x => (doc.view? x).map (·.links)) rootId none doc.markup.shape ∧
    (doc.view? rootId).map (·.links) = some
      { firstChild := doc.markup.shape.labels.head?, lastChild := doc.markup.shape.labels.getLast? } := by
  have hrow : (doc.markup.labels.map (·.id)).Nodup :=
    h.nodup.sublist ((Forest.labels_sublist _).map _)
  refine ⟨describes_of_everywhere [] hrow h.nodup rfl
    (h.everywhere_view?.mono fun p r n kids hn => ?_), ?_⟩
  · obtain ⟨v, hv, -, hlinks⟩ := hn
    rw [hv]
    exact congrArg some hlinks
  · rw [labels_shape]
    rfl

/-- Every element is seen as one, with its span. -/
theorem view?_of_label {n : Node} (hn : n ∈ doc.markup.preorder) :
    ∃ v, doc.view? n.id = some v ∧ v.kind = .element ∧ v.span = n.span := by
  obtain ⟨p, r, kids, v, hv, hspan, -⟩ := h.everywhere_view?.at hn
  refine ⟨v, hv, ?_, hspan⟩
  rw [h.view?_of_mem (id_mem_ids hn)] at hv
  obtain ⟨t, -, ht⟩ := Option.bind_eq_some_iff.mp hv
  obtain ⟨links, -, rfl⟩ := Option.map_eq_some_iff.mp ht
  rfl

/-- All nodes are elements, so the check finds nothing exactly if they nest. -/
theorem flaw?_eq_none_iff : doc.flaw? = none ↔ Nests 0 doc.text.length doc.markup := by
  have hids : doc.descendants rootId = doc.markup.shape.preorder := by
    rw [descendants, below, if_pos rfl, ids, shape, Forest.preorder_map]
  have helements : ∀ x ∈ doc.markup.shape.preorder, IsElement doc.view? x := fun x hx => by
    rw [shape, Forest.preorder_map] at hx
    obtain ⟨n, hn, rfl⟩ := List.mem_map.mp hx
    obtain ⟨v, hv, hkind, -⟩ := h.view?_of_label hn
    exact ⟨v, hv, hkind⟩
  have hspanned : spanned (spanOf doc.view?) doc.markup.shape =
      doc.markup.map fun n => { id := n.id, name := "", span := n.span } := by
    rw [spanned, shape, Forest.map_map]
    refine Forest.map_congr fun n hn => ?_
    obtain ⟨v, hv, -, hspan⟩ := h.view?_of_label hn
    rw [spanOf, hv, ← hspan]
    rfl
  have hnests : Nests 0 doc.text.length (spanned (spanOf doc.view?) doc.markup.shape) ↔
      Nests 0 doc.text.length doc.markup := by
    rw [hspanned]
    exact nests_map fun _ => rfl
  have hrow := row_flawless_iff h.links.1 (Nat.le_refl 0) (Nat.zero_le _) rfl
  rw [flaw?, firstFlaw?, List.findSome?_eq_none_iff, hids]
  exact hrow.trans ((and_iff_right helements).trans hnests)

end Rooted

/-! ## Well-formed documents -/

structure WellFormed (doc : Document) : Prop where
  nests : Nests 0 doc.text.length doc.markup
  pos : 1 ≤ doc.next
  numbered : ∀ x, doc.markup.ids.count x = Supply.taken ⟨1, []⟩ ⟨doc.next, []⟩ x

theorem wellFormed_ofText (text : String) : (ofText text).WellFormed :=
  ⟨Nat.zero_le _, Nat.le_refl _, fun x => (Supply.taken_self _ x).symm⟩

namespace WellFormed

variable (h : doc.WellFormed)
include h

theorem mem_ids_iff : x ∈ doc.markup.ids ↔ 1 ≤ x ∧ x < doc.next := by
  rw [← List.count_pos_iff, h.numbered, Supply.taken]
  split
  · next hx => exact iff_of_true Nat.one_pos hx
  · next hx => exact iff_of_false (Nat.lt_irrefl 0) hx

theorem nodup : doc.markup.ids.Nodup := by
  refine List.nodup_iff_count_le_one.mpr fun x => ?_
  rw [h.numbered, Supply.taken]
  split <;> omega

theorem rootId_not_mem : rootId ∉ doc.markup.ids := fun h0 =>
  absurd (h.mem_ids_iff.mp h0).1 (by decide)

/-- The numbers are those below the next free one, each used once. -/
theorem perm_range : (rootId :: doc.markup.ids).Perm (List.range doc.next) := by
  refine (List.perm_ext_iff_of_nodup ?_ List.nodup_range).mpr fun x => ?_
  · exact List.nodup_cons.mpr ⟨h.rootId_not_mem, h.nodup⟩
  · have hpos := h.pos
    rw [List.mem_cons, List.mem_range, h.mem_ids_iff, rootId]
    constructor
    · rintro (rfl | hx)
      · exact hpos
      · exact hx.2
    · intro hx
      rcases Nat.eq_zero_or_pos x with rfl | hpos
      · exact Or.inl rfl
      · exact Or.inr ⟨hpos, hx⟩

theorem elementCount_eq : doc.elementCount = doc.next - 1 := by
  have hlen := h.perm_range.length_eq
  rw [List.length_cons, List.length_range, ids, List.length_map, Forest.length_preorder] at hlen
  rw [elementCount, ← hlen, Nat.add_sub_cancel]

theorem rooted : doc.Rooted := List.nodup_cons.mpr ⟨h.rootId_not_mem, h.nodup⟩

theorem flaw?_eq_none : doc.flaw? = none := h.rooted.flaw?_eq_none_iff.mpr h.nests

/-! ## Views -/

/-- The links of all nodes describe one tree over the document node. -/
theorem links : Describes (fun x => (doc.view? x).map (·.links)) rootId none doc.markup.shape ∧
    (doc.view? rootId).map (·.links) = some
      { firstChild := doc.markup.shape.labels.head?, lastChild := doc.markup.shape.labels.getLast? } :=
  h.rooted.links

/-- Every element lies within its parent and ends before the next sibling starts. -/
theorem wellPlaced {v : NodeView} (hv : doc.view? x = some v) :
    v.span.stop ≤ doc.text.length ∧ WellPlaced doc.view? v := by
  by_cases hx : x ∈ doc.markup.ids
  · obtain ⟨w, hw, hstop, hplaced⟩ := wellPlaced_of_nests [] h.nests rfl
      (h.nodup.sublist ((Forest.labels_sublist _).map _)) h.nodup h.rooted.everywhere_view?
      ⟨_, rfl, Nat.le_refl _, Nat.le_refl _⟩ x hx
    cases hv.symm.trans hw
    exact ⟨hstop, hplaced⟩
  · rw [view?] at hv
    split at hv
    · cases hv
      refine ⟨Nat.le_refl _, Nat.zero_le _, fun p hp => ?_, fun y hy => ?_⟩
      · cases hp
      · next hroot =>
        subst hroot
        cases hy
    · rw [node?_eq_none_iff.mpr hx] at hv
      cases hv

/-- The nodes are those below the next free number. -/
theorem view?_isSome : (doc.view? x).isSome = true ↔ x < doc.next := by
  by_cases hx : x ∈ doc.markup.ids
  · obtain ⟨v, hv, -⟩ := wellPlaced_of_nests [] h.nests rfl
      (h.nodup.sublist ((Forest.labels_sublist _).map _)) h.nodup h.rooted.everywhere_view?
      ⟨_, rfl, Nat.le_refl _, Nat.le_refl _⟩ x hx
    exact iff_of_true (by rw [hv]; rfl) (h.mem_ids_iff.mp hx).2
  · rw [view?]
    split
    · next hroot =>
      subst hroot
      exact iff_of_true rfl h.pos
    · next hroot =>
      rw [node?_eq_none_iff.mpr hx]
      refine iff_of_false (by simp) fun hlt => hx (h.mem_ids_iff.mpr ⟨?_, hlt⟩)
      exact Nat.pos_of_ne_zero hroot

/-! ## Changes -/

/-- Growth within the text from the document's own supply. -/
theorem grown (es : List Element) (p : Placement)
    (hp : Grows 0 doc.text.length doc.markup ⟨doc.next, []⟩ (p.markup.gather p.id p.strays)
      p.supply) : (doc.grown es p).document.WellFormed := by
  have hle : (⟨1, []⟩ : Supply).Le ⟨doc.next, []⟩ := .of_cuts h.pos rfl
  refine ⟨hp.nests, Nat.le_trans h.pos hp.le.next, fun x => ?_⟩
  have hadd := Supply.taken_add hle hp.le x
  have hcount := hp.count x
  rw [h.numbered] at hcount
  exact hcount.trans hadd

theorem setAttribute (id : NodeId) (key value : String) :
    (doc.setAttribute id key value).WellFormed := by
  have hids : (doc.setAttribute id key value).markup.ids = doc.markup.ids := by
    rw [Document.setAttribute, Forest.modify, ids, Forest.preorder_map, List.map_map, ids]
    refine List.map_congr_left fun n _ => ?_
    rw [Function.comp_apply]
    split <;> rfl
  refine ⟨?_, h.pos, fun x => by rw [hids]; exact h.numbered x⟩
  refine (nests_map fun n => ?_).mpr h.nests
  split <;> rfl

end WellFormed

/-! ## Additions -/

theorem misfit?_span_eq_none {span : Span} :
    doc.misfit? span = none ↔ span.start ≤ span.stop ∧ span.stop ≤ doc.text.length := by
  rw [misfit?, Span.isOrdered]
  by_cases h₁ : span.start ≤ span.stop
  · by_cases h₂ : doc.text.length < span.stop
    · simp [h₁, h₂, Nat.not_le.mpr h₂]
    · simp [h₁, h₂, Nat.not_lt.mp h₂]
  · simp [h₁]

theorem insert_ok (h : doc.insert e claimed balancing = .ok a) :
    (e.span.start ≤ e.span.stop ∧ e.span.stop ≤ doc.text.length) ∧
      ∃ p, doc.markup.place e claimed balancing (fun inside s => .ok ⟨inside, s⟩)
        ⟨doc.next, []⟩ = .ok p ∧ a = doc.grown [e] p := by
  rw [insert] at h
  split at h
  · cases h
  · next hfit =>
    split at h
    · cases h
    · next p hp =>
      cases h
      exact ⟨misfit?_span_eq_none.mp hfit, p, hp, rfl⟩

theorem merge_ok {t : Tree Element} (h : doc.merge t balancing = .ok a) :
    (t.label.span.start ≤ t.label.span.stop ∧ t.label.span.stop ≤ doc.text.length) ∧
      Markup.misfit? t.label.span t.children = none ∧
      ∃ p, doc.markup.mergeTree balancing t ⟨doc.next, []⟩ = .ok p ∧
        a = doc.grown (Forest.ofTree t).preorder p := by
  rw [merge] at h
  split at h
  · cases h
  · next hfit =>
    split at h
    · cases h
    · next hkids =>
      split at h
      · cases h
      · next p hp =>
        cases h
        exact ⟨misfit?_span_eq_none.mp hfit, hkids, p, hp, rfl⟩

/-- The claimed nodes are elements of the document, and they lie within the span. -/
def ClaimsWithin (doc : Document) (claimed : List NodeId) (span : Span) : Prop :=
  ∀ c ∈ claimed, c ≠ rootId ∧ ∃ s, doc.span? c = some s ∧ span.contains s = true

instance (doc : Document) (claimed : List NodeId) (span : Span) :
    Decidable (doc.ClaimsWithin claimed span) :=
  inferInstanceAs (Decidable (∀ c ∈ claimed, c ≠ rootId ∧
    ∃ s, doc.span? c = some s ∧ span.contains s = true))

namespace WellFormed

variable (h : doc.WellFormed)
include h

theorem node?_of_mem {n : Node} (hn : n ∈ doc.markup.preorder) :
    ∃ t, doc.markup.node? n.id = some t ∧ t.label = n := by
  obtain ⟨t, ht⟩ := exists_node? (id_mem_ids hn)
  obtain ⟨hid, hsub⟩ := node?_spec ht
  exact ⟨t, ht, eq_of_id h.nodup (hsub _ (by simp [Forest.ofTree])) hn hid⟩

theorem claims {span : Span} (hc : doc.ClaimsWithin claimed span) :
    Claims claimed span doc.markup := by
  refine ⟨fun c hmem => ?_, fun n hn hmem => ?_⟩
  · obtain ⟨hne, s, hs, -⟩ := hc c hmem
    rw [span?, if_neg hne] at hs
    obtain ⟨t, ht, -⟩ := Option.map_eq_some_iff.mp hs
    exact mem_of_node? ht
  · obtain ⟨hne, s, hs, hcontains⟩ := hc n.id hmem
    obtain ⟨t, ht, hlabel⟩ := h.node?_of_mem hn
    rw [span?, if_neg hne, ht] at hs
    obtain rfl : t.label.span = s := Option.some.inj hs
    rw [hlabel] at hcontains
    simpa [Span.contains] using hcontains

theorem insertable (hord : e.span.start ≤ e.span.stop) (hstop : e.span.stop ≤ doc.text.length)
    (hc : doc.ClaimsWithin claimed e.span) :
    Insertable 0 doc.text.length claimed e doc.markup ⟨doc.next, []⟩ :=
  ⟨h.nests, Nat.zero_le _, hord, hstop, h.nodup, fun _ hx => (h.mem_ids_iff.mp hx).2, h.claims hc⟩

/-- An insertion that succeeds is the placement of the element with its strays. -/
theorem insert_eq (hc : doc.ClaimsWithin claimed e.span)
    (ha : doc.insert e claimed balancing = .ok a) :
    Insertable 0 doc.text.length claimed e doc.markup ⟨doc.next, []⟩ ∧
      a = doc.grown [e] (placed e claimed doc.markup ⟨doc.next, []⟩
        ⟨(opened claimed e.span doc.markup ⟨doc.next, []⟩).1.inside,
          (opened claimed e.span doc.markup ⟨doc.next, []⟩).2.take⟩) := by
  obtain ⟨⟨hord, hstop⟩, p, hp, rfl⟩ := insert_ok ha
  have hins := h.insertable hord hstop hc
  obtain ⟨inside, hin, rfl⟩ := place_ok h.nests (Nat.zero_le _) hord hstop hins.claims
    hins.claimed_lt hp
  cases hin
  exact ⟨hins, rfl⟩

theorem insert (hc : doc.ClaimsWithin claimed e.span)
    (ha : doc.insert e claimed balancing = .ok a) : a.document.WellFormed := by
  obtain ⟨hins, rfl⟩ := h.insert_eq hc ha
  exact h.grown [e] _ hins.grows

theorem addSpan {name : String} {span : Span} (ha : doc.addSpan name span = .ok a) :
    a.document.WellFormed :=
  h.insert (fun _ hc => absurd hc (List.not_mem_nil)) ha

/-- A merge that succeeds is the merge of a row of one tree that fits. -/
theorem merge_row {t : Tree Element} (ha : doc.merge t balancing = .ok a) :
    ∃ g, mergeRow balancing (.ofTree t) doc.markup ⟨doc.next, []⟩ = .ok g ∧
      Markup.misfit? ⟨0, doc.text.length⟩ (.ofTree t) = none ∧
      a.document.markup = g.markup ∧ a.document.next = g.supply.next ∧
      a.cuts = g.supply.cuts.reverse := by
  obtain ⟨⟨hord, hstop⟩, hkids, p, hp, rfl⟩ := merge_ok ha
  refine ⟨p.toGrowth, mergeRow_ofTree hp, misfit?_ofTree (Nat.zero_le _) hord hstop hkids, ?_, rfl,
    rfl⟩
  obtain ⟨inside, -, rfl⟩ := place_ok h.nests (Nat.zero_le _) hord hstop claims_nil
    (fun c hc => absurd hc List.not_mem_nil) hp
  rfl

theorem merge {t : Tree Element} (ha : doc.merge t balancing = .ok a) :
    a.document.WellFormed := by
  obtain ⟨⟨hord, hstop⟩, hkids, p, hp, rfl⟩ := merge_ok ha
  obtain ⟨inside, hin, rfl⟩ := place_ok h.nests (Nat.zero_le _) hord hstop claims_nil
    (fun c hc => absurd hc (List.not_mem_nil)) hp
  obtain ⟨lo', hi', hlo', hhi', hrow, -⟩ :=
    h.nests.focus [] (Nat.zero_le _) hord hstop
  have hnest := (hrow.opening hlo' hord hhi' [] ⟨doc.next, []⟩).2.1
  exact h.grown _ _ (grows_placed h.nests (Nat.zero_le _) hord hstop
    (grows_mergeRow hnest hkids hin))

end WellFormed

end Document

end Standoff
