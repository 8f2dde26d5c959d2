import Standoff.Proofs.Crossings
import Standoff.Proofs.Enclosures
import Standoff.Proofs.Surroundings

/-! # Markers come in as leaves

A marker has room in an element that has a character on both sides of it, and crosses nothing.  So
it goes into the innermost element around its position and divides the children of that element
without a cut: what ends by its position comes before it, the rest after it.

* `Markup.Owns`: the node over the row that is opened.
* `Markup.exists_opening_marker`: how the row is opened for a marker.
* `Document.LeafUnder`: nothing but a leaf has come in.
* `Document.WellFormed.leaf_answer`: every marker comes in so. -/

namespace Standoff

namespace Markup

variable {lo hi pos : Nat} {f g row : Markup} {P : NodeId}

/-! ## The node over the row -/

@[simp] theorem under_append : Document.listing.under P (f ++ g) =
    Document.listing.under P f ++ Document.listing.under P g := by
  induction f with
  | nil => rfl
  | node n kids rest _ ih => simp [Document.listing.under, ih]

/-- The focussed row stands below the node `P`, or is the outermost one and `P` is `top`. -/
structure Owns (top : NodeId) (enters : Node → Bool) (m : Markup) (P : NodeId) : Prop where
  owner : (P = top ∧ m.focus enters = ⟨m, id⟩) ∨
    ∃ t ∈ m.trees, t.label.id = P ∧ enters t.label = true ∧ t.children = (m.focus enters).row ∧
      ∀ g, (⟨t.label, g⟩ : Tree Node) ∈ ((m.focus enters).plug g).trees
  listed : ∃ front back, ∀ g, Document.listing.under top ((m.focus enters).plug g) =
    front ++ (Document.listing.under P g ++ back)

theorem exists_owner (top : NodeId) (enters : Node → Bool) (m : Markup) :
    ∃ P, Owns top enters m P := by
  induction m using Forest.focus_induction enters generalizing top with
  | row f hf =>
    refine ⟨top, .inl ⟨rfl, Forest.focus_of_none hf⟩, [], [], ?_⟩
    intro g
    rw [Forest.focus_of_none hf]
    simp
  | inner f n kids rest hf hn ih =>
    obtain ⟨P, howner, front, back, hlisted⟩ := ih n.id
    have hfocus := Forest.focus_append_node kids rest hf hn
    refine ⟨P, .inr ?_, Document.listing.under top f ++ (top, n) :: front,
      back ++ Document.listing.under top rest, ?_⟩
    · rw [hfocus]
      simp only [Forest.trees_append, Forest.trees_node, List.mem_append, List.mem_cons]
      rcases howner with ⟨rfl, hkids⟩ | ⟨t, ht, hid, henters, hrow, hplug⟩
      · refine ⟨⟨n, kids⟩, .inr (.inl rfl), rfl, hn, by rw [hkids], ?_⟩
        intro g
        rw [hkids]
        exact .inr (.inl rfl)
      · refine ⟨t, .inr (.inr (.inl ht)), hid, henters, hrow, ?_⟩
        intro g
        exact .inr (.inr (.inl (hplug g)))
    · intro g
      rw [hfocus]
      simp [Document.listing.under, hlisted]

/-! ## The row -/

/-- A row that a marker does not lead out of is opened without a cut, in front of the first sibling
that ends behind the position. -/
theorem exists_opening_marker (hrow : Nests lo hi row) (hclosed : Closed (.emptyAt pos) row)
    (s : Supply) : ∃ before after, row = before ++ after ∧
      opening [] (.emptyAt pos) row s = (⟨before, .nil, after⟩, s) ∧
      (∀ n ∈ before.labels, n.span.stop ≤ pos) ∧ ∀ n ∈ after.labels, pos < n.span.stop := by
  have hparts := parts_of_closed hrow hclosed
  have hleft : divide pos row s =
      ⟨(part pos row).left, (part pos row).lifted, (part pos row).right, s⟩ := by
    refine divide_eq_part ?_
    intro n hn
    have hroom := hclosed n hn
    rw [enters_nil, ← Bool.not_eq_true, Span.admits_iff] at hroom
    simp only [Span.emptyAt] at hroom
    omega
  have hright : divide pos (part pos row).right s = ⟨.nil, .nil, (part pos row).right, s⟩ := by
    rw [divide_eq_part, part_part_right]
    intro n hn
    have := right_of_part row hn
    omega
  refine ⟨(part pos row).left ++ (part pos row).lifted, (part pos row).right, hparts.symm, ?_,
    ?_, ?_⟩
  · rw [opening_nil]
    show (_, _) = _
    simp only [Span.emptyAt, hleft, hright, Forest.nil_append]
  · intro n hn
    rw [Forest.labels_append, List.mem_append] at hn
    rcases hn with hn | hn
    · exact (left_of_part row hn).2
    · have := lifted_of_part row hn
      omega
  · intro n hn
    have hside := right_of_part row hn
    have hmem : n ∈ row.preorder := by
      rw [← hparts, Forest.preorder_append]
      exact List.mem_append_right _ (Forest.labels_subset_preorder hn)
    have hord := (hrow.bounds hmem).2.1
    omega

end Markup

namespace Document

open Markup

/-- A leaf has come in under `parent`, and nothing else has changed. -/
structure LeafUnder (doc : Document) (e : Element) (a : Addition) (parent : NodeId) : Prop where
  cuts : a.cuts = []
  fresh : a.id ∉ doc.markup.ids
  leaf : a.document.children a.id = []
  /-- All others stand under their parents, as they were and in their order. -/
  listing : ∃ front back, doc.listing = front ++ back ∧
    a.document.listing = front ++ (parent, ⟨e, a.id⟩) :: back
  /-- The parent is the innermost element strictly around the position, if there is one. -/
  innermost : (parent = rootId ∧
      ∀ n ∈ doc.markup.preorder, n.span.strictlyContains e.span.start = false) ∨
    ∃ n ∈ doc.markup.preorder, n.id = parent ∧ n.span.strictlyContains e.span.start = true ∧
      ∀ x ∈ doc.markup.preorder, x.span.strictlyContains e.span.start = true →
        x.id = parent ∨ parent ∈ doc.descendants x.id
  /-- Siblings that end at the position or before it come first, then the leaf, then the others. -/
  row : ∃ before after, (doc.below parent).labels = before ++ after ∧
    (a.document.below parent).labels = before ++ ⟨e, a.id⟩ :: after ∧
    (∀ n ∈ before, n.span.stop ≤ e.span.start) ∧ ∀ n ∈ after, e.span.start < n.span.stop

variable {doc : Document} {e : Element} {a : Addition} {balancing : Balancing} {pos : Nat}
  {P : NodeId}

/-- An element has room for a marker if it is strictly around it. -/
theorem admits_emptyAt (s : Span) (pos : Nat) :
    s.admits (.emptyAt pos) = s.strictlyContains pos := by
  simp [Span.admits, Span.emptyAt, Span.isEmpty]

namespace WellFormed

variable (h : doc.WellFormed)
include h

/-- A marker is inserted whatever becomes of crossing elements. -/
theorem insert_marker (hpos : pos ≤ doc.text.length) (name : String) (attributes : Attributes)
    (balancing : Balancing) :
    ∃ a, doc.insert ⟨name, .emptyAt pos, attributes⟩ [] balancing = .ok a := by
  cases balancing with
  | inner => exact h.insert_inner (fun _ hc => absurd hc List.not_mem_nil) (Nat.le_refl _) hpos
  | strict =>
    refine h.insert_strict_ok (Nat.le_refl _) hpos (List.filter_eq_nil_iff.mpr ?_)
    intro n hn
    rw [Span.crosses_iff]
    show ¬((n.span.start < pos ∧ pos < n.span.stop ∧ n.span.stop < pos) ∨
      (pos < n.span.start ∧ n.span.start < pos ∧ pos < n.span.stop))
    omega

/-- The owner of the row is the innermost element strictly around the position. -/
theorem innermost_owner (hpos : pos ≤ doc.text.length)
    (howns : Owns rootId (enters [] (.emptyAt pos)) doc.markup P) :
    (P = rootId ∧ ∀ n ∈ doc.markup.preorder, n.span.strictlyContains pos = false) ∨
      ∃ n ∈ doc.markup.preorder, n.id = P ∧ n.span.strictlyContains pos = true ∧
        ∀ x ∈ doc.markup.preorder, x.span.strictlyContains pos = true →
          x.id = P ∨ P ∈ doc.descendants x.id := by
  have hord : (Span.emptyAt pos).start ≤ (Span.emptyAt pos).stop := Nat.le_refl _
  obtain ⟨lo, hi, -, -, hrow, -⟩ := h.nests.focus [] (Nat.zero_le _) hord hpos
  have hnone : ∀ n ∈ (site [] (.emptyAt pos) doc.markup).row.preorder,
      n.span.strictlyContains pos = false := by
    intro n hn
    rw [← admits_emptyAt]
    exact (closed_row _ _).not_admits hrow hord hn
  rcases howns.owner with ⟨rfl, hfocus⟩ | ⟨t, ht, rfl, henters, hchildren, -⟩
  · rw [site, hfocus] at hnone
    exact .inl ⟨rfl, hnone⟩
  · rw [enters_nil, admits_emptyAt] at henters
    refine .inr ⟨t.label, Forest.label_mem ht, rfl, henters, ?_⟩
    intro x hx hcontains
    obtain ⟨u, hu, rfl⟩ := Forest.mem_preorder_iff.mp hx
    rw [h.rooted.mem_descendants hu]
    rcases h.nests.laminar hu ht with rfl | hbelow | habove | hbefore | hbehind
    · exact .inl rfl
    · exact .inr (id_mem_ids (Forest.label_mem hbelow))
    · rw [hchildren] at habove
      rw [hnone _ (Forest.label_mem habove)] at hcontains
      cases hcontains
    · rw [Span.strictlyContains_iff] at henters hcontains
      omega
    · rw [Span.strictlyContains_iff] at henters hcontains
      omega

/-- Before and after the insertion the parent stands over the row that is opened, and over the row
with the new element; around these rows nothing changes. -/
theorem below_owner (ha : doc.insert e [] balancing = .ok a)
    (howns : Owns rootId (enters [] e.span) doc.markup P) :
    doc.below P = (site [] e.span doc.markup).row ∧
      a.document.below P = newRow e [] doc.markup ⟨doc.next, []⟩ (doc.inward e.span) ∧
      ∃ front back, doc.listing = front ++ (listing.under P (doc.below P) ++ back) ∧
        a.document.listing = front ++ (listing.under P (a.document.below P) ++ back) := by
  obtain ⟨-, hmarkup, -⟩ := h.insert_added ha
  have hrows : doc.below P = (site [] e.span doc.markup).row ∧
      a.document.below P = newRow e [] doc.markup ⟨doc.next, []⟩ (doc.inward e.span) := by
    rcases howns.owner with ⟨rfl, hfocus⟩ | ⟨t, ht, rfl, -, hchildren, hplug⟩
    · rw [below, if_pos rfl, below, if_pos rfl, hmarkup, added, site, hfocus]
      exact ⟨rfl, rfl⟩
    · have hmem : (⟨t.label, newRow e [] doc.markup ⟨doc.next, []⟩ (doc.inward e.span)⟩ :
          Tree Node) ∈ a.document.markup.trees := by
        rw [hmarkup]
        exact hplug _
      exact ⟨(h.rooted.below_of_tree ht).trans hchildren, (wellFormed_inserted h ha).rooted.below_of_tree hmem⟩
  obtain ⟨front, back, hlisted⟩ := howns.listed
  have hold := hlisted (site [] e.span doc.markup).row
  have hnew := hlisted (newRow e [] doc.markup ⟨doc.next, []⟩ (doc.inward e.span))
  refine ⟨hrows.1, hrows.2, front, back, ?_, ?_⟩
  · rw [hrows.1, ← hold, ← site, plug_site, listing]
  · rw [hrows.2, ← hnew, listing, hmarkup]
    rfl

/-- A marker comes in as a leaf. -/
theorem leaf_of_insert {name : String} {attributes : Attributes}
    (ha : doc.insert ⟨name, .emptyAt pos, attributes⟩ [] balancing = .ok a) :
    ∃ parent, doc.LeafUnder ⟨name, .emptyAt pos, attributes⟩ a parent := by
  obtain ⟨hins, -, hid, -, hcuts⟩ := h.insert_added ha
  obtain ⟨P, howns⟩ := exists_owner rootId (enters [] (.emptyAt pos)) doc.markup
  obtain ⟨hbelow, hbelow', front, back, hlisting, hlisting'⟩ := h.below_owner ha howns
  obtain ⟨lo, hi, -, -, hrow, -⟩ := h.nests.focus [] (Nat.zero_le _) hins.ordered hins.le_hi
  obtain ⟨before, after, hsplit, hopening, hbefore, hafter⟩ :=
    exists_opening_marker hrow (closed_row (.emptyAt pos) doc.markup) ⟨doc.next, []⟩
  have hopened : opened [] (.emptyAt pos) doc.markup ⟨doc.next, []⟩ =
      (⟨before, .nil, after⟩, ⟨doc.next, []⟩) := hopening
  have hinward : doc.inward (.emptyAt pos) = .nil := by rw [inward, hopened]
  rw [hopened] at hid hcuts
  rw [hinward, newRow, hopened, ← hid] at hbelow'
  rw [hsplit] at hbelow
  rw [hbelow, under_append] at hlisting
  rw [hbelow', under_append] at hlisting'
  refine ⟨P, hcuts, ?_, ?_, ⟨front ++ listing.under P before, listing.under P after ++ back,
    ?_, ?_⟩, h.innermost_owner hins.le_hi howns, before.labels, after.labels, ?_, ?_, hbefore,
    hafter⟩
  · rw [hid]
    exact h.next_not_mem
  · rw [children, (wellFormed_inserted h ha).rooted.below_of_tree (tree_inserted h ha)]
    exact congrArg rootIds hinward
  · rw [hlisting, List.append_assoc, List.append_assoc]
  · rw [hlisting']
    simp [listing.under]
  · rw [hbelow, Forest.labels_append]
  · rw [hbelow', Forest.labels_append]
    rfl

/-- A marker that fits into the text is always inserted, as a leaf of the innermost element strictly
around it; all else stays as it was. -/
theorem leaf_answer (hpos : pos ≤ doc.text.length) (name : String) (attributes : Attributes)
    (balancing : Balancing) :
    ∃ a parent, doc.insert ⟨name, .emptyAt pos, attributes⟩ [] balancing = .ok a ∧
      doc.LeafUnder ⟨name, .emptyAt pos, attributes⟩ a parent := by
  obtain ⟨a, ha⟩ := h.insert_marker hpos name attributes balancing
  obtain ⟨parent, hleaf⟩ := h.leaf_of_insert ha
  exact ⟨a, parent, ha, hleaf⟩

omit h in
/-- A second marker where two elements meet: it stands behind the first one. -/
theorem leaf_answer_between :
    let host := Session.apply (ofText "abcdef")
      [.addSpan "a" ⟨0, 4⟩, .addSpan "b" ⟨0, 2⟩, .addSpan "c" ⟨2, 4⟩, .addSpan "m" ⟨2, 2⟩]
    host.WellFormed ∧ ∃ a, host.insert ⟨"n", .emptyAt 2, {}⟩ [] .strict = .ok a ∧
      host.LeafUnder ⟨"n", .emptyAt 2, {}⟩ a 1 ∧ a.document.children 1 = [2, 4, 5, 3] := by
  intro host
  have h : host.WellFormed :=
    (Session.wellFormed_apply (wellFormed_ofText "abcdef") (by decide +kernel)).1
  have hpos : 2 ≤ host.text.length := by decide +kernel
  obtain ⟨a, parent, ha, hleaf⟩ := h.leaf_answer hpos "n" {} .strict
  have hparent : parent = 1 := by
    have hnot : ¬∀ n ∈ host.markup.preorder, n.span.strictlyContains 2 = false := by
      decide +kernel
    have hone : ∀ n ∈ host.markup.preorder, n.span.strictlyContains 2 = true → n.id = 1 := by
      decide +kernel
    rcases hleaf.innermost with ⟨-, hnone⟩ | ⟨n, hn, rfl, hcontains, -⟩
    · exact absurd hnone hnot
    · exact hone n hn hcontains
  have hchildren : (host.insert ⟨"n", .emptyAt 2, {}⟩ [] .strict).map (·.document.children 1) =
      .ok [2, 4, 5, 3] := by
    decide +kernel
  rw [ha] at hchildren
  exact ⟨h, a, ha, hparent ▸ hleaf, Except.ok.inj hchildren⟩

end WellFormed

end Document

end Standoff
