import Standoff.Proofs.Balancing
import Standoff.Proofs.Fragments
import Standoff.Proofs.Sessions

/-! # What stands around and below an inserted element

An element that may cut others is always inserted.  Above it stand the elements that contain its
span, below it what lies within and does not contain it; for elements with width the spans of the
trees tell it, since trees that share a character lie one in the other.  A marker at a boundary
stays outside, unless it comes in with an element that holds it and goes inside whole.

* `Markup.tree_divide`, `Markup.tree_added`: trees that no boundary lies in stay whole.
* `Markup.marker_right`, `Markup.marker_left`: markers at the boundaries of the parts.
* `Document.InnerAnswer`: what is said above, as the law of an insertion.
* `Document.WellFormed.inner_answer`: every insertion that claims nothing keeps it. -/

namespace Standoff

namespace Span

variable {s t : Span}

theorem contains_iff : s.contains t = true ↔ s.start ≤ t.start ∧ t.stop ≤ s.stop := by
  rw [contains, Bool.and_eq_true, decide_eq_true_eq, decide_eq_true_eq]

theorem contains_eq_false_iff : s.contains t = false ↔ ¬(s.start ≤ t.start ∧ t.stop ≤ s.stop) := by
  rw [← contains_iff, Bool.not_eq_true]

end Span

namespace Forest

variable {α : Type} {enters : α → Bool} {f g : Forest α} {t : Tree α}

/-- The trees of the focussed row are trees of the forest. -/
theorem trees_focus_row (h : t ∈ (f.focus enters).row.trees) : t ∈ f.trees := by
  induction f using focus_induction enters with
  | row f hf =>
    rw [focus_of_none hf] at h
    exact h
  | inner f a kids rest hf ha ih =>
    rw [focus_append_node kids rest hf ha] at h
    rw [trees_append, trees_node, List.mem_append, List.mem_cons, List.mem_append]
    exact .inr (.inr (.inl (ih h)))

/-- A row in the place of the focussed one brings in its trees. -/
theorem trees_plug (h : t ∈ g.trees) : t ∈ ((f.focus enters).plug g).trees := by
  induction f using focus_induction enters with
  | row f hf =>
    rw [focus_of_none hf]
    exact h
  | inner f a kids rest hf ha ih =>
    rw [focus_append_node kids rest hf ha, trees_append, trees_node, List.mem_append,
      List.mem_cons, List.mem_append]
    exact .inr (.inr (.inl ih))

/-- A tree that is not entered is in the focussed row, or whatever takes its place leaves it. -/
theorem tree_of_not_entered (ht : t ∈ f.trees) (hout : enters t.label = false) :
    t ∈ (f.focus enters).row.trees ∨ ∀ g, t ∈ ((f.focus enters).plug g).trees := by
  induction f using focus_induction enters with
  | row f hf =>
    rw [focus_of_none hf]
    exact .inl ht
  | inner f a kids rest hf ha ih =>
    rw [focus_append_node kids rest hf ha]
    simp only [trees_append, trees_node, List.mem_append, List.mem_cons] at ht ⊢
    rcases ht with ht | rfl | ht | ht
    · exact .inr fun g => .inl ht
    · rw [ha] at hout
      cases hout
    · exact (ih ht).imp_right fun h g => .inr (.inr (.inl (h g)))
    · exact .inr fun g => .inr (.inr (.inr ht))

end Forest

namespace Markup

variable {lo hi pos : Nat} {m row kids rest : Markup} {n x z : Node} {s : Supply} {span : Span}
  {e : Element} {t u : Tree Node}

/-! ## Trees of a division -/

/-- A tree that the position does not lie in stays whole. -/
theorem tree_divide (ht : t ∈ m.trees)
    (hwhole : ¬(t.label.span.start < pos ∧ pos < t.label.span.stop)) :
    t ∈ (divide pos m s).left.trees ∨ t ∈ (divide pos m s).lifted.trees ∨
      t ∈ (divide pos m s).right.trees := by
  induction m generalizing s with
  | nil => exact absurd ht List.not_mem_nil
  | node a kids rest ihk ihr =>
    simp only [Forest.trees_node, List.mem_cons, List.mem_append] at ht
    rcases a.span.lies pos with ha | ha | ha | ha
    · rw [divide_cut ha]
      simp only [Forest.trees_node, Forest.trees_append, List.mem_cons, List.mem_append]
      rcases ht with rfl | ht | ht
      · exact absurd ha hwhole
      · rcases ihk (s := s.cut a pos) ht with h | h | h <;> simp [h]
      · rcases ihr (s := (divide pos kids (s.cut a pos)).supply) ht with h | h | h <;> simp [h]
    · rw [divide_marker ha]
      simp only [Forest.trees_node, List.mem_cons, List.mem_append]
      rcases ht with ht | ht | ht
      · simp [ht]
      · simp [ht]
      · rcases ihr (s := s) ht with h | h | h <;> simp [h]
    · rw [divide_right ha]
      simp only [Forest.trees_node, List.mem_cons, List.mem_append]
      rcases ht with ht | ht | ht
      · simp [ht]
      · simp [ht]
      · rcases ihr (s := s) ht with h | h | h <;> simp [h]
    · rw [divide_left ha]
      simp only [Forest.trees_node, List.mem_cons, List.mem_append]
      rcases ht with ht | ht | ht
      · simp [ht]
      · simp [ht]
      · rcases ihr (s := s) ht with h | h | h <;> simp [h]

/-- A tree on the right was there, or is the right half of one. -/
theorem tree_of_right (ht : t ∈ (divide pos m s).right.trees) :
    t ∈ m.trees ∨ ∃ n ∈ m.preorder, (n.span.start < pos ∧ pos < n.span.stop) ∧
      t.label.span = ⟨pos, n.span.stop⟩ := by
  induction m generalizing s with
  | nil => cases ht
  | node a kids rest ihk ihr =>
    simp only [Forest.trees_node, Forest.preorder_node, List.mem_cons, List.mem_append]
    have hrest {s : Supply} (ht : t ∈ (divide pos rest s).right.trees) :
        (t = ⟨a, kids⟩ ∨ t ∈ kids.trees ∨ t ∈ rest.trees) ∨
          ∃ n, (n = a ∨ n ∈ kids.preorder ∨ n ∈ rest.preorder) ∧
            (n.span.start < pos ∧ pos < n.span.stop) ∧ t.label.span = ⟨pos, n.span.stop⟩ := by
      rcases ihr ht with h | ⟨n, hn, hpos⟩
      · exact .inl (.inr (.inr h))
      · exact .inr ⟨n, .inr (.inr hn), hpos⟩
    rcases a.span.lies pos with ha | ha | ha | ha
    · rw [divide_cut ha, Forest.trees_node, List.mem_cons, List.mem_append] at ht
      rcases ht with rfl | ht | ht
      · exact .inr ⟨a, .inl rfl, ha, rfl⟩
      · rcases ihk ht with h | ⟨n, hn, hpos⟩
        · exact .inl (.inr (.inl h))
        · exact .inr ⟨n, .inr (.inl hn), hpos⟩
      · exact hrest ht
    · rw [divide_marker ha] at ht
      exact hrest ht
    · rw [divide_right ha, Forest.trees_node, List.mem_cons, List.mem_append] at ht
      rcases ht with ht | ht | ht
      · exact .inl (.inl ht)
      · exact .inl (.inr (.inl ht))
      · exact hrest ht
    · rw [divide_left ha] at ht
      exact hrest ht

/-- A marker at the position that is on the right stands below a tree that starts there. -/
theorem marker_right (hm : Nests lo hi m) (hz : z ∈ (divide pos m s).right.preorder)
    (hstart : z.span.start = pos) (hstop : z.span.stop = pos) :
    ∃ t ∈ m.trees, (t.label.span.start = pos ∧ pos < t.label.span.stop) ∧
      z ∈ t.children.preorder := by
  induction m generalizing lo hi s with
  | nil => cases hz
  | node a kids rest ihk ihr =>
    obtain ⟨-, hkids, hrest⟩ := hm
    simp only [Forest.trees_node, List.mem_cons, List.mem_append]
    have hbehind {s : Supply} (hz : z ∈ (divide pos rest s).right.preorder) :
        ∃ t, (t = ⟨a, kids⟩ ∨ t ∈ kids.trees ∨ t ∈ rest.trees) ∧
          (t.label.span.start = pos ∧ pos < t.label.span.stop) ∧ z ∈ t.children.preorder := by
      obtain ⟨t, ht, hpos⟩ := ihr hrest hz
      exact ⟨t, .inr (.inr ht), hpos⟩
    rcases a.span.lies pos with ha | ha | ha | ha
    · rw [divide_cut ha, Forest.preorder_node, List.mem_cons, List.mem_append] at hz
      rcases hz with rfl | hz | hz
      · exact absurd hstop (Nat.ne_of_gt ha.2)
      · obtain ⟨t, ht, hpos⟩ := ihk hkids hz
        exact ⟨t, .inr (.inl ht), hpos⟩
      · exact hbehind hz
    · rw [divide_marker ha] at hz
      exact hbehind hz
    · rw [divide_right ha, Forest.preorder_node, List.mem_cons, List.mem_append] at hz
      rcases hz with rfl | hz | hz
      · omega
      · have hbounds := hkids.bounds hz
        refine ⟨⟨a, kids⟩, .inl rfl, ?_, hz⟩
        show a.span.start = pos ∧ pos < a.span.stop
        omega
      · exact hbehind hz
    · rw [divide_left ha] at hz
      exact hbehind hz

/-- A marker at the position that is on the left stands below a tree that ends there. -/
theorem marker_left (hm : Nests lo hi m) (hz : z ∈ (divide pos m s).left.preorder)
    (hstart : z.span.start = pos) (hstop : z.span.stop = pos) :
    ∃ t ∈ m.trees, (t.label.span.start < pos ∧ t.label.span.stop = pos) ∧
      z ∈ t.children.preorder := by
  induction m generalizing lo hi s with
  | nil => cases hz
  | node a kids rest ihk ihr =>
    obtain ⟨-, hkids, hrest⟩ := hm
    simp only [Forest.trees_node, List.mem_cons, List.mem_append]
    have hbehind {s : Supply} (hz : z ∈ (divide pos rest s).left.preorder) :
        ∃ t, (t = ⟨a, kids⟩ ∨ t ∈ kids.trees ∨ t ∈ rest.trees) ∧
          (t.label.span.start < pos ∧ t.label.span.stop = pos) ∧ z ∈ t.children.preorder := by
      obtain ⟨t, ht, hpos⟩ := ihr hrest hz
      exact ⟨t, .inr (.inr ht), hpos⟩
    rcases a.span.lies pos with ha | ha | ha | ha
    · rw [divide_cut ha, Forest.preorder_node, List.mem_cons, List.mem_append] at hz
      rcases hz with rfl | hz | hz
      · exact absurd hstart (Nat.ne_of_lt ha.1)
      · obtain ⟨t, ht, hpos⟩ := ihk hkids hz
        exact ⟨t, .inr (.inl ht), hpos⟩
      · exact hbehind hz
    · rw [divide_marker ha] at hz
      exact hbehind hz
    · rw [divide_right ha] at hz
      exact hbehind hz
    · rw [divide_left ha, Forest.preorder_node, List.mem_cons, List.mem_append] at hz
      rcases hz with rfl | hz | hz
      · omega
      · have hbounds := hkids.bounds hz
        refine ⟨⟨a, kids⟩, .inl rfl, ?_, hz⟩
        show a.span.start < pos ∧ a.span.stop = pos
        omega
      · exact hbehind hz

/-! ## Inside an opening -/

/-- Nothing inside has room for the span. -/
theorem inside_not_admits (hrow : Nests lo hi row) (hclosed : Closed span row)
    (hlo : lo ≤ span.start) (hab : span.start ≤ span.stop) (hhi : span.stop ≤ hi)
    (hx : x ∈ (opening [] span row s).1.inside.preorder) :
    x.span.admits span = false := by
  rw [opening_nil] at hx
  have hright := (hrow.divide hlo (Nat.le_trans hab hhi) s).2.2
  obtain ⟨y, hy, hyx⟩ := within_divide (s := (divide span.start row s).supply) hright
    (by rw [Division.row, Forest.preorder_append, Forest.preorder_append]
        exact List.mem_append_left _ (List.mem_append_left _ hx))
  obtain ⟨z, hz, hzy⟩ := within_divide (s := s) hrow
    (by rw [Division.row, Forest.preorder_append]
        exact List.mem_append_right _ hy)
  have hnot := hclosed.not_admits hrow hab hz
  rw [← Bool.not_eq_true] at hnot ⊢
  intro hadmits
  exact hnot (admits_within hab (Nat.le_trans hzy.1 hyx.1) (Nat.le_trans hyx.2 hzy.2) hadmits)

/-- A marker at a boundary that comes inside stands below a tree of the row that lies within. -/
theorem marker_inside (hrow : Nests lo hi row) (hclosed : Closed span row)
    (hlo : lo ≤ span.start) (hlt : span.start < span.stop) (hhi : span.stop ≤ hi)
    (hz : z ∈ (opening [] span row s).1.inside.preorder) (hmarker : z.span.stop ≤ z.span.start)
    (hpos : z.span.start = span.start ∨ z.span.start = span.stop) :
    ∃ t ∈ row.trees, z ∈ t.children.preorder ∧ t.label.span.start < t.label.span.stop ∧
      span.start ≤ t.label.span.start ∧ t.label.span.stop ≤ span.stop := by
  have hab := Nat.le_of_lt hlt
  rw [opening_nil] at hz
  have hright := (hrow.divide hlo (Nat.le_trans hab hhi) s).2.2
  have hord := ((hright.divide hab hhi (divide span.start row s).supply).1.bounds hz).2.1
  rcases hpos with hpos | hpos
  · have hz := mem_of_divide hmarker (.inl hz)
    obtain ⟨t, ht, hspan, hbelow⟩ := marker_right hrow hz hpos (by omega)
    have hnot := hclosed.not_admits hrow hab (Forest.label_mem ht)
    rw [← Bool.not_eq_true, Span.admits_iff] at hnot
    exact ⟨t, ht, hbelow, by omega, by omega, by omega⟩
  · obtain ⟨t, ht, hspan, hbelow⟩ := marker_left hright hz hpos (by omega)
    have hstart := (hright.bounds (Forest.label_mem ht)).1
    rcases tree_of_right ht with ht | ⟨n, hn, hcut, hhalf⟩
    · exact ⟨t, ht, hbelow, by omega, hstart, by omega⟩
    -- the right half of an element that has room for the span
    · have hnot := hclosed.not_admits hrow hab hn
      have hstop : t.label.span.stop = n.span.stop := by rw [hhalf]
      rw [← Bool.not_eq_true, Span.admits_iff] at hnot
      omega

/-! ## Insertions -/

/-- The new element over what comes inside. -/
theorem tree_new (e : Element) (m : Markup) (s : Supply) :
    (⟨⟨e, (opened [] e.span m s).2.next⟩, (opened [] e.span m s).1.inside⟩ : Tree Node) ∈
      (added e m s).trees := by
  refine Forest.trees_plug ?_
  rw [newRow, Forest.trees_append, Forest.trees_node]
  exact List.mem_append_right _ (List.mem_cons_self ..)

/-- A tree without room for the span stays whole unless a boundary lies in it. -/
theorem tree_added (ht : t ∈ m.trees) (hnot : t.label.span.admits e.span = false)
    (hstart : ¬(t.label.span.start < e.span.start ∧ e.span.start < t.label.span.stop))
    (hstop : ¬(t.label.span.start < e.span.stop ∧ e.span.stop < t.label.span.stop)) :
    t ∈ (added e m s).trees := by
  have hout : enters [] e.span t.label = false := by
    rw [enters_nil]
    exact hnot
  rcases Forest.tree_of_not_entered ht hout with hrow | hplug
  · refine Forest.trees_plug ?_
    rw [newRow, opened, opening_nil]
    simp only [Forest.trees_append, Forest.trees_node, List.mem_append, List.mem_cons]
    rcases tree_divide (s := s) hrow hstart with hrow | hrow | hrow
    · exact .inl (.inl hrow)
    · exact .inl (.inr hrow)
    · rcases tree_divide (s := (divide e.span.start (site [] e.span m).row s).supply) hrow hstop
        with hrow | hrow | hrow
      · exact .inr (.inr (.inl hrow))
      · exact .inr (.inr (.inr (.inl hrow)))
      · exact .inr (.inr (.inr (.inr hrow)))
  · exact hplug _

namespace Insertable

variable (h : Insertable lo hi [] e m s)
include h

/-- Nothing that comes inside has room for the span. -/
theorem inside_closed (hx : x ∈ (opened [] e.span m s).1.inside.preorder) :
    x.span.admits e.span = false := by
  obtain ⟨lo', hi', hlo', hhi', hrow, -⟩ := h.nests.focus [] h.lo_le h.ordered h.le_hi
  exact inside_not_admits hrow (closed_row e.span m) hlo' h.ordered hhi' hx

/-- A marker at a boundary that comes inside stood below a tree that lies within the span. -/
theorem inside_marker (hlt : e.span.start < e.span.stop)
    (hz : z ∈ (opened [] e.span m s).1.inside.preorder)
    (hmarker : z.span.stop ≤ z.span.start)
    (hpos : z.span.start = e.span.start ∨ z.span.start = e.span.stop) :
    ∃ t ∈ m.trees, (z ∈ t.children.preorder ∧ t.label.span.start < t.label.span.stop ∧
      e.span.start ≤ t.label.span.start ∧ t.label.span.stop ≤ e.span.stop) ∧
        t.label.span.admits e.span = false := by
  obtain ⟨lo', hi', hlo', hhi', hrow, -⟩ := h.nests.focus [] h.lo_le h.ordered h.le_hi
  have hclosed := closed_row e.span m
  obtain ⟨t, ht, hbelow⟩ := marker_inside hrow hclosed hlo' hlt hhi' hz hmarker hpos
  exact ⟨t, Forest.trees_focus_row ht, hbelow,
    hclosed.not_admits hrow h.ordered (Forest.label_mem ht)⟩

end Insertable

end Markup

namespace Document

open Markup

/-- The law of an insertion that claims nothing and may cut. -/
structure InnerAnswer (doc : Document) (e : Element) (a : Addition) : Prop where
  /-- Above the new element stand the elements that contain it. -/
  above : ∀ x, x ≠ rootId → (a.id ∈ a.document.descendants x ↔
    ∃ n ∈ doc.markup.preorder, n.id = x ∧ n.span.contains e.span = true)
  /-- The elements that cross the new one are cut, each at the boundary that it crosses. -/
  nodes : a.document.markup.preorder.Perm (⟨e, a.id⟩ :: (doc.markup.preorder.map
    (Node.spared e.span) ++
      halves (fun n => n.span.crossed e.span) doc.next (crossing e.span doc.markup)))
  /-- Right halves take the next numbers, and the new element the one after them. -/
  id : a.id = doc.next + (crossing e.span doc.markup).length
  elementCount : a.document.elementCount =
    doc.elementCount + 1 + (crossing e.span doc.markup).length
  /-- Of what has width, below the new element stands what lies within and does not contain it. -/
  below : ∀ n ∈ a.document.markup.preorder, n.span.start < n.span.stop →
    (n.id ∈ a.document.descendants a.id ↔
      e.span.contains n.span = true ∧ n.span.contains e.span = false)
  /-- A marker is below it if it lies strictly inside, or came with what held it. -/
  markers : ∀ z ∈ doc.markup.preorder, z.span.stop ≤ z.span.start →
    (z.id ∈ a.document.descendants a.id ↔ e.span.strictlyContains z.span.start = true ∨
      ∃ n ∈ doc.markup.preorder, z.id ∈ doc.descendants n.id ∧ n.span.start < n.span.stop ∧
        e.span.contains n.span = true ∧ n.span.contains e.span = false)
  order : (a.document.markup.ids.filter fun x => decide (x < doc.next)) = doc.markup.ids

/-- What comes inside a new element over the span. -/
def inward (doc : Document) (span : Span) : Markup :=
  (opened [] span doc.markup ⟨doc.next, []⟩).1.inside

variable {doc : Document} {e : Element} {a : Addition} {n x z : Node} {t : Tree Node}
  {balancing : Balancing}

/-- Numbers tell nodes apart. -/
theorem WellFormed.mem_below_of_id (h : doc.WellFormed) (ht : t ∈ doc.markup.trees)
    (hn : n ∈ doc.markup.preorder) (hid : n.id ∈ ids t.children) : n ∈ t.children.preorder := by
  obtain ⟨y, hy, hyn⟩ := mem_ids.mp hid
  rw [← eq_of_id h.nodup (Forest.preorder_below ht hy) hn hyn]
  exact hy

/-- A node that does not cross the span is there after an insertion. -/
theorem WellFormed.mem_inserted (h : doc.WellFormed) (ha : doc.insert e [] balancing = .ok a)
    (hn : n ∈ doc.markup.preorder) (hcross : n.span.crosses e.span = false) :
    n ∈ a.document.markup.preorder := by
  obtain ⟨hins, hmarkup, -⟩ := h.insert_added ha
  rw [hmarkup, hins.perm_added.mem_iff, ← Node.spared_of_not_crosses hcross]
  exact List.mem_cons_of_mem _ (List.mem_append_left _ (List.mem_map_of_mem hn))

section Inserted

variable (h : doc.WellFormed) (ha : doc.insert e [] balancing = .ok a)
include h ha

theorem wellFormed_inserted : a.document.WellFormed :=
  h.insert (fun _ hc => absurd hc List.not_mem_nil) ha

theorem tree_inserted :
    (⟨⟨e, a.id⟩, doc.inward e.span⟩ : Tree Node) ∈ a.document.markup.trees := by
  obtain ⟨-, hmarkup, hid, -⟩ := h.insert_added ha
  rw [hmarkup, hid]
  exact tree_new e doc.markup ⟨doc.next, []⟩

theorem mem_descendants_inserted {y : NodeId} :
    y ∈ a.document.descendants a.id ↔ y ∈ (doc.inward e.span).ids :=
  (wellFormed_inserted h ha).rooted.mem_descendants (tree_inserted h ha)

theorem not_mem_of_inserted (hn : n ∈ doc.markup.preorder) : n.id ≠ a.id := by
  obtain ⟨hins, -, hid, -⟩ := h.insert_added ha
  have hlt := (h.mem_ids_iff.mp (id_mem_ids hn)).2
  have hnext := hins.next_opened
  simp only [NodeId] at *
  omega

/-- A tree that shares a character with the new element, or lies strictly inside, and does not
contain it came inside. -/
theorem inward_of_meets (ht : t ∈ a.document.markup.trees)
    (hmeets : t.label.span.start < e.span.stop ∧ e.span.start < t.label.span.stop)
    (hnot : ¬(t.label.span.start ≤ e.span.start ∧ e.span.stop ≤ t.label.span.stop)) :
    t ∈ (doc.inward e.span).trees := by
  have hnests := (wellFormed_inserted h ha).nests
  have hnew := tree_inserted h ha
  rcases hnests.laminar ht hnew with rfl | hbelow | hinside | hbefore | hbehind
  · exact absurd ⟨Nat.le_refl _, Nat.le_refl _⟩ hnot
  · have hbounds := (hnests.children ht).bounds (Forest.label_mem hbelow)
    exact absurd ⟨hbounds.1, hbounds.2.2⟩ hnot
  · exact hinside
  · exact absurd hmeets.2 (Nat.not_lt.mpr hbefore)
  · exact absurd hmeets.1 (Nat.not_lt.mpr hbehind)

variable (hlt : e.span.start < e.span.stop)
include hlt

theorem not_covers_inward (hx : x ∈ (doc.inward e.span).preorder) :
    ¬(x.span.start ≤ e.span.start ∧ e.span.stop ≤ x.span.stop) := by
  obtain ⟨hins, -⟩ := h.insert_added ha
  have hnot := hins.inside_closed hx
  rw [← Bool.not_eq_true, Span.admits_iff] at hnot
  omega

/-- A tree that contains the new element is above it. -/
theorem above_of_covers (ht : t ∈ a.document.markup.trees) (hid : t.label.id ≠ a.id)
    (hcovers : t.label.span.start ≤ e.span.start ∧ e.span.stop ≤ t.label.span.stop) :
    a.id ∈ a.document.descendants t.label.id := by
  have hwf := wellFormed_inserted h ha
  have hnew := tree_inserted h ha
  rw [hwf.rooted.mem_descendants ht]
  rcases hwf.nests.laminar ht hnew with rfl | hbelow | hinside | hbefore | hbehind
  · exact absurd rfl hid
  · exact id_mem_ids (Forest.label_mem hbelow)
  · exact absurd hcovers (not_covers_inward h ha hlt (Forest.label_mem hinside))
  · exact absurd (Nat.le_trans hcovers.2 hbefore) (Nat.not_le.mpr hlt)
  · exact absurd (Nat.le_trans hbehind hcovers.1) (Nat.not_le.mpr hlt)

/-- What contains the new element was there, and is as it was. -/
theorem mem_of_covers (hx : x ∈ a.document.markup.preorder) (hid : x.id ≠ a.id)
    (hcovers : x.span.start ≤ e.span.start ∧ e.span.stop ≤ x.span.stop) :
    x ∈ doc.markup.preorder := by
  obtain ⟨hins, hmarkup, hida, -⟩ := h.insert_added ha
  rw [hmarkup, hins.perm_added.mem_iff, List.mem_cons, List.mem_append, List.mem_map] at hx
  rcases hx with rfl | ⟨n, hn, rfl⟩ | hhalf
  · exact absurd hida.symm hid
  · cases hcross : n.span.crosses e.span with
    | false =>
      rw [Node.spared_of_not_crosses hcross]
      exact hn
    | true =>
      rw [Node.spared, hcross, if_pos rfl] at hcovers
      rw [Span.crosses_iff] at hcross
      have hstart : n.span.start ≤ e.span.start := hcovers.1
      have hstop : e.span.stop ≤ n.span.crossed e.span := hcovers.2
      rw [Span.crossed] at hstop
      split at hstop <;> omega
  · obtain ⟨-, n, hn, hxn⟩ := mem_halves hhalf
    have hcross := (List.mem_filter.mp hn).2
    rw [hxn] at hcovers
    rw [Span.crosses_iff] at hcross
    have hstart : n.span.crossed e.span ≤ e.span.start := hcovers.1
    have hstop : e.span.stop ≤ n.span.stop := hcovers.2
    rw [Span.crossed] at hstart
    split at hstart <;> omega

/-- Above the new element stand the elements that contain its span. -/
theorem mem_above_iff {x : NodeId} (hx : x ≠ rootId) : a.id ∈ a.document.descendants x ↔
    ∃ n ∈ doc.markup.preorder, n.id = x ∧ n.span.contains e.span = true := by
  have hwf := wellFormed_inserted h ha
  have hnew := tree_inserted h ha
  constructor
  · intro hmem
    obtain ⟨t, ht, htx, hbelow⟩ := (hwf.mem_descendants_iff hx).mp hmem
    have hbounds := (hwf.nests.children ht).bounds
      (hwf.mem_below_of_id ht (Forest.label_mem hnew) hbelow)
    have hne : t.label.id ≠ a.id := by
      intro heq
      rw [← heq] at hbelow
      exact not_below_self hwf.nodup ht hbelow
    have hcovers : t.label.span.start ≤ e.span.start ∧ e.span.stop ≤ t.label.span.stop :=
      ⟨hbounds.1, hbounds.2.2⟩
    exact ⟨t.label, mem_of_covers h ha hlt (Forest.label_mem ht) hne hcovers, htx,
      Span.contains_iff.mpr hcovers⟩
  · rintro ⟨n, hn, rfl, hcontains⟩
    have hcovers := Span.contains_iff.mp hcontains
    have hcross : n.span.crosses e.span = false := by
      rw [Span.crosses_eq_false_iff]
      omega
    have hne := not_mem_of_inserted h ha hn
    obtain ⟨t, ht, rfl⟩ := Forest.mem_preorder_iff.mp (h.mem_inserted ha hn hcross)
    exact above_of_covers h ha hlt ht hne hcovers

/-- Below the new element stands what has width, lies within its span and does not contain it. -/
theorem mem_below_iff (hn : n ∈ a.document.markup.preorder)
    (hwidth : n.span.start < n.span.stop) : n.id ∈ a.document.descendants a.id ↔
      e.span.contains n.span = true ∧ n.span.contains e.span = false := by
  obtain ⟨hins, -⟩ := h.insert_added ha
  rw [mem_descendants_inserted h ha, Span.contains_iff, Span.contains_eq_false_iff]
  constructor
  · intro hmem
    have hx := (wellFormed_inserted h ha).mem_below_of_id (tree_inserted h ha) hn hmem
    have hbounds := hins.nests_inside.bounds hx
    exact ⟨⟨hbounds.1, hbounds.2.2⟩, not_covers_inward h ha hlt hx⟩
  · rintro ⟨hwithin, hnot⟩
    obtain ⟨t, ht, rfl⟩ := Forest.mem_preorder_iff.mp hn
    exact id_mem_ids (Forest.label_mem (inward_of_meets h ha ht (by omega) hnot))

/-- A marker stands below the new element if it lies strictly inside, or below an element that came
inside whole. -/
theorem marker_below_iff (hz : z ∈ doc.markup.preorder) (hmarker : z.span.stop ≤ z.span.start) :
    z.id ∈ a.document.descendants a.id ↔ e.span.strictlyContains z.span.start = true ∨
      ∃ n ∈ doc.markup.preorder, z.id ∈ doc.descendants n.id ∧ n.span.start < n.span.stop ∧
        e.span.contains n.span = true ∧ n.span.contains e.span = false := by
  obtain ⟨hins, hmarkup, -⟩ := h.insert_added ha
  have hord := (h.nests.bounds hz).2.1
  have hmem : z ∈ a.document.markup.preorder := by
    refine h.mem_inserted ha hz ?_
    rw [Span.crosses_eq_false_iff]
    omega
  rw [mem_descendants_inserted h ha, Span.strictlyContains_iff]
  constructor
  · intro hbelow
    have hin := (wellFormed_inserted h ha).mem_below_of_id (tree_inserted h ha) hmem hbelow
    have hbounds := hins.nests_inside.bounds hin
    refine or_iff_not_imp_left.mpr ?_
    intro hnot
    obtain ⟨t, ht, ⟨hzt, hwidth, hwithin⟩, hroom⟩ := hins.inside_marker hlt hin hmarker (by omega)
    rw [← Bool.not_eq_true, Span.admits_iff] at hroom
    refine ⟨t.label, Forest.label_mem ht, (h.rooted.mem_descendants ht).mpr (id_mem_ids hzt), hwidth,
      Span.contains_iff.mpr hwithin, Span.contains_eq_false_iff.mpr ?_⟩
    omega
  · rintro (hstrict | ⟨n, hn, hzn, hwidth, hwithin, hnot⟩)
    · obtain ⟨t, ht, rfl⟩ := Forest.mem_preorder_iff.mp hmem
      exact id_mem_ids (Forest.label_mem (inward_of_meets h ha ht (by omega) (by omega)))
    · rw [Span.contains_iff] at hwithin
      rw [Span.contains_eq_false_iff] at hnot
      obtain ⟨t, ht, rfl⟩ := Forest.mem_preorder_iff.mp hn
      have hroom : t.label.span.admits e.span = false := by
        rw [← Bool.not_eq_true, Span.admits_iff]
        omega
      have ht' := tree_added (s := ⟨doc.next, []⟩) ht hroom (by omega) (by omega)
      rw [← hmarkup] at ht'
      have hzt := h.mem_below_of_id ht hz ((h.rooted.mem_descendants ht).mp hzn)
      exact id_mem_ids (Forest.preorder_below (inward_of_meets h ha ht' (by omega) hnot) hzt)

/-- An insertion that claims nothing keeps the law. -/
theorem innerAnswer_of_inserted : doc.InnerAnswer e a := by
  obtain ⟨hins, hmarkup, hid, -⟩ := h.insert_added ha
  have hperm := hins.perm_added
  rw [← hmarkup, ← hid] at hperm
  refine ⟨?_, hperm, hid.trans hins.next_opened, ?_, ?_, ?_, ?_⟩
  · intro x hx
    exact mem_above_iff h ha hlt hx
  · have hlength := hperm.length_eq
    rw [List.length_cons, List.length_append, List.length_map, length_halves,
      Forest.length_preorder, Forest.length_preorder] at hlength
    simp only [elementCount]
    omega
  · intro n hn hwidth
    exact mem_below_iff h ha hlt hn hwidth
  · intro z hz hmarker
    exact marker_below_iff h ha hlt hz hmarker
  · have hseen := hins.seen_added (q := fun x => decide (x < doc.next)) fun x hx =>
      of_decide_eq_true hx
    rw [← hmarkup] at hseen
    refine hseen.trans (List.filter_eq_self.mpr ?_)
    intro x hx
    exact decide_eq_true (h.mem_ids_iff.mp hx).2

end Inserted

/-- An element with width that fits into the text is always inserted if it may cut: above it stand
the elements that contain it, those that cross it are cut once each, and what lies within it stands
below. -/
theorem WellFormed.inner_answer (h : doc.WellFormed) (hlt : e.span.start < e.span.stop)
    (hstop : e.span.stop ≤ doc.text.length) :
    ∃ a, doc.insert e [] .inner = .ok a ∧ doc.InnerAnswer e a := by
  obtain ⟨a, ha⟩ := h.insert_inner (fun _ hc => absurd hc List.not_mem_nil) (Nat.le_of_lt hlt) hstop
  exact ⟨a, ha, innerAnswer_of_inserted h ha hlt⟩

/-- Two elements are cut.  Of two markers at the boundaries one comes in with the element that
claimed it, and the other stays outside. -/
theorem WellFormed.inner_answer_markers :
    let host := Session.apply (ofText "abcdefgh")
      [.addSpan "x" ⟨0, 8⟩, .addSpan "p" ⟨1, 4⟩, .addSpan "m" ⟨3, 3⟩,
        .insert ⟨"u", ⟨3, 4⟩, {}⟩ [3] .inner, .addSpan "y" ⟨4, 6⟩, .addSpan "k" ⟨5, 5⟩]
    host.WellFormed ∧ ∃ a, host.insert ⟨"e", ⟨3, 5⟩, {}⟩ [] .inner = .ok a ∧
      host.InnerAnswer ⟨"e", ⟨3, 5⟩, {}⟩ a ∧ a.document.elementCount = 9 ∧
      a.id ∈ a.document.descendants 1 ∧ 3 ∈ a.document.descendants a.id ∧
      6 ∉ a.document.descendants a.id := by
  intro host
  have h : host.WellFormed :=
    (Session.wellFormed_apply (wellFormed_ofText "abcdefgh") (by decide +kernel)).1
  obtain ⟨a, ha, hanswer⟩ :=
    h.inner_answer (e := ⟨"e", ⟨3, 5⟩, {}⟩) (by decide) (by decide +kernel)
  have hm : (⟨⟨"m", ⟨3, 3⟩, {}⟩, 3⟩ : Node) ∈ host.markup.preorder := by decide +kernel
  have hk : (⟨⟨"k", ⟨5, 5⟩, {}⟩, 6⟩ : Node) ∈ host.markup.preorder := by decide +kernel
  refine ⟨h, a, ha, hanswer, ?_, (hanswer.above 1 (by decide)).mpr (by decide +kernel),
    (hanswer.markers _ hm (by decide)).mpr (by decide +kernel), ?_⟩
  · rw [hanswer.elementCount]
    decide +kernel
  · rw [hanswer.markers _ hk (by decide)]
    decide +kernel

end Document

end Standoff
