import Standoff.Proofs.WellFormed

/-! # Subtrees of mark-up

Which element stands below which is a matter of the trees that a forest is made of.  In a row that
nests the spans of two trees nearly tell it: either one tree is part of the other, or one ends
before the other starts.

* `Forest.trees`: every tree of a forest, wherever it stands.
* `Markup.Nests.laminar`: the two ways in which trees lie to each other.
* `Document.WellFormed.mem_descendants_iff`: the descendants of an element. -/

namespace Standoff

namespace Forest

variable {α : Type} {f g : Forest α} {t u : Tree α} {a : α}

/-- All trees, each before those below it and after those to its left. -/
def trees : Forest α → List (Tree α)
  | nil => []
  | node a kids rest => ⟨a, kids⟩ :: (kids.trees ++ rest.trees)

@[simp] theorem trees_node (a : α) (kids rest : Forest α) :
    (node a kids rest).trees = ⟨a, kids⟩ :: (kids.trees ++ rest.trees) := rfl

@[simp] theorem trees_append : (f ++ g).trees = f.trees ++ g.trees := by
  induction f with
  | nil => rfl
  | node a kids rest _ ih => simp [ih]

/-- Every label is that of one tree. -/
theorem map_label_trees (f : Forest α) : f.trees.map (·.label) = f.preorder := by
  induction f with
  | nil => rfl
  | node a kids rest ihk ihr => simp [ihk, ihr]

theorem mem_preorder_iff : a ∈ f.preorder ↔ ∃ t ∈ f.trees, t.label = a := by
  rw [← map_label_trees, List.mem_map]

theorem label_mem (h : t ∈ f.trees) : t.label ∈ f.preorder := mem_preorder_iff.mpr ⟨t, h, rfl⟩

/-- What stands below a tree of a forest stands in the forest. -/
theorem trees_below (h : t ∈ f.trees) (hu : u ∈ t.children.trees) : u ∈ f.trees := by
  induction f with
  | nil => cases h
  | node a kids rest ihk ihr =>
    rw [trees_node, List.mem_cons, List.mem_append] at h ⊢
    rcases h with rfl | h | h
    · exact .inr (.inl hu)
    · exact .inr (.inl (ihk h))
    · exact .inr (.inr (ihr h))

theorem preorder_below (h : t ∈ f.trees) (ha : a ∈ t.children.preorder) : a ∈ f.preorder := by
  obtain ⟨u, hu, rfl⟩ := mem_preorder_iff.mp ha
  exact label_mem (trees_below h hu)

/-- A label is that of a root, or stands below one. -/
theorem root_or_below (h : a ∈ f.preorder) :
    a ∈ f.labels ∨ ∃ t ∈ f.trees, t.label ∈ f.labels ∧ a ∈ t.children.preorder := by
  induction f with
  | nil => cases h
  | node b kids rest _ ih =>
    simp only [preorder_node, List.mem_cons, List.mem_append] at h
    rcases h with rfl | h | h
    · exact .inl (List.mem_cons_self ..)
    · exact .inr ⟨⟨b, kids⟩, List.mem_cons_self .., List.mem_cons_self .., h⟩
    · rcases ih h with h | ⟨t, ht, hroot, ha⟩
      · exact .inl (List.mem_cons_of_mem _ h)
      · exact .inr ⟨t, by simp [ht], List.mem_cons_of_mem _ hroot, ha⟩

end Forest

namespace Markup

variable {lo hi : Nat} {m f g : Markup} {n : Node} {t u : Tree Node} {x : NodeId} {span : Span}

/-! ## Spans of trees -/

/-- Below a tree the row nests in its span. -/
theorem Nests.children (h : Nests lo hi m) (ht : t ∈ m.trees) :
    Nests t.label.span.start t.label.span.stop t.children := by
  induction m generalizing lo hi with
  | nil => cases ht
  | node n kids rest ihk ihr =>
    obtain ⟨-, hkids, hrest⟩ := h
    rw [Forest.trees_node, List.mem_cons, List.mem_append] at ht
    rcases ht with rfl | ht | ht
    · exact hkids
    · exact ihk hkids ht
    · exact ihr hrest ht

/-- Two trees are the same, or one is part of the other, or one ends before the other starts. -/
theorem Nests.laminar (h : Nests lo hi m) (ht : t ∈ m.trees) (hu : u ∈ m.trees) :
    t = u ∨ u ∈ t.children.trees ∨ t ∈ u.children.trees ∨
      t.label.span.stop ≤ u.label.span.start ∨ u.label.span.stop ≤ t.label.span.start := by
  induction m generalizing lo hi with
  | nil => cases ht
  | node n kids rest ihk ihr =>
    obtain ⟨-, hkids, hrest⟩ := h
    have hbelow {v : Tree Node} (hv : v ∈ kids.trees) :
        n.span.start ≤ v.label.span.start ∧ v.label.span.stop ≤ n.span.stop := by
      have := hkids.bounds (Forest.label_mem hv)
      omega
    have hbehind {v : Tree Node} (hv : v ∈ rest.trees) : n.span.stop ≤ v.label.span.start :=
      (hrest.bounds (Forest.label_mem hv)).1
    rw [Forest.trees_node, List.mem_cons, List.mem_append] at ht hu
    rcases ht with rfl | ht | ht <;> rcases hu with rfl | hu | hu
    · exact .inl rfl
    · exact .inr (.inl hu)
    · exact .inr (.inr (.inr (.inl (hbehind hu))))
    · exact .inr (.inr (.inl ht))
    · exact ihk hkids ht hu
    · exact .inr (.inr (.inr (.inl (Nat.le_trans (hbelow ht).2 (hbehind hu)))))
    · exact .inr (.inr (.inr (.inr (hbehind ht))))
    · exact .inr (.inr (.inr (.inr (Nat.le_trans (hbelow hu).2 (hbehind ht)))))
    · exact ihr hrest ht hu

/-! ## Look-up -/

/-- A number is that of one tree. -/
theorem tree_of_id (hm : m.ids.Nodup) (ht : t ∈ m.trees) (hu : u ∈ m.trees)
    (hid : t.label.id = u.label.id) : t = u := by
  have hnodup : (m.trees.map fun t => t.label.id).Nodup := by
    rw [ids, ← Forest.map_label_trees, List.map_map] at hm
    exact hm
  exact List.inj_on_of_nodup_map hnodup ht hu hid

theorem mem_trees_of_node? (h : m.node? x = some t) : t ∈ m.trees := by
  induction m with
  | nil => cases h
  | node n kids rest ihk ihr =>
    rw [Forest.trees_node, List.mem_cons, List.mem_append]
    rw [node?_node] at h
    split at h
    · cases h
      exact .inl rfl
    · rcases Option.or_eq_some_iff.mp h with h | ⟨-, h⟩
      · exact .inr (.inl (ihk h))
      · exact .inr (.inr (ihr h))

/-- Where numbers are distinct every tree is found by its number. -/
theorem node?_of_mem_trees (hm : m.ids.Nodup) (ht : t ∈ m.trees) :
    m.node? t.label.id = some t := by
  obtain ⟨u, hu⟩ := exists_node? (id_mem_ids (Forest.label_mem ht))
  rw [hu, tree_of_id hm (mem_trees_of_node? hu) ht (node?_spec hu).1]

/-- A node is not below itself. -/
theorem not_below_self (hm : m.ids.Nodup) (ht : t ∈ m.trees) : t.label.id ∉ ids t.children := by
  have hnodup := nodup_treeIds hm (node?_of_mem_trees hm ht)
  rw [treeIds_eq, List.nodup_cons] at hnodup
  exact hnodup.1

end Markup

namespace Document

open Markup

variable {doc : Document} {x y : NodeId} {t : Tree Node}

theorem Rooted.below_of_tree (h : doc.Rooted) (ht : t ∈ doc.markup.trees) :
    doc.below t.label.id = t.children := by
  have hne : t.label.id ≠ rootId := fun heq =>
    h.rootId_not_mem (heq ▸ id_mem_ids (Forest.label_mem ht))
  rw [below, if_neg hne, node?_of_mem_trees h.nodup ht]

/-- The elements below a tree of a document, by number. -/
theorem Rooted.mem_descendants (h : doc.Rooted) (ht : t ∈ doc.markup.trees) :
    y ∈ doc.descendants t.label.id ↔ y ∈ ids t.children := by
  rw [descendants, h.below_of_tree ht]

/-- The descendants of an element are what its tree holds below it. -/
theorem WellFormed.mem_descendants_iff (h : doc.WellFormed) (hx : x ≠ rootId) :
    y ∈ doc.descendants x ↔ ∃ t ∈ doc.markup.trees, t.label.id = x ∧ y ∈ ids t.children := by
  constructor
  · intro hy
    rw [descendants, below, if_neg hx] at hy
    cases ht : doc.markup.node? x with
    | none =>
      rw [ht] at hy
      cases hy
    | some t =>
      rw [ht] at hy
      exact ⟨t, mem_trees_of_node? ht, (node?_spec ht).1, hy⟩
  · rintro ⟨t, ht, rfl, hy⟩
    exact (h.rooted.mem_descendants ht).mpr hy

end Document

end Standoff
