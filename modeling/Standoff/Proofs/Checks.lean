import Mathlib.Logic.Relation
import Standoff.Proofs.Links
import Standoff.Proofs.Subtrees

/-!
# What the check of nesting tells

The check looks at one node at a time, with its parent and the sibling before it.  What it tells is
about all pairs:

    no flaw ↔ every node is an element, ordered and in its parent, and of two children of one node
              the earlier one ends before the later one starts
    no flaw → of two nodes the earlier one ends before the later one starts, or is above it and
              holds it

Nodes are known by their views alone, so this is the check of a document as much as that of an
arena.  Nothing is asked of spans and kinds, only that the links make one tree.

* `Document.nests_iff_pairs`: nesting, told by links and spans.
* `Document.Planted.firstFlaw?_answer`: what the check tells.
* `Document.Rooted.planted`, `Document.Planted.descendants_eq`: the trees of documents and arenas.
-/

namespace Standoff

namespace Forest

variable {α : Type} {f : Forest α} {t : Tree α} {a : α}

/-- A label is that of a root, or of a child of some tree. -/
theorem root_or_child (h : a ∈ f.preorder) :
    a ∈ f.labels ∨ ∃ t ∈ f.trees, a ∈ t.children.labels := by
  induction f with
  | nil => cases h
  | node b kids rest ihk ihr =>
    simp only [preorder_node, List.mem_cons, List.mem_append] at h
    rcases h with rfl | h | h
    · exact .inl (List.mem_cons_self ..)
    · rcases ihk h with h | ⟨t, ht, ha⟩
      · exact .inr ⟨⟨b, kids⟩, List.mem_cons_self .., h⟩
      · exact .inr ⟨t, by simp [ht], ha⟩
    · rcases ihr h with h | ⟨t, ht, ha⟩
      · exact .inl (List.mem_cons_of_mem _ h)
      · exact .inr ⟨t, by simp [ht], ha⟩

/-- The children of a tree come in the order of the forest. -/
theorem children_sublist (h : t ∈ f.trees) : t.children.labels.Sublist f.preorder := by
  induction f with
  | nil => cases h
  | node b kids rest ihk ihr =>
    rw [trees_node, List.mem_cons, List.mem_append] at h
    rw [preorder_node]
    rcases h with rfl | h | h
    · exact ((labels_sublist kids).trans (List.sublist_append_left _ _)).cons b
    · exact ((ihk h).trans (List.sublist_append_left _ _)).cons b
    · exact ((ihr h).trans (List.sublist_append_right _ _)).cons b

end Forest

namespace Document

open Markup

variable {view? : NodeId → Option NodeView} {span : NodeId → Span} {f : Forest NodeId}
  {t : Tree NodeId} {previous : Option NodeId} {p q x y : NodeId} {lo hi : Nat}

/-! ## Nesting row by row -/

/-- Every node of a row lies in the span, and ends before each later one starts. -/
def RowFits (span : NodeId → Span) (outer : Span) (row : List NodeId) : Prop :=
  (∀ x ∈ row, outer.contains (span x) = true) ∧
    row.Pairwise fun x y => (span x).stop ≤ (span y).start

/-- A row nests if it fits, and what is below each tree fits into an ordered span. -/
theorem nests_iff : Nests lo hi (spanned span f) ↔ lo ≤ hi ∧ RowFits span ⟨lo, hi⟩ f.labels ∧
    ∀ t ∈ f.trees, (span t.label).isOrdered = true ∧
      RowFits span (span t.label) t.children.labels := by
  induction f generalizing lo hi with
  | nil => simp [spanned, RowFits, Forest.trees]
  | node x kids rest ihk ihr =>
    rw [spanned_node, nests_node, ihk, ihr]
    simp only [RowFits, Forest.labels_node, Forest.trees_node, List.mem_cons, List.mem_append,
      List.pairwise_cons, Span.contains, Span.isOrdered, Bool.and_eq_true, decide_eq_true_eq]
    constructor
    · rintro ⟨hlo, ⟨hord, ⟨hk, hkpair⟩, hktrees⟩, hhi, ⟨hr, hrpair⟩, hrtrees⟩
      refine ⟨by omega, ⟨?_, fun y hy => (hr y hy).1, hrpair⟩, ?_⟩
      · rintro y (rfl | hy)
        · omega
        · have := hr y hy
          omega
      · rintro t (rfl | ht | ht)
        · exact ⟨hord, hk, hkpair⟩
        · exact hktrees t ht
        · exact hrtrees t ht
    · rintro ⟨hle, ⟨hin, hbehind, hrpair⟩, htrees⟩
      obtain ⟨hord, hk, hkpair⟩ := htrees ⟨x, kids⟩ (.inl rfl)
      have hx := hin x (.inl rfl)
      refine ⟨hx.1, ⟨hord, ⟨hk, hkpair⟩, fun t ht => htrees t (.inr (.inl ht))⟩, hx.2,
        ⟨fun y hy => ⟨hbehind y hy, (hin y (.inr hy)).2⟩, hrpair⟩,
        fun t ht => htrees t (.inr (.inr ht))⟩

/-- Where a forest nests, each of its nodes lies in the bounds. -/
theorem spanned_bounds (h : Nests lo hi (spanned span f)) (hx : x ∈ f.preorder) :
    lo ≤ (span x).start ∧ (span x).stop ≤ hi := by
  have hmem : { id := x, name := "", span := span x } ∈ (spanned span f).preorder := by
    rw [spanned, Forest.preorder_map]
    exact List.mem_map_of_mem hx
  exact ⟨(h.bounds hmem).1, (h.bounds hmem).2.2⟩

/-- Of two trees the later one is part of the earlier one, or starts behind it. -/
theorem pairwise_trees (h : Nests lo hi (spanned span f)) : f.trees.Pairwise fun t u =>
    (u ∈ t.children.trees ∧ (span t.label).contains (span u.label) = true) ∨
      (span t.label).stop ≤ (span u.label).start := by
  induction f generalizing lo hi with
  | nil => exact .nil
  | node x kids rest ihk ihr =>
    obtain ⟨-, hkids, hrest⟩ := h
    rw [Forest.trees_node]
    refine List.pairwise_cons.mpr ⟨fun u hu => ?_,
      List.pairwise_append.mpr ⟨ihk hkids, ihr hrest, fun t ht u hu => ?_⟩⟩
    · rcases List.mem_append.mp hu with hu | hu
      · have hin := spanned_bounds hkids (Forest.label_mem hu)
        exact .inl ⟨hu, by simp [Span.contains, hin]⟩
      · exact .inr (spanned_bounds hrest (Forest.label_mem hu)).1
    · have hstop := (spanned_bounds hkids (Forest.label_mem ht)).2
      have hstart := (spanned_bounds hrest (Forest.label_mem hu)).1
      exact .inr (Nat.le_trans hstop hstart)

/-! ## Parents -/

/-- The parent of a node, as its view gives it. -/
def parent? (view? : NodeId → Option NodeView) (x : NodeId) : Option NodeId :=
  (view? x).bind (·.links.parent)

/-- The second node is reached from the first one by going to children. -/
def Above (view? : NodeId → Option NodeView) : NodeId → NodeId → Prop :=
  Relation.TransGen fun x y => parent? view? y = some x

theorem parent?_of_links {links : Links} (h : (view? x).map (·.links) = some links) :
    parent? view? x = links.parent := by
  obtain ⟨v, hv, hlinks⟩ := Option.map_eq_some_iff.mp h
  rw [parent?, hv, ← hlinks]
  rfl

section Describes

variable (h : Describes (fun x => (view? x).map (·.links)) p previous f)
include h

theorem parent?_of_root (hx : x ∈ f.labels) : parent? view? x = some p := by
  induction f generalizing previous with
  | nil => cases hx
  | node y kids rest _ ih =>
    rcases List.mem_cons.mp hx with rfl | hx
    · exact parent?_of_links h.1
    · exact ih h.2.2 hx

theorem describes_tree (ht : t ∈ f.trees) :
    Describes (fun x => (view? x).map (·.links)) t.label none t.children := by
  induction f generalizing p previous with
  | nil => cases ht
  | node y kids rest ihk ihr =>
    rw [Forest.trees_node, List.mem_cons, List.mem_append] at ht
    rcases ht with rfl | ht | ht
    · exact h.2.1
    · exact ihk h.2.1 ht
    · exact ihr h.2.2 ht

/-- The parent of a node is the node over the forest, or a node of it. -/
theorem parent?_mem (hx : x ∈ f.preorder) : ∃ q ∈ p :: f.preorder, parent? view? x = some q := by
  rcases Forest.root_or_child hx with hx | ⟨t, ht, hx⟩
  · exact ⟨p, List.mem_cons_self .., parent?_of_root h hx⟩
  · exact ⟨t.label, List.mem_cons_of_mem _ (Forest.label_mem ht),
      parent?_of_root (describes_tree h ht) hx⟩

/-- The parent of a tree is no part of it. -/
theorem parent?_not_below (hnd : (p :: f.preorder).Nodup) (ht : t ∈ f.trees) :
    ∃ q, parent? view? t.label = some q ∧ q ∉ t.label :: t.children.preorder := by
  induction f generalizing p previous with
  | nil => cases ht
  | node y kids rest ihk ihr =>
    have hlinks := parent?_of_links h.1
    obtain ⟨-, hkids, hrest⟩ := h
    rw [Forest.preorder_node, ← List.cons_append] at hnd
    obtain ⟨hp, hnd⟩ := List.nodup_cons.mp hnd
    obtain ⟨hk, hr, -⟩ := List.nodup_append.mp hnd
    rw [Forest.trees_node, List.mem_cons, List.mem_append] at ht
    rcases ht with rfl | ht | ht
    · exact ⟨p, hlinks, fun hmem => hp (List.mem_append_left _ hmem)⟩
    · exact ihk hkids hk ht
    · exact ihr hrest
        (List.nodup_cons.mpr ⟨fun hmem => hp (List.mem_append_right _ hmem), hr⟩) ht

/-- A node and one below it have different parents. -/
theorem parent?_ne_below (hnd : (p :: f.preorder).Nodup) (ht : t ∈ f.trees)
    (hx : x ∈ t.children.preorder) : parent? view? t.label ≠ parent? view? x := by
  obtain ⟨q, hq, hout⟩ := parent?_not_below h hnd ht
  obtain ⟨r, hr, hx⟩ := parent?_mem (describes_tree h ht) hx
  rw [hq, hx]
  rintro heq
  cases heq
  exact hout hr

/-- All nodes of a forest are below the node over it. -/
theorem above_of_mem (hx : x ∈ f.preorder) : Above view? p x := by
  induction f generalizing p previous with
  | nil => cases hx
  | node y kids rest ihk ihr =>
    have hy : parent? view? y = some p := parent?_of_links h.1
    obtain ⟨-, hkids, hrest⟩ := h
    rw [Forest.preorder_node, List.mem_cons, List.mem_append] at hx
    rcases hx with rfl | hx | hx
    · exact .single hy
    · exact .head hy (ihk hkids hx)
    · exact ihr hrest hx

/-- The node is ordered, and in the span of its parent. -/
def Seated (view? : NodeId → Option NodeView) (x : NodeId) : Prop :=
  (spanOf view? x).isOrdered = true ∧
    ∃ q, parent? view? x = some q ∧ (spanOf view? q).contains (spanOf view? x) = true

/-- A forest under an ordered span nests exactly if each node is ordered and in its parent, and the
earlier one of two children ends before the later one starts. -/
theorem nests_iff_pairs (hnd : (p :: f.preorder).Nodup)
    (hp : (spanOf view? p).start ≤ (spanOf view? p).stop) :
    Nests (spanOf view? p).start (spanOf view? p).stop (spanned (spanOf view?) f) ↔
      (∀ x ∈ f.preorder, Seated view? x) ∧
        f.preorder.Pairwise fun x y => parent? view? x = parent? view? y →
          (spanOf view? x).stop ≤ (spanOf view? y).start := by
  constructor
  · intro hnests
    obtain ⟨-, hrow, htrees⟩ := nests_iff.mp hnests
    constructor
    · intro x hx
      obtain ⟨u, hu, rfl⟩ := Forest.mem_preorder_iff.mp hx
      refine ⟨(htrees u hu).1, ?_⟩
      rcases Forest.root_or_child hx with hroot | ⟨t, ht, hchild⟩
      · exact ⟨p, parent?_of_root h hroot, hrow.1 _ hroot⟩
      · exact ⟨t.label, parent?_of_root (describes_tree h ht) hchild, (htrees t ht).2.1 _ hchild⟩
    · rw [← Forest.map_label_trees, List.pairwise_map]
      refine (pairwise_trees hnests).imp_of_mem fun {t u} ht _ hpair hsame => ?_
      rcases hpair with ⟨hbelow, -⟩ | hbehind
      · exact absurd hsame (parent?_ne_below h hnd ht (Forest.label_mem hbelow))
      · exact hbehind
  · rintro ⟨hseated, hpairs⟩
    -- the pairs of a row have one parent
    have hrow {q : NodeId} {row : List NodeId} (hsub : row.Sublist f.preorder)
        (hparent : ∀ x ∈ row, parent? view? x = some q) :
        RowFits (spanOf view?) (spanOf view? q) row := by
      refine ⟨fun x hx => ?_, (hpairs.sublist hsub).imp_of_mem fun hx hy hpair => ?_⟩
      · obtain ⟨-, r, hr, hcontains⟩ := hseated x (hsub.subset hx)
        cases (hparent x hx).symm.trans hr
        exact hcontains
      · exact hpair ((hparent _ hx).trans (hparent _ hy).symm)
    refine nests_iff.mpr ⟨hp, hrow (Forest.labels_sublist f) fun x hx => parent?_of_root h hx,
      fun t ht => ⟨(hseated _ (Forest.label_mem ht)).1, ?_⟩⟩
    exact hrow (Forest.children_sublist ht) fun x hx => parent?_of_root (describes_tree h ht) hx

end Describes

/-! ## Trees of views -/

/-- The links of the views make the tree of `f` under the node `top`. -/
structure Planted (view? : NodeId → Option NodeView) (top : NodeId) (f : Forest NodeId) : Prop where
  distinct : (top :: f.preorder).Nodup
  links : Describes (fun x => (view? x).map (·.links)) top none f
  ends : (view? top).map (·.links) =
    some { firstChild := f.labels.head?, lastChild := f.labels.getLast? }

theorem preorder_shape (doc : Document) :
    doc.markup.shape.preorder = doc.descendants rootId := by
  rw [descendants, below, if_pos rfl]
  exact Forest.preorder_map _ _

/-- The nodes of a document make one tree if they have numbers of their own. -/
theorem Rooted.planted {doc : Document} (h : doc.Rooted) :
    Planted doc.view? rootId doc.markup.shape where
  distinct := by
    rw [show doc.markup.shape.preorder = doc.markup.ids from Forest.preorder_map _ _]
    exact h
  links := h.links.1
  ends := h.links.2

namespace Planted

/-- The nodes that an arena finds below the top are those of the forest. -/
theorem descendants_eq {a : Arena} {top : NodeId} (h : Planted a.view? top f) :
    a.descendants top = f.preorder := by
  have hlinks : ∀ x l, (a.view? x).map (·.links) = some l → a.links x = l := fun x l hx => by
    obtain ⟨v, hv, rfl⟩ := Option.map_eq_some_iff.mp hx
    obtain ⟨s, hs, rfl⟩ := Option.map_eq_some_iff.mp hv
    rw [Arena.links, hs]
    rfl
  have hholds := Arena.holds_of_describes hlinks h.links
  have hlast : (a.links top).lastChild = f.labels.getLast? := by rw [hlinks top _ h.ends]
  rw [Option.or_none, ← hlast] at hholds
  rw [Arena.descendants, hholds.below_eq (List.nodup_cons.mp h.distinct).2 fun x hx => ?_]
  obtain ⟨q, -, hq⟩ := parent?_mem h.links hx
  obtain ⟨v, hv, -⟩ := Option.bind_eq_some_iff.mp hq
  obtain ⟨s, hs, -⟩ := Option.map_eq_some_iff.mp hv
  exact (Array.getElem?_eq_some_iff.mp hs).1

/-- What the check finds in the nodes under a node over `length` characters, whatever these are; it
goes through those of a document, and those of an arena, in this order.  It finds nothing exactly if
every node is an element, ordered and in its parent, and of any two children of one node the earlier
one ends before the later one starts.  Then every element lies within the `length` characters, and
of any two elements the earlier one ends before the later one starts, or is above it and holds its
span. -/
theorem firstFlaw?_answer {length : Nat} (h : Planted view? rootId f)
    (hspan : spanOf view? rootId = ⟨0, length⟩) :
    ((∀ doc : Document, doc.view? = view? → doc.markup.shape = f →
        doc.flaw? = firstFlaw? view? f.preorder) ∧
      ∀ a : Arena, a.view? = view? → a.descendants rootId = f.preorder) ∧
    (firstFlaw? view? f.preorder = none ↔
      (∀ x ∈ f.preorder, IsElement view? x ∧ Seated view? x) ∧
        f.preorder.Pairwise fun x y => parent? view? x = parent? view? y →
          (spanOf view? x).stop ≤ (spanOf view? y).start) ∧
    (firstFlaw? view? f.preorder = none →
      (∀ x ∈ f.preorder, (spanOf view? x).stop ≤ length) ∧
        f.preorder.Pairwise fun x y =>
          (Above view? x y ∧ (spanOf view? x).contains (spanOf view? y) = true) ∨
            (spanOf view? x).stop ≤ (spanOf view? y).start) := by
  have hord : (spanOf view? rootId).start ≤ (spanOf view? rootId).stop := by
    rw [hspan]
    exact Nat.zero_le length
  have hclean : firstFlaw? view? f.preorder = none ↔ (∀ x ∈ f.preorder, IsElement view? x) ∧
      Nests (spanOf view? rootId).start (spanOf view? rootId).stop (spanned (spanOf view?) f) := by
    rw [firstFlaw?, List.findSome?_eq_none_iff]
    exact row_flawless_iff h.links (Nat.le_refl _) hord rfl
  refine ⟨⟨fun doc hview hshape => ?_, fun a hview => ?_⟩, ?_, ?_⟩
  · rw [flaw?, hview, ← hshape, preorder_shape]
  · subst hview
    exact h.descendants_eq
  · rw [hclean, nests_iff_pairs h.links h.distinct hord]
    constructor
    · rintro ⟨helements, hseated, hpairs⟩
      exact ⟨fun x hx => ⟨helements x hx, hseated x hx⟩, hpairs⟩
    · rintro ⟨hnodes, hpairs⟩
      exact ⟨fun x hx => (hnodes x hx).1, fun x hx => (hnodes x hx).2, hpairs⟩
  · intro hflaw
    have hnests := (hclean.mp hflaw).2
    constructor
    · intro x hx
      have hstop := (spanned_bounds hnests hx).2
      rwa [hspan] at hstop
    · rw [← Forest.map_label_trees, List.pairwise_map]
      refine (pairwise_trees hnests).imp_of_mem fun {t u} ht _ hpair => ?_
      rcases hpair with ⟨hbelow, hcontains⟩ | hbehind
      · exact .inl ⟨above_of_mem (describes_tree h.links ht) (Forest.label_mem hbelow), hcontains⟩
      · exact .inr hbehind

/-- A document in which markers without width stand at both ends of an element, and an arena with a
node that is no element. -/
theorem firstFlaw?_answer_markers :
    let doc : Document :=
      { text := "abcdef", names := {}, next := 8
        markup :=
          .node ⟨⟨"m", ⟨0, 0⟩, {}⟩, 5⟩ .nil (.node ⟨⟨"s", ⟨0, 4⟩, {}⟩, 3⟩
            (.node ⟨⟨"w", ⟨1, 4⟩, {}⟩, 1⟩ .nil (.node ⟨⟨"m", ⟨4, 4⟩, {}⟩, 7⟩ .nil .nil))
            (.node ⟨⟨"m", ⟨4, 4⟩, {}⟩, 2⟩ .nil .nil)) }
    let a : Arena := (({} : Arena).allocDocument 6).1
    let a : Arena := (((a.allocElement "s" ⟨0, 4⟩).1.allocDocument 2).1.append 0 1).append 1 2
    (doc.Rooted ∧ doc.flaw? = none ∧ (doc.descendants rootId).Pairwise fun x y =>
        (Above doc.view? x y ∧ (spanOf doc.view? x).contains (spanOf doc.view? y) = true) ∨
          (spanOf doc.view? x).stop ≤ (spanOf doc.view? y).start) ∧
      Planted a.view? rootId (.node 1 (.node 2 .nil .nil) .nil) ∧
        firstFlaw? a.view? (a.descendants rootId) ≠ none := by
  intro doc a₁ a
  have hrooted : doc.Rooted := by decide +kernel
  have hflaw : doc.flaw? = none := by decide +kernel
  have hplanted : Planted a.view? rootId (.node 1 (.node 2 .nil .nil) .nil) :=
    ⟨by decide, by decide +kernel, by decide +kernel⟩
  refine ⟨⟨hrooted, hflaw, ?_⟩, hplanted, fun hnone => ?_⟩
  · have hspan : spanOf doc.view? rootId = ⟨0, 6⟩ := by decide +kernel
    obtain ⟨⟨hcheck, -⟩, -, hclean⟩ := hrooted.planted.firstFlaw?_answer hspan
    rw [← preorder_shape]
    exact (hclean ((hcheck doc rfl rfl).symm.trans hflaw)).2
  · have hspan : spanOf a.view? rootId = ⟨0, 6⟩ := by decide +kernel
    obtain ⟨⟨-, horder⟩, hiff, -⟩ := hplanted.firstFlaw?_answer hspan
    rw [horder a rfl] at hnone
    obtain ⟨⟨v, hv, hkind⟩, -⟩ := (hiff.mp hnone).1 2 (by decide)
    have hdocument : (a.view? 2).map (·.kind) = some .document := by decide +kernel
    rw [hv, Option.map_some, hkind] at hdocument
    cases hdocument

end Planted

end Document

end Standoff
