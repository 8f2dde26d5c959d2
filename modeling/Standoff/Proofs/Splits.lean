import Standoff.Proofs.Cuts

/-!
# The cut of an element

An element that is cut at a position inside it leaves two elements: the left half, which keeps its
number, and the right half.  What is below it is sorted by where it lies:

    around the position       it is cut, too, and has a half on each side
    before it                 it stays
    behind it                 it goes below the right half
    at it, and zero-width     it stands between the halves, unless it is below one of the others

* `Document.split`: the document after a cut.
* `Document.SplitAt`: what can be said of it in terms of the document before.
* `Document.WellFormed.split_along_links`: the cut along links is this one.
-/

namespace Standoff

namespace Arena

open Document Markup

variable {a b : Arena} {s t : Family} {row row' : NodeId → List NodeId} {m g : Markup}
  {u : Tree Node} {x pos : NodeId} {doc : Document}

/-- A row list with the nodes of `g` instead of `x`. -/
def splice (x : NodeId) (g : Markup) (l : List NodeId) : List NodeId :=
  l.flatMap fun z => if z = x then rootIds g else [z]

theorem splice_of_not_mem {l : List NodeId} (h : x ∉ l) : splice x g l = l := by
  have hsame : ∀ z ∈ l, (if z = x then rootIds g else [z]) = [z] := fun z hz =>
    if_neg fun heq : z = x => h (heq ▸ hz)
  rw [splice, List.flatMap_congr hsame]
  exact List.flatMap_singleton' l

theorem splice_middle {l₁ l₂ : List NodeId} (h₁ : x ∉ l₁) (h₂ : x ∉ l₂) :
    splice x g (l₁ ++ x :: l₂) = l₁ ++ (rootIds g ++ l₂) := by
  have hsplit : splice x g (l₁ ++ x :: l₂) = splice x g l₁ ++ (rootIds g ++ splice x g l₂) := by
    rw [splice, List.flatMap_append, List.flatMap_cons, if_pos rfl]
    rfl
  rw [hsplit, splice_of_not_mem h₁, splice_of_not_mem h₂]

/-- Another row instead of one tree. -/
theorem Carries.instead (h : a.Carries row m) (hm : m.ids.Nodup) (hu : m.node? x = some u)
    (hg : b.Carries row' g) (hother : ∀ y ∈ m.ids, y ∉ treeIds u →
      row' y = splice x g (row y) ∧ b.content y = a.content y) :
    b.Carries row' (instead x g m) := by
  have happart {f : Markup} (hf : a.Carries row f) (hx : x ∉ f.ids) (hout : ∀ y ∈ f.ids,
      row' y = splice x g (row y) ∧ b.content y = a.content y) : b.Carries row' f :=
    hf.congr fun y hy => by
      have hrow : x ∉ row y := fun hmem => hx <| by
        rw [← shape_preorder] at hy ⊢
        exact hf.unfolds.row_subset hy hmem
      rw [(hout y hy).1, splice_of_not_mem hrow]
      exact ⟨rfl, (hout y hy).2⟩
  induction m with
  | nil => cases hu
  | node n kids rest ihk ihr =>
    obtain ⟨⟨hnrow, hncontent⟩, hkids, hrest⟩ := h
    obtain ⟨hnk, hnr, hk, hr, hkr⟩ := nodup_node.mp hm
    have hinkids : ∀ y ∈ ids kids, y ∈ ids (.node n kids rest) := fun y hy =>
      ids_tree_subset (List.mem_cons_of_mem _ hy)
    rw [node?_node] at hu
    rw [instead_node]
    split at hu
    · next hn =>
      cases hu
      have hx : x ∉ ids rest := hn ▸ hnr
      rw [if_pos hn, instead_of_not_mem hx]
      refine carries_append.mpr ⟨hg, happart hrest hx fun y hy => hother y (ids_rest_subset hy) ?_⟩
      rw [treeIds_eq, List.mem_cons]
      rintro (rfl | hmem)
      · exact hnr hy
      · exact hkr y hmem hy
    · next hn =>
      rw [if_neg hn]
      have hroot (hout : n.id ∉ treeIds u) : row' n.id = rootIds (Markup.instead x g kids) ∧
          b.content n.id = some (.element, n.toElement) := by
        obtain ⟨h₁, h₂⟩ := hother n.id (by simp) hout
        rw [h₁, hnrow, h₂, rootIds_instead]
        exact ⟨rfl, hncontent⟩
      rcases Option.or_eq_some_iff.mp hu with hu | ⟨hnone, hu⟩
      · have hsub : ∀ y ∈ treeIds u, y ∈ ids kids := fun y => treeIds_subset hu
        have hx : x ∉ ids rest := hkr x (mem_of_node? hu)
        rw [instead_of_not_mem hx]
        exact ⟨hroot fun hmem => hnk (hsub _ hmem),
          ihk hkids hk hu fun y hy => hother y (hinkids y hy),
          happart hrest hx fun y hy =>
            hother y (ids_rest_subset hy) fun hmem => hkr y (hsub y hmem) hy⟩
      · have hsub : ∀ y ∈ treeIds u, y ∈ ids rest := fun y => treeIds_subset hu
        have hx : x ∉ ids kids := node?_eq_none_iff.mp hnone
        have hroot := hroot fun hmem => hnr (hsub _ hmem)
        rw [instead_of_not_mem hx] at hroot ⊢
        exact ⟨hroot, happart hkids hx fun y hy => hother y (hinkids y hy) fun hmem =>
          hkr y hy (hsub y hmem), ihr hrest hr hu fun y hy => hother y (ids_rest_subset hy)⟩

end Arena

namespace Document

open Markup

/-- The document after an element has been cut. -/
def split (doc : Document) (x : NodeId) (pos : Nat) : Document :=
  match doc.markup.node? x with
  | none => doc
  | some t =>
    let d := divide pos (.ofTree t) ⟨doc.next, []⟩
    { doc with markup := instead x d.row doc.markup, next := d.supply.next }

end Document

namespace Arena

open Document Markup

variable {a b : Arena} {s t : Family} {u : Tree Node} {x Q : NodeId} {pos : Nat} {doc : Document}
  {l₁ l₂ : List NodeId}

/-- A cut along links is the cut of the document. -/
theorem Stores.split (h : a.Stores s doc) (hu : doc.markup.node? x = some u)
    (hpos : u.label.span.strictlyContains pos = true) (hrow : s.row Q = l₁ ++ x :: l₂) :
    ∃ b t visits, (∀ fuel, 2 * u.children.size ≤ fuel →
        a.split pos fuel x = some ⟨b, doc.next, visits⟩) ∧
      b.Stores t (doc.split x pos) ∧
      t.row Q = l₁ ++ x :: ((divide pos u.children (Supply.cut ⟨doc.next, []⟩ u.label pos)).lifted.rootIds ++
        doc.next :: l₂) ∧
      Frame a s (Q :: x :: ids u.children) (x :: ids u.children) b t ∧ visits.Nodup := by
  have hpos' := Span.strictlyContains_iff.mp hpos
  have hid := (node?_spec hu).1
  obtain ⟨b, t, visits, hsplit, hfull, hsize, htrow, hcarries, hframe, hnodup, -⟩ :=
    cutsTree pos u.label u.children h.toFull (hid.symm ▸ hrow) (h.carries.tree hu)
      (show (⟨doc.next, []⟩ : Supply).next = _ from h.size.symm)
  obtain ⟨hrowd, hsupply⟩ := row_divide_ofTree hpos' ⟨doc.next, []⟩
  rw [hid, h.size] at hsplit htrow
  rw [hid] at hframe
  rw [h.size, ← hrowd] at hcarries
  have hdoc : doc.split x pos =
      { doc with
        markup := instead x (divide pos (.ofTree u) ⟨doc.next, []⟩).row doc.markup
        next := (divide pos (.ofTree u) ⟨doc.next, []⟩).supply.next } := by
    rw [Document.split, hu]
  have hsplice : ∀ y < doc.next, y ∉ x :: ids u.children →
      t.row y = splice x (divide pos (.ofTree u) ⟨doc.next, []⟩).row (s.row y) := fun y hy hout => by
    by_cases hyQ : y = Q
    · obtain ⟨hx₁, hx₂⟩ := h.sound.not_beside hrow
      have hroots : rootIds (divide pos (.ofTree u) ⟨doc.next, []⟩).row =
          x :: ((divide pos u.children (Supply.cut ⟨doc.next, []⟩ u.label pos)).lifted.rootIds ++
            [doc.next]) := by
        rw [hrowd]
        show u.label.id :: rootIds _ = _
        rw [rootIds_append, hid]
        rfl
      rw [hyQ, htrow, hrow, splice_middle hx₁ hx₂, hroots]
      simp
    · have hx : x ∉ s.row y := fun hmem => hyQ <| Option.some.inj <|
        (h.sound.mem_row.mp hmem).symm.trans
          (h.sound.mem_row.mp (hrow ▸ List.mem_append_right _ (List.mem_cons_self ..)))
      rw [splice_of_not_mem hx]
      exact hframe.row y (h.size.symm ▸ hy) fun hmem => (List.mem_cons.mp hmem).elim hyQ hout
  have hout {y : NodeId} (hy : y ∉ treeIds u) : y ∉ x :: ids u.children := by
    rwa [treeIds_eq, hid] at hy
  have hroot : rootId ∉ treeIds u := fun hmem =>
    (h.mem_ids.mp (treeIds_subset hu hmem)).1 rfl
  have hpos₀ : rootId < doc.next := h.size ▸ h.live_lt h.root_live
  refine ⟨b, t, visits, hsplit, ?_, htrow, hframe, hnodup⟩
  rw [hdoc]
  refine ⟨hfull, hsize.trans (by rw [hsupply]), hframe.names.trans h.names, ?_, ?_, ?_⟩
  · rw [hsplice rootId hpos₀ (hout hroot), h.root, rootIds_instead]
    rfl
  · exact (hframe.content rootId (h.size.symm ▸ hpos₀) (hout hroot)).trans h.whole
  · refine h.carries.instead h.rooted.nodup hu hcarries fun y hy hyu => ?_
    have hlt := (h.mem_ids.mp hy).2
    exact ⟨hsplice y hlt (hout hyu), hframe.content y (h.size.symm ▸ hlt) (hout hyu)⟩

end Arena

namespace Document

open Markup

variable {doc : Document} {x y pos : Nat} {u v : Tree Node} {n : Node}

/-! ## The document after a cut -/

/-- The elements that are cut, in document order: `x` and what is below it and around `pos`. -/
def around (doc : Document) (x : NodeId) (pos : Nat) : List NodeId :=
  (x :: doc.descendants x).filter fun y => (doc.span? y).any (·.strictlyContains pos)

/-- What a node is to the right of the position: a node that is cut is its right half there. -/
def rightOf (doc : Document) (x : NodeId) (pos : Nat) (y : NodeId) : NodeId :=
  if y ∈ doc.around x pos then doc.next + (doc.around x pos).idxOf y else y

/-- What comes to stand between the halves of `x`: the markers at `pos` below it with nothing over
them that is not cut. -/
def atSplit (doc : Document) (x : NodeId) (pos : Nat) : List NodeId :=
  (doc.descendants x).filter fun y => (doc.span? y).any (·.isEmptyAt pos) &&
    (x :: doc.descendants x).all fun z =>
      !decide (y ∈ doc.descendants z) || (doc.span? z).any (·.strictlyContains pos)

/-- What a cut of `x` at `pos` makes of a document. -/
structure SplitAt (doc : Document) (x : NodeId) (pos : Nat) (doc' : Document) : Prop where
  wellFormed : doc'.WellFormed
  text : doc'.text = doc.text
  names : doc'.names = doc.names
  /-- Each cut takes one number. -/
  next : doc'.next = doc.next + (doc.around x pos).length
  halves : ∀ n ∈ doc.markup.preorder, n.id ∈ doc.around x pos →
    n.leftHalf pos ∈ doc'.markup.preorder ∧
      n.rightHalf pos (doc.rightOf x pos n.id) ∈ doc'.markup.preorder
  whole : ∀ n ∈ doc.markup.preorder, n.id ∉ doc.around x pos → n ∈ doc'.markup.preorder
  /-- The row of `x`. -/
  row : ∀ p l₁ l₂, doc.children p = l₁ ++ x :: l₂ →
    doc'.children p = l₁ ++ x :: (doc.atSplit x pos ++ doc.rightOf x pos x :: l₂)
  /-- The rows of left halves. -/
  left : ∀ z ∈ doc.around x pos, doc'.children z =
    (doc.children z).filter fun c => (doc.span? c).any fun s => decide (s.start < pos)
  /-- The rows of right halves. -/
  right : ∀ z ∈ doc.around x pos, doc'.children (doc.rightOf x pos z) =
    ((doc.children z).filter fun c => (doc.span? c).any fun s => decide (pos < s.stop)).map
      (doc.rightOf x pos)
  /-- All other rows. -/
  others : ∀ y < doc.next, y ∉ doc.around x pos → x ∉ doc.children y →
    doc'.children y = doc.children y
  below : ∀ y ∈ doc.descendants x, y ∉ doc.around x pos → doc'.below y = doc.below y
  /-- What is cut is on both sides. -/
  twice : ∀ y ∈ doc.descendants x, y ∈ doc.around x pos →
    y ∈ doc'.descendants x ∧ doc.rightOf x pos y ∈ doc'.descendants (doc.rightOf x pos x)
  /-- What is not cut is on one side, or between the halves. -/
  sides : ∀ y ∈ doc.descendants x, y ∉ doc.around x pos → ∃ s, doc.span? y = some s ∧
    ((y ∈ doc'.descendants x ∧ s.stop ≤ pos) ∨
      (y ∈ doc'.descendants (doc.rightOf x pos x) ∧ pos ≤ s.start) ∨
      ∃ z ∈ doc.atSplit x pos, (y = z ∨ y ∈ doc'.descendants z) ∧ s.start = pos ∧ s.stop = pos)
  /-- Nothing is lost, comes twice or changes places. -/
  order : (doc'.descendants rootId).filter (fun y => decide (y < doc.next)) =
    doc.descendants rootId

theorem split_eq (hu : doc.markup.node? x = some u) (pos : Nat) : doc.split x pos =
    { doc with
      markup := instead x (divide pos (.ofTree u) ⟨doc.next, []⟩).row doc.markup
      next := (divide pos (.ofTree u) ⟨doc.next, []⟩).supply.next } := by
  rw [split, hu]

theorem WellFormed.span?_of_node (h : doc.WellFormed) (hn : n ∈ doc.markup.preorder) :
    doc.span? n.id = some n.span := by
  have hne : n.id ≠ rootId := fun heq => h.rootId_not_mem (heq ▸ id_mem_ids hn)
  exact (h.span?_eq_some hne).mpr ⟨n, hn, rfl, rfl⟩

section Split

variable (h : doc.WellFormed) (hu : doc.markup.node? x = some u)
include h hu

namespace WellFormed

theorem below_of_node? : doc.below x = u.children := by
  have hne : x ≠ rootId := fun heq => h.rootId_not_mem (heq ▸ mem_of_node? hu)
  rw [below, if_neg hne, hu]

theorem descendants_of_node? : x :: doc.descendants x = ids (.ofTree u) := by
  rw [descendants, h.below_of_node? hu, ← treeIds, treeIds_eq, (node?_spec hu).1]

omit h in
theorem tree_mem (hv : v ∈ (Forest.ofTree u).trees) : v ∈ doc.markup.trees := by
  have hmem := mem_trees_of_node? hu
  rw [Forest.ofTree, Forest.trees_node, List.mem_cons, List.mem_append] at hv
  rcases hv with rfl | hv | hv
  · exact hmem
  · exact Forest.trees_below hmem hv
  · cases hv

theorem nodup_ofTree : (ids (.ofTree u)).Nodup := nodup_treeIds h.nodup hu

theorem nests_ofTree : Nests u.label.span.start u.label.span.stop (.ofTree u) :=
  Markup.nests_ofTree (nests_children h.nests hu)

theorem around_eq (pos : Nat) : doc.around x pos = (holding pos (.ofTree u)).map (·.id) := by
  rw [around, h.descendants_of_node? hu, ids, List.filter_map, holding]
  refine congrArg _ (List.filter_congr fun n hn => ?_)
  obtain ⟨v, hv, rfl⟩ := Forest.mem_preorder_iff.mp hn
  simp [h.span?_of_node (Forest.label_mem (tree_mem hu hv))]

theorem mem_around (hv : v ∈ (Forest.ofTree u).trees) :
    v.label.id ∈ doc.around x pos ↔ v.label.span.strictlyContains pos = true := by
  have hmem : v.label.id ∈ x :: doc.descendants x :=
    h.descendants_of_node? hu ▸ id_mem_ids (Forest.label_mem hv)
  rw [around, List.mem_filter, h.span?_of_node (Forest.label_mem (tree_mem hu hv))]
  simp [hmem]

/-- A node has the number of its place among the nodes that are cut. -/
theorem rightOf_eq {front back : List Node}
    (hholding : holding pos (.ofTree u) = front ++ n :: back) :
    doc.rightOf x pos n.id = doc.next + front.length := by
  have hsub : (doc.around x pos).Sublist (ids (.ofTree u)) :=
    h.descendants_of_node? hu ▸ List.filter_sublist
  have hnodup := (h.nodup_ofTree hu).sublist hsub
  rw [h.around_eq hu, hholding, List.map_append, List.map_cons] at hnodup
  have hout : n.id ∉ front.map (·.id) := (not_mem_sides hnodup).1
  have hidx : (doc.around x pos).idxOf n.id = front.length := by
    rw [h.around_eq hu, hholding, List.map_append, List.map_cons,
      List.idxOf_append_of_notMem hout, List.idxOf_cons_self, List.length_map, Nat.add_zero]
  have hmem : n.id ∈ doc.around x pos := by
    rw [h.around_eq hu, hholding]
    simp
  rw [rightOf, if_pos hmem, hidx]

theorem rightOf_of_whole (hv : v ∈ (Forest.ofTree u).trees)
    (hwhole : ¬ v.label.span.strictlyContains pos = true) :
    doc.rightOf x pos v.label.id = v.label.id := by
  rw [rightOf, if_neg fun hmem => hwhole ((h.mem_around hu hv).mp hmem)]

/-- The markers between the halves are those of the division. -/
theorem atSplit_eq (hpos : u.label.span.strictlyContains pos = true) :
    doc.atSplit x pos = (between pos u.children).map (·.id) := by
  have hkids : ids u.children = u.children.preorder.map (·.id) := rfl
  have htrees : x :: doc.descendants x = (Forest.ofTree u).trees.map fun v => v.label.id := by
    rw [h.descendants_of_node? hu, ids, ← Forest.map_label_trees, List.map_map]
    rfl
  have hnodup := h.nodup_ofTree hu
  rw [atSplit, htrees, descendants, h.below_of_node? hu, hkids, List.filter_map, between]
  refine congrArg _ (List.filter_congr fun n hn => ?_)
  have hmem := Forest.preorder_below (mem_trees_of_node? hu) hn
  have hbelow {v : Tree Node} (hv : v ∈ doc.markup.trees) :
      n.id ∈ doc.descendants v.label.id ↔ n ∈ v.children.preorder := by
    rw [h.rooted.mem_descendants hv]
    refine ⟨fun hid => ?_, id_mem_ids⟩
    obtain ⟨k, hk, heq⟩ := mem_ids.mp hid
    rwa [← List.inj_on_of_nodup_map h.nodup (Forest.preorder_below hv hk) hmem heq]
  have hall : ((Forest.ofTree u).trees.map fun v => v.label.id).all (fun z =>
      !decide (n.id ∈ doc.descendants z) || (doc.span? z).any (·.strictlyContains pos)) =
      u.children.trees.all fun v =>
        !decide (n ∈ v.children.preorder) || v.label.span.strictlyContains pos := by
    rw [Bool.eq_iff_iff, List.all_map, List.all_eq_true, List.all_eq_true, Forest.ofTree,
      Forest.trees_node, List.forall_mem_cons, Forest.trees, List.append_nil]
    have hspan {v : Tree Node} (hv : v ∈ doc.markup.trees) :=
      h.span?_of_node (Forest.label_mem hv)
    have htop := mem_trees_of_node? hu
    refine (and_iff_right ?_).trans (forall₂_congr fun v hv => ?_)
    · simp [hspan htop, hpos]
    · have hv := Forest.trees_below htop hv
      simp [hspan hv, hbelow hv]
  simp only [Function.comp_apply, hall, h.span?_of_node hmem, Option.any_some]

variable (hpos : u.label.span.strictlyContains pos = true)
include hpos

theorem split : (doc.split x pos).WellFormed := by
  have hpos' := Span.strictlyContains_iff.mp hpos
  have hle := divide_le pos (.ofTree u) ⟨doc.next, []⟩
  obtain ⟨front, back, hfront, hback⟩ := preorder_instead h.nodup hu
  rw [split_eq hu]
  refine ⟨h.nests.instead h.nodup hu ((h.nests_ofTree hu).row_divide (Nat.le_of_lt hpos'.1)
    (Nat.le_of_lt hpos'.2) _), Nat.le_trans h.pos hle.next, fun y => ?_⟩
  have hcount := count_ids_divide pos (.ofTree u) ⟨doc.next, []⟩ y
  have hnumbered := h.numbered y
  have hadd := Supply.taken_add (.of_cuts h.pos rfl : (⟨1, []⟩ : Supply).Le ⟨doc.next, []⟩) hle y
  rw [ids, hfront] at hnumbered
  rw [ids, hback]
  simp only [ids, List.map_append, List.count_append] at hcount hnumbered ⊢
  show _ = Supply.taken ⟨1, []⟩ (divide pos (.ofTree u) ⟨doc.next, []⟩).supply y
  omega

omit h hpos in
/-- What comes out of the division of a tree is part of the document. -/
theorem trees_split {g : Tree Node}
    (hg : g ∈ (divide pos (.ofTree u) ⟨doc.next, []⟩).row.trees) :
    g ∈ (doc.split x pos).markup.trees := by
  rw [split_eq hu]
  exact trees_instead (mem_of_node? hu) hg

/-- The halves of a tree that is cut. -/
theorem halves_split (hv : v ∈ (Forest.ofTree u).trees)
    (hcut : v.label.span.strictlyContains pos = true) :
    ∃ (front back : List Node) (s : Supply),
      holding pos (.ofTree u) = front ++ v.label :: (holding pos v.children ++ back) ∧
      s.next = doc.next + front.length ∧
      (doc.split x pos).below v.label.id =
        (divide pos v.children (s.cut v.label pos)).left ∧
      (doc.split x pos).below (doc.rightOf x pos v.label.id) =
        (divide pos v.children (s.cut v.label pos)).right ∧
      v.label.leftHalf pos ∈ (doc.split x pos).markup.preorder ∧
      v.label.rightHalf pos (doc.rightOf x pos v.label.id) ∈
        (doc.split x pos).markup.preorder := by
  obtain ⟨front, back, s, hholding, hnext, hleft, hright⟩ :=
    trees_divide (h.nests_ofTree hu) hv hcut ⟨doc.next, []⟩
  have hnumber := h.rightOf_eq hu hholding
  have htree {g : Tree Node} (hg : g ∈ (divide pos (.ofTree u) ⟨doc.next, []⟩).row.trees) :=
    trees_split hu hg
  have hleft' := htree (g := ⟨_, _⟩)
    (by rw [Division.row, Forest.trees_append, Forest.trees_append]
        exact List.mem_append_left _ (List.mem_append_left _ hleft))
  have hright' := htree (g := ⟨_, _⟩)
    (by rw [Division.row, Forest.trees_append]
        exact List.mem_append_right _ hright)
  have hrooted := (h.split hu hpos).rooted
  have hright₁ := hrooted.below_of_tree hright'
  have hright₂ := Forest.label_mem hright'
  simp only [Node.rightHalf] at hright₁
  rw [hnext] at hright₁ hright₂
  rw [hnumber]
  exact ⟨front, back, s, hholding, hnext, hrooted.below_of_tree hleft', hright₁,
    Forest.label_mem hleft', hright₂⟩

/-- A tree that is not cut stays whole. -/
theorem below_split (hv : v ∈ (Forest.ofTree u).trees)
    (hwhole : ¬ v.label.span.strictlyContains pos = true) :
    v ∈ (doc.split x pos).markup.trees ∧ (doc.split x pos).below v.label.id = v.children := by
  rw [Span.strictlyContains_iff] at hwhole
  have hmem : v ∈ (doc.split x pos).markup.trees := by
    refine trees_split hu ?_
    rw [Division.row, Forest.trees_append, Forest.trees_append, List.mem_append, List.mem_append,
      or_assoc]
    exact tree_divide hv hwhole
  exact ⟨hmem, (h.split hu hpos).rooted.below_of_tree hmem⟩

omit hpos in
/-- The tree of an element that is cut. -/
theorem exists_around {z : NodeId} (hz : z ∈ doc.around x pos) :
    ∃ v ∈ (Forest.ofTree u).trees, v.label.id = z ∧ v.label.span.strictlyContains pos = true := by
  rw [h.around_eq hu, List.mem_map] at hz
  obtain ⟨n, hn, rfl⟩ := hz
  obtain ⟨hn, hcut⟩ := List.mem_filter.mp hn
  obtain ⟨v, hv, rfl⟩ := Forest.mem_preorder_iff.mp hn
  exact ⟨v, hv, rfl, hcut⟩

omit h hu hpos in
theorem child_mem (hv : v ∈ (Forest.ofTree u).trees) (hn : n ∈ v.children.labels) :
    ∃ w ∈ (Forest.ofTree u).trees, w.label = n :=
  Forest.mem_preorder_iff.mp (Forest.preorder_below hv (Forest.labels_subset_preorder hn))

omit hpos in
/-- The children of a tree whose spans pass a test. -/
theorem filter_children (hv : v ∈ (Forest.ofTree u).trees) (p : Span → Bool) :
    (doc.children v.label.id).filter (fun c => (doc.span? c).any p) =
      (v.children.labels.filter fun n => p n.span).map (·.id) := by
  rw [children, h.rooted.below_of_tree (tree_mem hu hv), rootIds, List.filter_map]
  refine congrArg _ (List.filter_congr fun n hn => ?_)
  obtain ⟨w, hw, rfl⟩ := child_mem hv hn
  simp [h.span?_of_node (Forest.label_mem (tree_mem hu hw))]

theorem left_split {z : NodeId} (hz : z ∈ doc.around x pos) :
    (doc.split x pos).children z =
      (doc.children z).filter fun c => (doc.span? c).any fun s => decide (s.start < pos) := by
  obtain ⟨v, hv, rfl, hcut⟩ := h.exists_around hu hz
  obtain ⟨-, -, s, -, -, hleft, -⟩ := h.halves_split hu hpos hv hcut
  rw [h.filter_children hu hv, children, hleft, rootIds_left]

theorem right_split {z : NodeId} (hz : z ∈ doc.around x pos) :
    (doc.split x pos).children (doc.rightOf x pos z) =
      ((doc.children z).filter fun c => (doc.span? c).any fun s => decide (pos < s.stop)).map
        (doc.rightOf x pos) := by
  obtain ⟨v, hv, rfl, hcut⟩ := h.exists_around hu hz
  obtain ⟨front, back, s, hholding, hnext, -, hright, -⟩ := h.halves_split hu hpos hv hcut
  have hkids := (h.nests_ofTree hu).children hv
  rw [h.filter_children hu hv fun s => decide (pos < s.stop), children, hright,
    rootIds_right hkids, List.map_map]
  refine List.map_congr_left fun n hn => ?_
  have hn := (List.mem_filter.mp hn).1
  obtain ⟨w, hw, rfl⟩ := child_mem hv hn
  rw [Function.comp_apply]
  split
  · next hpos =>
    -- a child that is cut takes the number after that of its parent
    obtain ⟨back', hback'⟩ := holding_of_label hkids hn hpos
    rw [hback'] at hholding
    have hsplit : holding pos (.ofTree u) = (front ++ [v.label]) ++ w.label :: (back' ++ back) := by
      rw [hholding]
      simp
    rw [h.rightOf_eq hu hsplit, List.length_append]
    show s.next + 1 = _
    rw [hnext]
    rfl
  · next hpos => rw [h.rightOf_of_whole hu hw hpos]

theorem whole_split (hn : n ∈ doc.markup.preorder) (hout : n.id ∉ doc.around x pos) :
    n ∈ (doc.split x pos).markup.preorder := by
  obtain ⟨front, back, hfront, hback⟩ := preorder_instead h.nodup hu
  rw [hfront, List.mem_append, List.mem_append] at hn
  rcases hn with hn | hn | hn
  · rw [split_eq hu, hback]
    exact List.mem_append_left _ hn
  · obtain ⟨v, hv, rfl⟩ := Forest.mem_preorder_iff.mp hn
    exact Forest.label_mem (h.below_split hu hpos hv fun hcut =>
      hout ((h.mem_around hu hv).mpr hcut)).1
  · rw [split_eq hu, hback]
    exact List.mem_append_right _ (List.mem_append_right _ hn)

omit hpos in
/-- An element that is cut, looked up by its number. -/
theorem tree_of_around (hn : n ∈ doc.markup.preorder) (hin : n.id ∈ doc.around x pos) :
    ∃ v ∈ (Forest.ofTree u).trees, v.label = n ∧ v.label.span.strictlyContains pos = true := by
  obtain ⟨v, hv, hid, hcut⟩ := h.exists_around hu hin
  exact ⟨v, hv, List.inj_on_of_nodup_map h.nodup (Forest.label_mem (tree_mem hu hv)) hn hid, hcut⟩

omit hpos in
/-- What is below `x` is part of its tree. -/
theorem tree_of_descendant {y : NodeId} (hy : y ∈ doc.descendants x) :
    ∃ v ∈ u.children.trees, v ∈ (Forest.ofTree u).trees ∧ v.label.id = y := by
  rw [descendants, h.below_of_node? hu] at hy
  obtain ⟨n, hn, rfl⟩ := mem_ids.mp hy
  obtain ⟨v, hv, rfl⟩ := Forest.mem_preorder_iff.mp hn
  exact ⟨v, hv, by simp [Forest.ofTree, Forest.trees, hv], rfl⟩

omit hpos in
theorem order_split : ((doc.split x pos).descendants rootId).filter (fun y => decide (y < doc.next)) =
    doc.descendants rootId := by
  obtain ⟨front, back, hfront, hback⟩ := preorder_instead h.nodup hu
  have hlt {n : Node} (hn : n ∈ doc.markup.preorder) : n.id < doc.next :=
    (h.mem_ids_iff.mp (id_mem_ids hn)).2
  have hold {l : List Node} (hl : l ⊆ doc.markup.preorder) :
      (l.map (·.id)).filter (fun y => decide (y < doc.next)) = l.map (·.id) :=
    List.filter_eq_self.mpr fun y hy => by
      obtain ⟨n, hn, rfl⟩ := List.mem_map.mp hy
      exact decide_eq_true (hlt (hl hn))
  have hseen := seen_divide (q := fun y => decide (y < doc.next)) (s := ⟨doc.next, []⟩) pos
    (h.nests_ofTree hu) fun y hy => of_decide_eq_true hy
  rw [← List.append_assoc, ← seen_append, ← seen_append, ← Division.row] at hseen
  have hids (d : Document) : d.descendants rootId = d.markup.preorder.map (·.id) := by
    rw [descendants, below, if_pos rfl, ids]
  rw [hids, hids, split_eq hu, hback, hfront]
  simp only [List.map_append, List.filter_append]
  rw [hold fun n hn => hfront ▸ List.mem_append_left _ hn,
    hold fun n hn => hfront ▸ List.mem_append_right _ (List.mem_append_right _ hn)]
  refine congrArg _ (congrArg (· ++ _) (hseen.trans (hold fun n hn => ?_)))
  exact hfront ▸ List.mem_append_right _ (List.mem_append_left _ hn)

/-- What is below the halves of `x`, and what stands between them. -/
theorem top_split : doc.rightOf x pos x = doc.next ∧
    (doc.split x pos).below x =
      (divide pos u.children (Supply.cut ⟨doc.next, []⟩ u.label pos)).left ∧
    (doc.split x pos).below doc.next =
      (divide pos u.children (Supply.cut ⟨doc.next, []⟩ u.label pos)).right ∧
    ∀ g ∈ (divide pos u.children (Supply.cut ⟨doc.next, []⟩ u.label pos)).lifted.trees,
      g ∈ (doc.split x pos).markup.trees := by
  have hid := (node?_spec hu).1
  have hholding : holding pos (.ofTree u) = [] ++ u.label :: (holding pos u.children ++ []) := by
    rw [Forest.ofTree, holding_node, if_pos hpos]
    rfl
  have hrow := (row_divide_ofTree (Span.strictlyContains_iff.mp hpos) ⟨doc.next, []⟩).1
  have hrooted := (h.split hu hpos).rooted
  have hmem {g : Tree Node} (hg : g ∈ (divide pos (.ofTree u) ⟨doc.next, []⟩).row.trees) :=
    trees_split hu hg
  simp only [hrow, Forest.trees_node, Forest.trees_append, List.mem_cons, List.mem_append] at hmem
  refine ⟨hid ▸ h.rightOf_eq hu hholding, ?_, ?_, fun g hg => hmem (.inr (.inr (.inl hg)))⟩
  · have hbelow := hrooted.below_of_tree (hmem (.inl rfl))
    simp only [Node.leftHalf] at hbelow
    rwa [hid] at hbelow
  · exact hrooted.below_of_tree (hmem (.inr (.inr (.inr (.inl rfl)))))

theorem twice_split {y : NodeId} (hy : y ∈ doc.descendants x) (hin : y ∈ doc.around x pos) :
    y ∈ (doc.split x pos).descendants x ∧
      doc.rightOf x pos y ∈ (doc.split x pos).descendants (doc.rightOf x pos x) := by
  obtain ⟨v, hv, hvu, rfl⟩ := h.tree_of_descendant hu hy
  have hcut := (h.mem_around hu hvu).mp hin
  obtain ⟨hself, hbelow, hbelow', -⟩ := h.top_split hu hpos
  obtain ⟨front, back, s, hholding, hnext, hleft, hright⟩ :=
    trees_divide (nests_children h.nests hu) hv hcut (Supply.cut ⟨doc.next, []⟩ u.label pos)
  have hleft := id_mem_ids (Forest.label_mem hleft)
  have hright := id_mem_ids (Forest.label_mem hright)
  have hnumber : doc.rightOf x pos v.label.id = s.next := by
    have hsplit : holding pos (.ofTree u) =
        (u.label :: front) ++ v.label :: (holding pos v.children ++ back) := by
      rw [Forest.ofTree, holding_node, if_pos hpos, hholding]
      simp [holding]
    rw [h.rightOf_eq hu hsplit, hnext]
    exact (Nat.add_right_comm doc.next 1 front.length).symm
  rw [descendants, hbelow, descendants, hself, hbelow', hnumber]
  exact ⟨hleft, hright⟩

theorem sides_split {y : NodeId} (hy : y ∈ doc.descendants x) (hout : y ∉ doc.around x pos) :
    ∃ s, doc.span? y = some s ∧ ((y ∈ (doc.split x pos).descendants x ∧ s.stop ≤ pos) ∨
      (y ∈ (doc.split x pos).descendants (doc.rightOf x pos x) ∧ pos ≤ s.start) ∨
      ∃ z ∈ doc.atSplit x pos, (y = z ∨ y ∈ (doc.split x pos).descendants z) ∧
        s.start = pos ∧ s.stop = pos) := by
  obtain ⟨v, hv, hvu, rfl⟩ := h.tree_of_descendant hu hy
  have hpos' := Span.strictlyContains_iff.mp hpos
  have hwhole := fun hcut => hout ((h.mem_around hu hvu).mpr hcut)
  rw [Span.strictlyContains_iff] at hwhole
  obtain ⟨hself, hbelow, hbelow', hmarkers⟩ := h.top_split hu hpos
  obtain ⟨hleft, hlifted, hright⟩ := (nests_children h.nests hu).divide (Nat.le_of_lt hpos'.1)
    (Nat.le_of_lt hpos'.2) (Supply.cut ⟨doc.next, []⟩ u.label pos)
  refine ⟨v.label.span, h.span?_of_node (Forest.label_mem (tree_mem hu hvu)), ?_⟩
  rw [descendants, hbelow, descendants, hself, hbelow']
  rcases tree_divide (s := Supply.cut ⟨doc.next, []⟩ u.label pos) hv hwhole with hmem | hmem | hmem
  · have hmem := Forest.label_mem hmem
    exact .inl ⟨id_mem_ids hmem, (hleft.bounds hmem).2.2⟩
  · have hmem := Forest.label_mem hmem
    have hspan := hlifted.isEmpty_of_mem hmem
    have hat {n : Node} (hn : n ∈ (divide pos u.children
        (Supply.cut ⟨doc.next, []⟩ u.label pos)).lifted.labels) : n.id ∈ doc.atSplit x pos := by
      have hnodup := (nodup_node.mp (h.nodup_ofTree hu)).2.2.1
      rw [h.atSplit_eq hu hpos, ← rootIds_lifted hnodup]
      exact List.mem_map_of_mem hn
    refine .inr (.inr ?_)
    rcases Forest.root_or_below hmem with hroot | ⟨t, ht, hroot, hbelow⟩
    · exact ⟨v.label.id, hat hroot, .inl rfl, hspan⟩
    · refine ⟨t.label.id, hat hroot, .inr ?_, hspan⟩
      exact ((h.split hu hpos).rooted.mem_descendants (hmarkers t ht)).mpr (id_mem_ids hbelow)
  · have hmem := Forest.label_mem hmem
    exact .inr (.inl ⟨id_mem_ids hmem, (hright.bounds hmem).1⟩)

/-- A cut along links, and what it makes of the document. -/
theorem splitAt : doc.SplitAt x pos (doc.split x pos) := by
  have hx : x ∈ doc.around x pos := by
    have hmem : u.label.id ∈ doc.around x pos :=
      (h.mem_around hu (List.mem_cons_self ..)).mpr hpos
    rwa [(node?_spec hu).1] at hmem
  obtain ⟨s, hs⟩ := h.stores
  have hcutrow {p : NodeId} {l₁ l₂ : List NodeId} (hp : doc.children p = l₁ ++ x :: l₂) :
      (doc.split x pos).children p = l₁ ++ x :: (doc.atSplit x pos ++ doc.rightOf x pos x :: l₂) ∧
        ∀ y < doc.next, y ∉ p :: x :: ids u.children →
          (doc.split x pos).children y = doc.children y := by
    obtain ⟨b, t, visits, -, hb, hrow, hframe, -⟩ := hs.split hu hpos ((hs.row_eq p).trans hp)
    have hnodup := (nodup_node.mp (h.nodup_ofTree hu)).2.2.1
    refine ⟨?_, fun y hy hout => ?_⟩
    · rw [← hb.row_eq, hrow, rootIds_lifted hnodup, h.atSplit_eq hu hpos, (h.top_split hu hpos).1]
    · rw [← hb.row_eq, ← hs.row_eq]
      exact hframe.row y (hs.size.symm ▸ hy) hout
  have hbelow {y : NodeId} (hy : y ∈ doc.descendants x) (hout : y ∉ doc.around x pos) :
      (doc.split x pos).below y = doc.below y := by
    obtain ⟨v, -, hv, rfl⟩ := h.tree_of_descendant hu hy
    rw [(h.below_split hu hpos hv fun hcut => hout ((h.mem_around hu hv).mpr hcut)).2,
      h.rooted.below_of_tree (tree_mem hu hv)]
  refine ⟨h.split hu hpos, by rw [split_eq hu], by rw [split_eq hu], ?_, fun n hn hin => ?_,
    fun n => h.whole_split hu hpos, fun p l₁ l₂ hp => (hcutrow hp).1, fun z => h.left_split hu hpos,
    fun z => h.right_split hu hpos, fun y hy hout hrow => ?_, fun y => hbelow,
    fun y => h.twice_split hu hpos, fun y => h.sides_split hu hpos, h.order_split hu⟩
  · rw [split_eq hu, h.around_eq hu, List.length_map]
    exact next_divide (h.nests_ofTree hu) pos ⟨doc.next, []⟩
  · obtain ⟨v, hv, rfl, hcut⟩ := h.tree_of_around hu hn hin
    obtain ⟨-, -, -, -, -, -, -, hhalves⟩ := h.halves_split hu hpos hv hcut
    exact hhalves
  · by_cases hyx : y ∈ doc.descendants x
    · rw [children, children, hbelow hyx hout]
    · obtain ⟨p, l₁, l₂, hp⟩ := hs.exists_row (mem_of_node? hu)
      rw [hs.row_eq] at hp
      refine (hcutrow hp).2 y hy ?_
      rw [descendants, h.below_of_node? hu] at hyx
      simp only [List.mem_cons, not_or]
      refine ⟨?_, ?_, hyx⟩
      · rintro rfl
        exact hrow (hp ▸ List.mem_append_right _ (List.mem_cons_self ..))
      · rintro rfl
        exact hout hx

end WellFormed

end Split

namespace WellFormed

variable (h : doc.WellFormed)
include h

/-- Cutting an element at an offset inside it, link by link, ends in the arena of the document
whose element is cut, and that document is known row by row. -/
theorem split_along_links (hx : x ∈ doc.markup.ids)
    (hpos : (doc.span? x).any (·.strictlyContains pos) = true) :
    (∃ visits, ∀ fuel, 2 * doc.next ≤ fuel → doc.arena.split pos fuel x =
        some ⟨(doc.split x pos).arena, doc.rightOf x pos x, visits⟩) ∧
      x ∈ doc.around x pos ∧ doc.rightOf x pos x = doc.next ∧
      doc.SplitAt x pos (doc.split x pos) := by
  obtain ⟨u, hu⟩ := exists_node? hx
  have hcut : u.label.span.strictlyContains pos = true := by
    rwa [← (node?_spec hu).1, h.span?_of_node (Forest.label_mem (mem_trees_of_node? hu))] at hpos
  obtain ⟨s, hs⟩ := h.stores
  obtain ⟨p, l₁, l₂, hrow⟩ := hs.exists_row hx
  obtain ⟨b, t, visits, hloop, hb, -⟩ := hs.split hu hcut hrow
  have hright := (h.top_split hu hcut).1
  have hsize : u.children.size ≤ doc.next := by
    obtain ⟨front, back, hfront, -⟩ := preorder_instead h.nodup hu
    have hlength := congrArg List.length hfront
    have hcount : Forest.size doc.markup = doc.next - 1 := h.elementCount_eq
    rw [Forest.length_preorder, hcount, List.length_append, List.length_append,
      Forest.length_preorder] at hlength
    have hle : u.children.size ≤ (Forest.ofTree u).size := by
      rw [Forest.ofTree, Forest.size, Forest.size]
      omega
    exact Nat.le_trans hle (Nat.le_trans (hlength ▸ by omega) (Nat.sub_le doc.next 1))
  refine ⟨⟨visits, fun fuel hfuel => ?_⟩, ?_, hright, h.splitAt hu hcut⟩
  · rw [hloop fuel (Nat.le_trans (Nat.mul_le_mul_left 2 hsize) hfuel), hb.eq_arena, hright]
  · rw [around, List.mem_filter]
    exact ⟨List.mem_cons_self .., hpos⟩

omit h in
/-- Around the position there is another element; at it there are two markers, one over a third, and
an element that ends there, and one that starts there. -/
theorem split_along_links_nested :
    let host := Session.apply (ofText "abcdefgh")
      [.addSpan "o" ⟨0, 8⟩, .addSpan "a" ⟨0, 7⟩, .addSpan "b" ⟨1, 6⟩, .addSpan "c" ⟨2, 4⟩,
        .addSpan "m" ⟨4, 4⟩, .addSpan "n" ⟨4, 4⟩, .addSpan "d" ⟨4, 5⟩,
        .insert ⟨"q", ⟨4, 4⟩, {}⟩ [6] .inner]
    host.WellFormed ∧ 2 ∈ host.markup.ids ∧ (host.span? 2).any (·.strictlyContains 4) = true ∧
      host.around 2 4 = [2, 3] ∧ host.atSplit 2 4 = [5, 8] ∧
      (host.split 2 4).children 1 = [2, 5, 8, 9] ∧
      (∃ visits, ∀ fuel, 2 * host.next ≤ fuel → host.arena.split 4 fuel 2 =
        some ⟨(host.split 2 4).arena, host.rightOf 2 4 2, visits⟩) ∧
      host.SplitAt 2 4 (host.split 2 4) := by
  intro host
  have h : host.WellFormed :=
    (Session.wellFormed_apply (wellFormed_ofText "abcdefgh") (by decide +kernel)).1
  have hx : 2 ∈ host.markup.ids := by decide +kernel
  have hpos : (host.span? 2).any (·.strictlyContains 4) = true := by decide +kernel
  obtain ⟨hloop, -, -, hsplit⟩ := h.split_along_links hx hpos
  exact ⟨h, hx, hpos, by decide +kernel, by decide +kernel, by decide +kernel, hloop, hsplit⟩

end WellFormed

end Document

end Standoff
