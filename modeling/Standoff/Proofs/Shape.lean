import Standoff.Document
import Standoff.Proofs.Moves

/-! # The tree that links describe

Views of nodes are computed from the forest of a document by look-up.  If the numbers are distinct,
every look-up finds the place of its node, so the links of all views together describe the forest:

    parent    the node above, or the document node
    first     the first child        last    the last child
    previous  the sibling before     next    the sibling after

* `Describes`: links that describe a row of trees.
* `Markup.describes_of_everywhere`: links that fit at every node do.
* `Markup.wellPlaced_of_nests`: where mark-up nests, so do the spans of linked views.
* `Document.row_flawless_iff`: the check finds nothing where elements nest. -/

namespace Standoff

/-! ## Links -/

/-- The links describe a row of trees below `parent`, with `previous` to its left. -/
def Describes (links : NodeId → Option Links) :
    NodeId → Option NodeId → Forest NodeId → Prop
  | _, _, .nil => True
  | parent, previous, .node x kids rest =>
    links x = some
        { parent := some parent
          firstChild := kids.labels.head?
          lastChild := kids.labels.getLast?
          previous := previous
          next := rest.labels.head? } ∧
      Describes links x none kids ∧ Describes links parent (some x) rest

instance decidableDescribes (links : NodeId → Option Links) :
    (parent : NodeId) → (previous : Option NodeId) → (f : Forest NodeId) →
      Decidable (Describes links parent previous f)
  | _, _, .nil => .isTrue trivial
  | parent, _, .node x kids rest =>
    have := decidableDescribes links x none kids
    have := decidableDescribes links parent (some x) rest
    inferInstanceAs (Decidable (_ ∧ Describes links x none kids ∧
      Describes links parent (some x) rest))

namespace Links

variable {x : NodeId} {xs ys : List NodeId}

theorem after?_append (h : x ∉ xs) : after? x (xs ++ x :: ys) = ys.head? := by
  induction xs with
  | nil => simp [after?]
  | cons a xs ih =>
    rw [List.mem_cons, not_or] at h
    rw [List.cons_append, after?, if_neg fun heq => h.1 heq.symm]
    exact ih h.2

theorem before?_of_not_mem {a : NodeId} (h : x ∉ ys) : before? x (a :: ys) = none := by
  induction ys generalizing a with
  | nil => rfl
  | cons y ys ih =>
    rw [List.mem_cons, not_or] at h
    rw [before?, if_neg fun heq => h.1 heq.symm]
    exact ih h.2

theorem before?_append (h : x ∉ xs) (h' : x ∉ ys) : before? x (xs ++ x :: ys) = xs.getLast? := by
  induction xs with
  | nil => exact before?_of_not_mem h'
  | cons a xs ih =>
    rw [List.mem_cons, not_or] at h
    cases xs with
    | nil =>
      show (if x = x then some a else _) = some a
      rw [if_pos rfl]
    | cons b xs =>
      have hb : b ≠ x := fun heq => h.2 (heq ▸ List.mem_cons_self ..)
      rw [List.cons_append, List.cons_append, before?, if_neg hb, List.getLast?_cons_cons]
      exact ih h.2

end Links

namespace Markup

variable {lo hi : Nat} {m kids rest : Markup} {n : Node} {x y : NodeId}

/-! ## Places -/

/-- `P` holds of every node with its parent, its row and what lies below it; `m` is the end of the
row `row` below `parent`. -/
def Everywhere (P : Option Node → List Node → Node → Markup → Prop) :
    Option Node → List Node → Markup → Prop
  | _, _, .nil => True
  | parent, row, .node n kids rest =>
    P parent row n kids ∧ Everywhere P (some n) kids.labels kids ∧ Everywhere P parent row rest

/-- `P` holds everywhere below the nodes of the row. -/
def EverywhereBelow (P : Option Node → List Node → Node → Markup → Prop) : Markup → Prop
  | .nil => True
  | .node n kids rest => Everywhere P (some n) kids.labels kids ∧ EverywhereBelow P rest

variable {P Q : Option Node → List Node → Node → Markup → Prop} {parent : Option Node}
  {row : List Node}

theorem Everywhere.mono (hPQ : ∀ p r n k, P p r n k → Q p r n k)
    (h : Everywhere P parent row m) : Everywhere Q parent row m := by
  induction m generalizing parent row with
  | nil => exact h
  | node n kids rest ihk ihr => exact ⟨hPQ _ _ _ _ h.1, ihk h.2.1, ihr h.2.2⟩

theorem Everywhere.and (h₁ : Everywhere P parent row m) (h₂ : Everywhere Q parent row m) :
    Everywhere (fun p r n k => P p r n k ∧ Q p r n k) parent row m := by
  induction m generalizing parent row with
  | nil => exact h₁
  | node n kids rest ihk ihr =>
    exact ⟨⟨h₁.1, h₂.1⟩, ihk h₁.2.1 h₂.2.1, ihr h₁.2.2 h₂.2.2⟩

/-- What holds everywhere holds of every node somewhere. -/
theorem Everywhere.at (h : Everywhere P parent row m) (hn : n ∈ m.preorder) :
    ∃ p r kids, P p r n kids := by
  induction m generalizing parent row with
  | nil => cases hn
  | node a kids rest ihk ihr =>
    rw [Forest.preorder_node, List.mem_cons, List.mem_append] at hn
    rcases hn with rfl | hn | hn
    · exact ⟨parent, row, kids, h.1⟩
    · exact ihk h.2.1 hn
    · exact ihr h.2.2 hn

theorem EverywhereBelow.mono (hPQ : ∀ p r n k, P p r n k → Q p r n k)
    (h : EverywhereBelow P m) : EverywhereBelow Q m := by
  induction m with
  | nil => exact h
  | node n kids rest _ ih => exact ⟨h.1.mono hPQ, ih h.2⟩

theorem everywhere_of_below (h : EverywhereBelow P m)
    (hrow : ∀ n kids, n ∈ m.labels → P parent row n kids) : Everywhere P parent row m := by
  induction m with
  | nil => exact h
  | node n kids rest _ ih =>
    exact ⟨hrow n kids (List.mem_cons_self ..), h.1,
      ih h.2 fun a k ha => hrow a k (List.mem_cons_of_mem _ ha)⟩

/-! ## Look-up of places -/

/-- Every node is found over what lies below it. -/
theorem everywhere_node? (hm : m.ids.Nodup) (parent : Option Node) (row : List Node) :
    Everywhere (fun _ _ n kids => m.node? n.id = some ⟨n, kids⟩) parent row m := by
  induction m generalizing parent row with
  | nil => trivial
  | node n kids rest ihk ihr =>
    obtain ⟨h₁, h₂, h₃, h₄, h₅⟩ := nodup_node.mp hm
    refine ⟨node?_node.trans (if_pos rfl), (ihk h₃ _ _).mono fun _ _ a k ha => ?_,
      (ihr h₄ _ _).mono fun _ _ a k ha => ?_⟩
    · have hne : n.id ≠ a.id := fun heq => h₁ (heq ▸ mem_of_node? ha)
      rw [node?_node, if_neg hne, ha, Option.some_or]
    · have hmem := mem_of_node? ha
      have hne : n.id ≠ a.id := fun heq => h₂ (heq ▸ hmem)
      rw [node?_node, if_neg hne, node?_eq_none_iff.mpr fun hk => h₅ _ hk hmem, Option.none_or, ha]

/-- The row below the outermost one that holds a node. -/
def rowBelow? (m : Markup) (x : NodeId) : Option (Option Node × List Node) :=
  Forest.row?.below (·.id == x) m

theorem any_labels_iff : m.labels.any (·.id == x) = true ↔ x ∈ m.rootIds := by
  simp [rootIds]

theorem rootIds_of_label (h : n ∈ m.labels) : n.id ∈ m.rootIds := List.mem_map_of_mem h

theorem rowBelow?_node : rowBelow? (.node n kids rest) x =
    if x ∈ rootIds kids then some (some n, kids.labels)
    else (rowBelow? kids x).or (rowBelow? rest x) := by
  by_cases hx : x ∈ rootIds kids
  · rw [if_pos hx, rowBelow?, Forest.row?.below, if_pos (any_labels_iff.mpr hx)]
  · rw [if_neg hx, rowBelow?, Forest.row?.below, if_neg fun h => hx (any_labels_iff.mp h)]
    rfl

theorem rowBelow?_of_not_mem (hx : x ∉ m.ids) : rowBelow? m x = none := by
  induction m with
  | nil => rfl
  | node n kids rest ihk ihr =>
    rw [ids_node, List.mem_cons, List.mem_append, not_or, not_or] at hx
    rw [rowBelow?_node, if_neg fun h => hx.2.1 (mem_ids_of_rootIds h), ihk hx.2.1, ihr hx.2.2]
    rfl

theorem rowBelow?_of_root (hm : m.ids.Nodup) (hx : x ∈ m.rootIds) : rowBelow? m x = none := by
  induction m with
  | nil => rfl
  | node n kids rest _ ih =>
    obtain ⟨h₁, h₂, h₃, h₄, h₅⟩ := nodup_node.mp hm
    rw [rowBelow?_node]
    rcases List.mem_cons.mp (show x ∈ n.id :: rootIds rest from hx) with rfl | hx
    · rw [if_neg fun h => h₁ (mem_ids_of_rootIds h), rowBelow?_of_not_mem h₁,
        rowBelow?_of_not_mem h₂]
      rfl
    · have hk : x ∉ ids kids := fun hk => h₅ x hk (mem_ids_of_rootIds hx)
      rw [if_neg fun h => hk (mem_ids_of_rootIds h), rowBelow?_of_not_mem hk, ih h₄ hx]
      rfl

/-- Below the outermost row every node is found in its row. -/
theorem everywhere_rowBelow? (hm : m.ids.Nodup) :
    EverywhereBelow (fun p r n _ => rowBelow? m n.id = some (p, r)) m := by
  induction m with
  | nil => trivial
  | node n kids rest ihk ihr =>
    obtain ⟨h₁, h₂, h₃, h₄, h₅⟩ := nodup_node.mp hm
    refine ⟨everywhere_of_below ((ihk h₃).mono fun p r a _ ha => ?_) fun a _ ha => ?_,
      (ihr h₄).mono fun p r a _ ha => ?_⟩
    · have hroot : a.id ∉ rootIds kids := fun hr => by
        rw [rowBelow?_of_root h₃ hr] at ha
        cases ha
      rw [rowBelow?_node, if_neg hroot, ha, Option.some_or]
    · rw [rowBelow?_node, if_pos (rootIds_of_label ha)]
    · have hmem : a.id ∈ ids rest := by
        by_contra hr
        rw [rowBelow?_of_not_mem hr] at ha
        cases ha
      have hk : a.id ∉ ids kids := fun hk => h₅ _ hk hmem
      rw [rowBelow?_node, if_neg fun h => hk (mem_ids_of_rootIds h), rowBelow?_of_not_mem hk,
        Option.none_or, ha]

/-- Every node is found in its row. -/
theorem everywhere_row? (hm : m.ids.Nodup) :
    Everywhere (fun p r n _ => m.row? (·.id == n.id) = some (p, r)) none m.labels m := by
  have hrow (x : NodeId) : m.row? (·.id == x) =
      if x ∈ m.rootIds then some (none, m.labels) else rowBelow? m x := by
    by_cases hx : x ∈ m.rootIds
    · rw [if_pos hx, Forest.row?, if_pos (any_labels_iff.mpr hx)]
    · rw [if_neg hx, Forest.row?, if_neg fun h => hx (any_labels_iff.mp h)]
      rfl
  refine everywhere_of_below ((everywhere_rowBelow? hm).mono fun p r a _ ha => ?_) fun a _ ha => ?_
  · have hroot : a.id ∉ m.rootIds := fun hr => by
      rw [rowBelow?_of_root hm hr] at ha
      cases ha
    rw [hrow, if_neg hroot, ha]
  · rw [hrow, if_pos (rootIds_of_label ha)]

/-- The number of a parent; outermost nodes are below `top`. -/
def parentId (top : NodeId) (parent : Option Node) : NodeId := (parent.map (·.id)).getD top

theorem everywhere_links? (hm : m.ids.Nodup) (top : NodeId) :
    Everywhere (fun p r n kids => m.links? top n.id =
      some (Links.ofRow n.id (some (parentId top p)) (r.map (·.id)) (rootIds kids)))
      none m.labels m := by
  refine ((everywhere_row? hm).and (everywhere_node? hm _ _)).mono fun p r n kids h => ?_
  rw [links?, h.1, h.2]
  rfl

/-! ## The links describe the forest -/

/-- Numbers in the place of nodes. -/
def shape (m : Markup) : Forest NodeId := m.map (·.id)

theorem labels_shape (m : Markup) : m.shape.labels = m.rootIds := Forest.labels_map _ m

theorem describes_of_everywhere {look : NodeId → Option Links} {top : NodeId}
    (before : List Node) (hrow : (row.map (·.id)).Nodup) (hm : m.ids.Nodup)
    (hsplit : row = before ++ m.labels)
    (h : Everywhere (fun p r n kids => look n.id =
      some (Links.ofRow n.id (some (parentId top p)) (r.map (·.id)) (rootIds kids)))
      parent row m) :
    Describes look (parentId top parent) (before.map (·.id)).getLast? m.shape := by
  induction m generalizing parent row before with
  | nil => trivial
  | node n kids rest ihk ihr =>
    obtain ⟨h₁, h₂, h₃, h₄, h₅⟩ := nodup_node.mp hm
    obtain ⟨hn, hkids, hrest⟩ := h
    have hids : row.map (·.id) = before.map (·.id) ++ n.id :: rootIds rest := by
      rw [hsplit, List.map_append]
      rfl
    have hnd := hrow
    rw [hids] at hnd
    obtain ⟨-, hnd, hdisj⟩ := List.nodup_append.mp hnd
    have hb : n.id ∉ before.map (·.id) := fun hx => hdisj _ hx _ (List.mem_cons_self ..) rfl
    have hr : n.id ∉ rootIds rest := (List.nodup_cons.mp hnd).1
    have hkrow : (kids.labels.map (·.id)).Nodup := h₃.sublist ((Forest.labels_sublist _).map _)
    have hkdesc := ihk [] hkrow h₃ rfl hkids
    refine ⟨?_, hkdesc, ?_⟩
    · rw [hn, hids, Links.ofRow, Links.after?_append hb, Links.before?_append hb hr]
      show some _ = some (Links.mk _ (shape kids).labels.head? (shape kids).labels.getLast? _
        (shape rest).labels.head?)
      rw [labels_shape, labels_shape]
    · have := ihr (before ++ [n]) hrow h₄ (by rw [hsplit, List.append_assoc]; rfl) hrest
      rw [List.map_append, List.map_singleton, List.getLast?_concat] at this
      exact this

/-! ## The spans of linked views -/

/-- A view lies within its parent and ends before the next sibling starts. -/
structure WellPlaced (view : NodeId → Option NodeView) (v : NodeView) : Prop where
  ordered : v.span.start ≤ v.span.stop
  within : ∀ p, v.links.parent = some p → ∃ u, view p = some u ∧ u.span.contains v.span = true
  apart : ∀ y, v.links.next = some y → ∃ w, view y = some w ∧ v.span.stop ≤ w.span.start

/-- Where mark-up nests, the views of its nodes are well placed. -/
theorem wellPlaced_of_nests {view : NodeId → Option NodeView} {top : NodeId} (before : List Node)
    (hm : Nests lo hi m) (hrow : row = before ++ m.labels) (hbefore : (row.map (·.id)).Nodup)
    (hids : m.ids.Nodup)
    (hview : Everywhere (fun p r n kids => ∃ v, view n.id = some v ∧ v.span = n.span ∧
      v.links = Links.ofRow n.id (some (parentId top p)) (r.map (·.id)) (rootIds kids))
      parent row m)
    (hparent : ∃ u, view (parentId top parent) = some u ∧ u.span.start ≤ lo ∧ hi ≤ u.span.stop) :
    ∀ x ∈ m.ids, ∃ v, view x = some v ∧ v.span.stop ≤ hi ∧ WellPlaced view v := by
  induction m generalizing lo hi parent row before with
  | nil => exact fun x hx => absurd hx (List.not_mem_nil)
  | node n kids rest ihk ihr =>
    obtain ⟨hlo, hk, hr⟩ := hm
    obtain ⟨h₁, h₂, h₃, h₄, h₅⟩ := nodup_node.mp hids
    obtain ⟨⟨v, hv, hspan, hlinks⟩, hkids, hrest⟩ := hview
    obtain ⟨u, hu, hulo, huhi⟩ := hparent
    have hord := hk.le
    have hle := hr.le
    have hkrow : (kids.labels.map (·.id)).Nodup := h₃.sublist ((Forest.labels_sublist _).map _)
    have hrest' : row = (before ++ [n]) ++ rest.labels := by
      rw [hrow, List.append_assoc]
      rfl
    intro x hx
    rw [ids_node, List.mem_cons, List.mem_append] at hx
    rcases hx with rfl | hx | hx
    · refine ⟨v, hv, by rw [hspan]; exact hle, by rw [hspan]; exact hord, fun p hp => ?_,
        fun y hy => ?_⟩
      · rw [hlinks] at hp
        obtain rfl : parentId top parent = p := Option.some.inj hp
        refine ⟨u, hu, ?_⟩
        simp only [Span.contains, hspan, Bool.and_eq_true, decide_eq_true_eq]
        omega
      · -- the next sibling is the head of the rest of the row
        have hsplit : row.map (·.id) = before.map (·.id) ++ n.id :: rootIds rest := by
          rw [hrow, List.map_append]
          rfl
        have hnot : n.id ∉ before.map (·.id) := fun hb => by
          rw [hsplit] at hbefore
          exact (List.nodup_append.mp hbefore).2.2 _ hb _ (List.mem_cons_self ..) rfl
        rw [hlinks, Links.ofRow, hsplit, Links.after?_append hnot] at hy
        cases rest with
        | nil => cases hy
        | node b bkids brest =>
          obtain rfl : b.id = y := Option.some.inj hy
          obtain ⟨⟨w, hw, hwspan, -⟩, -, -⟩ := hrest
          refine ⟨w, hw, ?_⟩
          rw [hspan, hwspan]
          exact hr.1
    · obtain ⟨w, hw, hstop, hplaced⟩ :=
        ihk [] hk rfl hkrow h₃ hkids
          ⟨v, hv, Nat.le_of_eq (by rw [hspan]), Nat.le_of_eq (by rw [hspan])⟩ x hx
      exact ⟨w, hw, Nat.le_trans hstop hle, hplaced⟩
    · exact ihr (before ++ [n]) hr hrest' hbefore h₄ hrest ⟨u, hu, by omega, huhi⟩ x hx

end Markup

namespace Document

open Markup

variable {view? : NodeId → Option NodeView} {v : NodeView} {x p : NodeId} {f : Forest NodeId}

/-! ## The check of views -/

/-- A node that is seen as an element. -/
def IsElement (view? : NodeId → Option NodeView) (x : NodeId) : Prop :=
  ∃ v, view? x = some v ∧ v.kind = .element

/-- The mark-up that spans make of a forest of numbers. -/
def spanned (span : NodeId → Span) (f : Forest NodeId) : Markup :=
  f.map fun x => { id := x, name := "", span := span x }

@[simp] theorem spanned_node (span : NodeId → Span) (x : NodeId) (kids rest : Forest NodeId) :
    spanned span (.node x kids rest) =
      .node { id := x, name := "", span := span x } (spanned span kids) (spanned span rest) := rfl

theorem flawAt?_eq_none_iff (hv : view? x = some v) (hparent : v.links.parent = some p) :
    flawAt? view? x = none ↔ v.kind = .element ∧ v.span.isOrdered = true ∧
      (spanOf view? p).contains v.span = true ∧
      ∀ y, v.links.previous = some y → (spanOf view? y).stop ≤ v.span.start := by
  unfold flawAt?
  rw [hv, Option.bind_some, hparent]
  by_cases hkind : v.kind = .element
  · by_cases hord : v.span.isOrdered = true
    · by_cases hin : (spanOf view? p).contains v.span = true
      · cases hprev : v.links.previous with
        | none => simp [hkind, hord, hin]
        | some y => simp [hkind, hord, hin]
      · simp [hkind, hord, hin]
    · simp [hkind, hord]
  · simp [hkind]

/-- A row of trees over `p`, where `lo` is the end of the sibling to its left, or the start of `p`
if there is none: the check finds nothing in it exactly if its nodes are elements and nest. -/
theorem row_flawless_iff {previous : Option NodeId} {lo : Nat}
    (h : Describes (fun x => (view? x).map (·.links)) p previous f)
    (hlo : (spanOf view? p).start ≤ lo) (hhi : lo ≤ (spanOf view? p).stop)
    (hprev : lo = (previous.map fun y => (spanOf view? y).stop).getD (spanOf view? p).start) :
    (∀ x ∈ f.preorder, flawAt? view? x = none) ↔ (∀ x ∈ f.preorder, IsElement view? x) ∧
      Nests lo (spanOf view? p).stop (spanned (spanOf view?) f) := by
  induction f generalizing p previous lo with
  | nil => simp [spanned, hhi]
  | node x kids rest ihk ihr =>
    obtain ⟨hx, hkids, hrest⟩ := h
    obtain ⟨v, hv, hlinks⟩ := Option.map_eq_some_iff.mp hx
    have hspan : spanOf view? x = v.span := by rw [spanOf, hv]; rfl
    have helement : IsElement view? x ↔ v.kind = .element := by simp [IsElement, hv]
    have hbefore : (∀ y, v.links.previous = some y → (spanOf view? y).stop ≤ v.span.start) ∧
        (spanOf view? p).start ≤ v.span.start ↔ lo ≤ v.span.start := by
      rw [hlinks, hprev]
      cases previous with
      | none => simp
      | some y =>
        have hle : (spanOf view? p).start ≤ (spanOf view? y).stop :=
          Nat.le_trans hlo (Nat.le_of_eq hprev)
        simp
        omega
    simp only [Forest.preorder_node, List.forall_mem_cons, List.forall_mem_append, spanned_node,
      nests_node, helement, hspan, flawAt?_eq_none_iff hv (congrArg Links.parent hlinks)]
    by_cases hord : v.span.start ≤ v.span.stop
    · by_cases hin : (spanOf view? p).start ≤ v.span.start ∧ v.span.stop ≤ (spanOf view? p).stop
      · have hbelow := ihk hkids (Nat.le_refl _) (by rw [hspan]; exact hord) rfl
        have hbehind : (∀ y ∈ rest.preorder, flawAt? view? y = none) ↔
            (∀ y ∈ rest.preorder, IsElement view? y) ∧
              Nests (spanOf view? x).stop (spanOf view? p).stop (spanned (spanOf view?) rest) :=
          ihr hrest (by rw [hspan]; omega) (by rw [hspan]; exact hin.2) rfl
        rw [hspan] at hbelow hbehind
        rw [hbelow, hbehind]
        simp only [Span.isOrdered, Span.contains, hord, hin, ← hbefore, decide_true, Bool.and_self,
          true_and, and_true]
        tauto
      · refine iff_of_false (fun hall => hin ?_) fun hall => hin ?_
        · simpa [Span.contains] using hall.1.2.2.1
        · have := hall.2.2.1.le
          have := hall.2.2.2.le
          omega
    · refine iff_of_false (fun hall => hord ?_) fun hall => hord hall.2.2.1.le
      simpa [Span.isOrdered] using hall.1.2.1

end Document

end Standoff
