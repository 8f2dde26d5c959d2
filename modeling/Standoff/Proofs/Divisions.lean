import Standoff.Proofs.Enclosures
import Standoff.Proofs.Order
import Standoff.Proofs.Surroundings

/-!
# Rows and trees of a division

What `Markup.divide` leaves on the two sides of a position, row by row and tree by tree: nodes that
start before the position on the left, nodes that end behind it on the right, each cut node on both,
and between them the markers that have only cut nodes over them.

* `Markup.rootIds_left`, `Markup.rootIds_right`, `Markup.rootIds_lifted`: the rows.
* `Markup.trees_divide`: the halves of a tree, and the number of the right one.
* `Markup.instead`: mark-up with another row in the place of a tree.
-/

namespace Standoff

namespace Markup

variable {lo hi pos : Nat} {m f g kids rest : Markup} {n : Node} {s : Supply} {t u : Tree Node}
  {x y : NodeId}

/-! ## Numbers and sizes -/

theorem mem_ids_divide : x ∈ (divide pos m s).row.ids ↔
    x ∈ m.ids ∨ s.next ≤ x ∧ x < (divide pos m s).supply.next := by
  rw [← List.count_pos_iff, count_ids_divide, Supply.taken]
  split
  · next hx => simp [hx]
  · next hx => simp [hx, List.count_pos_iff]

theorem ids_tree_subset : n.id :: kids.ids ⊆ ids (.node n kids rest) := by simp

theorem ids_rest_subset : rest.ids ⊆ ids (.node n kids rest) := fun x hx => by simp [hx]

/-- The markers of a division are in its row. -/
theorem rootIds_lifted_subset {d : Division} : d.lifted.rootIds ⊆ d.row.ids := fun x hx => by
  rw [Division.row, ids_append, ids_append]
  exact List.mem_append_left _ (List.mem_append_right _ (mem_ids_of_rootIds hx))

theorem mem_ids_divide_node {kids rest : Markup}
    (hs : (divide pos (.node n kids rest) s).supply = (divide pos rest s).supply)
    (hx : x = n.id ∨ x ∈ (divide pos rest s).row.ids) :
    x ∈ (divide pos (.node n kids rest) s).row.ids := by
  rw [mem_ids_divide] at hx ⊢
  rw [hs, ids_node, List.mem_cons, List.mem_append]
  tauto

theorem nodup_ids_divide (hm : m.ids.Nodup) (hlt : ∀ x ∈ m.ids, x < s.next) :
    (divide pos m s).row.ids.Nodup := by
  refine List.nodup_iff_count_le_one.mpr fun x => ?_
  have hcount := List.nodup_iff_count_le_one.mp hm x
  rw [count_ids_divide, Supply.taken]
  split
  · next hx =>
    have hzero : m.ids.count x = 0 :=
      List.count_eq_zero.mpr fun hmem => Nat.not_lt.mpr hx.1 (hlt x hmem)
    omega
  · exact hcount

theorem lifted_isEmptyAt (hn : n ∈ (divide pos m s).lifted.labels) :
    n.span.isEmptyAt pos = true := by
  induction m generalizing s with
  | nil => cases hn
  | node k kids rest ihk ihr =>
    rcases k.span.lies pos with h | h | h | h
    · rw [divide_cut h, Forest.labels_append, List.mem_append] at hn
      exact hn.elim ihk ihr
    · rw [divide_marker h, Forest.labels_node, List.mem_cons] at hn
      rcases hn with rfl | hn
      · exact Span.isEmptyAt_iff.mpr h
      · exact ihr hn
    · rw [divide_right h] at hn
      exact ihr hn
    · rw [divide_left h] at hn
      exact ihr hn

theorem size_lifted_le (pos : Nat) (m : Markup) (s : Supply) :
    (divide pos m s).lifted.size ≤ m.size := by
  induction m generalizing s with
  | nil => exact Nat.le_refl _
  | node k kids rest ihk ihr =>
    rcases k.span.lies pos with h | h | h | h
    · have hk := ihk (s.cut k pos)
      have hr := ihr (divide pos kids (s.cut k pos)).supply
      rw [divide_cut h, Forest.size_append, Forest.size]
      omega
    · have hr := ihr s
      rw [divide_marker h, Forest.size, Forest.size]
      omega
    · rw [divide_right h, Forest.size]
      exact Nat.le_trans (ihr s) (Nat.le_add_left ..)
    · rw [divide_left h, Forest.size]
      exact Nat.le_trans (ihr s) (Nat.le_add_left ..)

/-! ## Rows of a division -/

theorem rootIds_left (pos : Nat) (m : Markup) (s : Supply) : (divide pos m s).left.rootIds =
    (m.labels.filter fun n => decide (n.span.start < pos)).map (·.id) := by
  induction m generalizing s with
  | nil => rfl
  | node n kids rest _ ih =>
    rw [Forest.labels_node, List.filter_cons]
    rcases n.span.lies pos with h | h | h | h
    · rw [divide_cut h, if_pos (by simpa using h.1), List.map_cons, ← ih]
      rfl
    · rw [divide_marker h, if_neg (by simp [h.2]), ← ih s]
    · rw [divide_right h, if_neg (by simp [h.1]), ← ih s]
    · rw [divide_left h, if_pos (by simpa using h.1), List.map_cons, ← ih s]
      rfl

/-- The right half of a node that is cut has the next number of the supply. -/
theorem rootIds_right (h : Nests lo hi m) (s : Supply) : (divide pos m s).right.rootIds =
    (m.labels.filter fun n => decide (pos < n.span.stop)).map fun n =>
      if n.span.strictlyContains pos then s.next else n.id := by
  induction m generalizing lo hi with
  | nil => rfl
  | node n kids rest _ ih =>
    obtain ⟨-, hkids, hrest⟩ := h
    have hord := hkids.le
    have hwhole {k : Node} (hk : k.span.start < pos ∧ pos < k.span.stop → False) :
        (if k.span.strictlyContains pos then s.next else k.id) = k.id := by
      rw [if_neg]
      rw [Span.strictlyContains_iff]
      exact hk
    rw [Forest.labels_node, List.filter_cons]
    rcases n.span.lies pos with h | h | h | h
    · -- nothing behind a node around the position is cut
      have hbehind : ∀ k ∈ rest.labels, n.span.stop ≤ k.span.start ∧ k.span.start ≤ k.span.stop :=
        fun k hk => by
          have := hrest.bounds (Forest.labels_subset_preorder hk)
          omega
      have hall : (rest.labels.filter fun k => decide (pos < k.span.stop)) = rest.labels :=
        List.filter_eq_self.mpr fun k hk => by
          have := hbehind k hk
          simp only [decide_eq_true_eq]
          omega
      have hids : (rest.labels.map fun k =>
          if k.span.strictlyContains pos then s.next else k.id) = rootIds rest :=
        List.map_congr_left fun k hk => hwhole (k := k) fun hpos => by
          have := hbehind k hk
          omega
      rw [divide_cut h, divide_of_lt hrest h.2, if_pos (by simpa using h.2), List.map_cons, hall,
        hids, if_pos (Span.strictlyContains_iff.mpr h)]
      rfl
    · rw [divide_marker h, if_neg (by simp; omega), ← ih hrest]
    · rw [divide_right h, if_pos (by simp; omega), List.map_cons, hwhole (by omega), ← ih hrest]
      rfl
    · rw [divide_left h, if_neg (by simp; omega), ← ih hrest]

/-- What stands at `pos` and has only nodes around `pos` over it. -/
def between (pos : Nat) (m : Markup) : List Node :=
  m.preorder.filter fun n => n.span.isEmptyAt pos &&
    m.trees.all fun t => !decide (n ∈ t.children.preorder) || t.label.span.strictlyContains pos

theorem between_node (hm : (ids (.node n kids rest)).Nodup) :
    between pos (.node n kids rest) = (if n.span.isEmptyAt pos then [n] else []) ++
      ((if n.span.strictlyContains pos then between pos kids else []) ++ between pos rest) := by
  obtain ⟨hnk, hnr, -, -, hkr⟩ := nodup_node.mp hm
  have hin {a : Node} {f : Markup} {t : Tree Node} (ht : t ∈ f.trees)
      (ha : a ∈ t.children.preorder) : a.id ∈ f.ids := id_mem_ids (Forest.preorder_below ht ha)
  -- a tree counts only for the nodes below it
  have hskip {a : Node} {f : Markup} (ha : a.id ∉ f.ids) : (f.trees.all fun t =>
      !decide (a ∈ t.children.preorder) || t.label.span.strictlyContains pos) = true :=
    List.all_eq_true.mpr fun t ht => by
      have hout : a ∉ t.children.preorder := fun hmem => ha (hin ht hmem)
      simp [hout]
  have hkids : (kids.preorder.filter fun a => a.span.isEmptyAt pos &&
      (Forest.node n kids rest).trees.all fun t =>
        !decide (a ∈ t.children.preorder) || t.label.span.strictlyContains pos) =
      if n.span.strictlyContains pos then between pos kids else [] := by
    split
    · next hn =>
      refine List.filter_congr fun a ha => ?_
      rw [Forest.trees_node, List.all_cons, List.all_append,
        hskip (hkr a.id (id_mem_ids ha)), hn]
      simp
    · next hn =>
      refine List.filter_eq_nil_iff.mpr fun a ha => ?_
      simp [hn, ha]
  have hrest : (rest.preorder.filter fun a => a.span.isEmptyAt pos &&
      (Forest.node n kids rest).trees.all fun t =>
        !decide (a ∈ t.children.preorder) || t.label.span.strictlyContains pos) =
      between pos rest := by
    refine List.filter_congr fun a ha => ?_
    have hout : a.id ∉ kids.ids := fun hmem => hkr a.id hmem (id_mem_ids ha)
    have hak : a ∉ kids.preorder := fun hmem => hout (id_mem_ids hmem)
    rw [Forest.trees_node, List.all_cons, List.all_append, hskip hout]
    simp [hak]
  have hself : (n.span.isEmptyAt pos && (Forest.node n kids rest).trees.all fun t =>
      !decide (n ∈ t.children.preorder) || t.label.span.strictlyContains pos) =
      n.span.isEmptyAt pos := by
    have hn : n ∉ kids.preorder := fun hmem => hnk (id_mem_ids hmem)
    rw [Forest.trees_node, List.all_cons, List.all_append, hskip hnk, hskip hnr]
    simp [hn]
  rw [between, Forest.preorder_node, List.filter_cons, List.filter_append, hkids, hrest, hself]
  split <;> rfl

theorem rootIds_lifted (hm : m.ids.Nodup) (s : Supply) :
    (divide pos m s).lifted.rootIds = (between pos m).map (·.id) := by
  induction m generalizing s with
  | nil => rfl
  | node n kids rest ihk ihr =>
    obtain ⟨-, -, hk, hr, -⟩ := nodup_node.mp hm
    rw [between_node hm]
    rcases n.span.lies pos with h | h | h | h
    · have hmarker : ¬ n.span.isEmptyAt pos = true := by
        rw [Span.isEmptyAt_iff]
        omega
      rw [divide_cut h, if_neg hmarker, if_pos (Span.strictlyContains_iff.mpr h), rootIds_append,
        ihk hk, ihr hr, List.nil_append, List.map_append]
    all_goals
      have haround : ¬ n.span.strictlyContains pos = true := by
        rw [Span.strictlyContains_iff]
        omega
      rw [if_neg haround, List.nil_append]
    · rw [divide_marker h, if_pos (Span.isEmptyAt_iff.mpr h), List.map_append, ← ihr hr s]
      rfl
    all_goals
      have hmarker : ¬ n.span.isEmptyAt pos = true := by
        rw [Span.isEmptyAt_iff]
        omega
      rw [if_neg hmarker, List.nil_append, ← ihr hr s]
    · rw [divide_right h]
    · rw [divide_left h]

/-- The trees that are left of a tree around the position, and the numbers of right halves: they
are taken in document order. -/
theorem trees_divide (h : Nests lo hi m) (hu : u ∈ m.trees)
    (hpos : u.label.span.strictlyContains pos = true) (s : Supply) :
    ∃ (front back : List Node) (s' : Supply),
      holding pos m = front ++ u.label :: (holding pos u.children ++ back) ∧
      s'.next = s.next + front.length ∧
      ⟨u.label.leftHalf pos, (divide pos u.children (s'.cut u.label pos)).left⟩ ∈
        (divide pos m s).left.trees ∧
      ⟨u.label.rightHalf pos s'.next, (divide pos u.children (s'.cut u.label pos)).right⟩ ∈
        (divide pos m s).right.trees := by
  induction m generalizing lo hi s with
  | nil => cases hu
  | node n kids rest ihk ihr =>
    obtain ⟨-, hkids, hrest⟩ := h
    rw [Forest.trees_node, List.mem_cons, List.mem_append] at hu
    rw [Span.strictlyContains_iff] at hpos
    rcases hu with rfl | hu | hu
    · refine ⟨[], holding pos rest, s, ?_, rfl, ?_, ?_⟩
      · rw [holding_node, if_pos (Span.strictlyContains_iff.mpr hpos)]
        rfl
      · rw [divide_cut hpos]
        exact List.mem_cons_self ..
      · rw [divide_cut hpos]
        exact List.mem_cons_self ..
    · -- the node over it is around the position, too
      have hn : n.span.start < pos ∧ pos < n.span.stop := by
        have hbounds := hkids.bounds (Forest.label_mem hu)
        omega
      obtain ⟨front, back, s', hholding, hnext, hleft, hright⟩ :=
        ihk hkids hu (s.cut n pos)
      refine ⟨n :: front, back ++ holding pos rest, s', ?_, ?_, ?_, ?_⟩
      · rw [holding_node, if_pos (Span.strictlyContains_iff.mpr hn), hholding]
        simp
      · rw [hnext, List.length_cons]
        exact Nat.add_right_comm s.next 1 front.length
      · rw [divide_cut hn, Forest.trees_node]
        exact List.mem_cons_of_mem _ (List.mem_append_left _ hleft)
      · rw [divide_cut hn, Forest.trees_node]
        exact List.mem_cons_of_mem _ (List.mem_append_left _ hright)
    · -- a node in front of it is not
      have hn : ¬(n.span.start < pos ∧ pos < n.span.stop) := by
        have hbehind := hrest.bounds (Forest.label_mem hu)
        omega
      obtain ⟨front, back, s', hholding, hnext, hleft, hright⟩ := ihr hrest hu s
      refine ⟨front, back, s', (holding_of_whole hkids hn rest).1.trans hholding, hnext, ?_⟩
      rcases n.span.lies pos with h | h | h | h
      · exact absurd h hn
      · rw [divide_marker h]
        exact ⟨hleft, hright⟩
      · rw [divide_right h, Forest.trees_node]
        exact ⟨hleft, List.mem_cons_of_mem _ (List.mem_append_right _ hright)⟩
      · rw [divide_left h, Forest.trees_node]
        exact ⟨List.mem_cons_of_mem _ (List.mem_append_right _ hleft), hright⟩

/-- The tree that the halves of an element and the markers between them make up. -/
theorem row_divide_ofTree (hpos : u.label.span.start < pos ∧ pos < u.label.span.stop) (s : Supply) :
    (divide pos (.ofTree u) s).row =
        .node (u.label.leftHalf pos) (divide pos u.children (s.cut u.label pos)).left
          ((divide pos u.children (s.cut u.label pos)).lifted ++
            .node (u.label.rightHalf pos s.next) (divide pos u.children (s.cut u.label pos)).right
              .nil) ∧
      (divide pos (.ofTree u) s).supply = (divide pos u.children (s.cut u.label pos)).supply := by
  rw [Forest.ofTree, divide_cut hpos]
  refine ⟨?_, rfl⟩
  simp [Division.row]

/-- The node of a row that the position lies in is the first one that it lies in. -/
theorem holding_of_label (h : Nests lo hi m) (hn : n ∈ m.labels)
    (hpos : n.span.strictlyContains pos = true) : ∃ back, holding pos m = n :: back := by
  induction m generalizing lo with
  | nil => cases hn
  | node k kids rest _ ih =>
    obtain ⟨-, hkids, hrest⟩ := h
    rcases List.mem_cons.mp hn with rfl | hn
    · exact ⟨_, by rw [holding_node, if_pos hpos]; rfl⟩
    · have hk : ¬(k.span.start < pos ∧ pos < k.span.stop) := by
        have hbehind := hrest.bounds (Forest.labels_subset_preorder hn)
        rw [Span.strictlyContains_iff] at hpos
        omega
      rw [(holding_of_whole hkids hk rest).1]
      exact ih hrest hn

theorem nests_ofTree (h : Nests u.label.span.start u.label.span.stop u.children) :
    Nests u.label.span.start u.label.span.stop (.ofTree u) :=
  ⟨Nat.le_refl _, h, Nat.le_refl _⟩

theorem Nests.row_divide (h : Nests lo hi m) (hlo : lo ≤ pos) (hhi : pos ≤ hi) (s : Supply) :
    Nests lo hi (Markup.divide pos m s).row := by
  obtain ⟨hleft, hlifted, hright⟩ := h.divide hlo hhi s
  exact (hleft.append hlifted).append hright

/-! ## Another row instead of a tree -/

/-- The trees of `g` instead of the tree of `x`. -/
def instead (x : NodeId) (g : Markup) : Markup → Markup
  | .nil => .nil
  | .node n kids rest =>
    if n.id = x then g ++ instead x g rest else .node n (instead x g kids) (instead x g rest)

theorem instead_node : instead x g (.node n kids rest) =
    if n.id = x then g ++ instead x g rest
    else .node n (instead x g kids) (instead x g rest) := rfl

theorem instead_of_not_mem (h : x ∉ m.ids) : instead x g m = m := by
  induction m with
  | nil => rfl
  | node n kids rest ihk ihr =>
    simp only [ids_node, List.mem_cons, List.mem_append, not_or] at h
    rw [instead_node, if_neg (Ne.symm h.1), ihk h.2.1, ihr h.2.2]

theorem rootIds_instead (x : NodeId) (g m : Markup) : (instead x g m).rootIds =
    m.rootIds.flatMap fun y => if y = x then g.rootIds else [y] := by
  induction m with
  | nil => rfl
  | node n kids rest _ ih =>
    show _ = (if n.id = x then g.rootIds else [n.id]) ++ (rootIds rest).flatMap _
    rw [instead_node, ← ih]
    split
    · rw [rootIds_append]
    · rfl

theorem trees_instead (hx : x ∈ m.ids) (ht : t ∈ g.trees) : t ∈ (instead x g m).trees := by
  induction m with
  | nil => cases hx
  | node n kids rest ihk ihr =>
    rw [ids_node, List.mem_cons, List.mem_append] at hx
    rw [instead_node]
    split
    · rw [Forest.trees_append]
      exact List.mem_append_left _ ht
    · next hn =>
      rw [Forest.trees_node, List.mem_cons, List.mem_append]
      exact .inr ((hx.resolve_left (Ne.symm hn)).imp ihk ihr)

/-- The nodes in front of the tree and behind it stay. -/
theorem preorder_instead (hm : m.ids.Nodup) (hu : m.node? x = some u) :
    ∃ front back, m.preorder = front ++ ((Forest.ofTree u).preorder ++ back) ∧
      ∀ g, (instead x g m).preorder = front ++ (g.preorder ++ back) := by
  induction m with
  | nil => cases hu
  | node n kids rest ihk ihr =>
    obtain ⟨hnk, hnr, hk, hr, hkr⟩ := nodup_node.mp hm
    rw [node?_node] at hu
    split at hu
    · next hn =>
      cases hu
      refine ⟨[], rest.preorder, by simp [Forest.ofTree], fun g => ?_⟩
      rw [instead_node, if_pos hn, instead_of_not_mem (hn ▸ hnr), Forest.preorder_append]
      rfl
    · next hn =>
      rcases Option.or_eq_some_iff.mp hu with hu | ⟨hnone, hu⟩
      · obtain ⟨front, back, hfront, hback⟩ := ihk hk hu
        refine ⟨n :: front, back ++ rest.preorder, by simp [hfront], fun g => ?_⟩
        rw [instead_node, if_neg hn, instead_of_not_mem (hkr x (mem_of_node? hu))]
        simp [hback]
      · obtain ⟨front, back, hfront, hback⟩ := ihr hr hu
        refine ⟨n :: (kids.preorder ++ front), back, by simp [hfront], fun g => ?_⟩
        rw [instead_node, if_neg hn, instead_of_not_mem (node?_eq_none_iff.mp hnone)]
        simp [hback]

theorem Nests.instead (h : Nests lo hi m) (hm : m.ids.Nodup) (hu : m.node? x = some u)
    (hg : Nests u.label.span.start u.label.span.stop g) : Nests lo hi (instead x g m) := by
  induction m generalizing lo hi with
  | nil => cases hu
  | node n kids rest ihk ihr =>
    obtain ⟨hlo, hkids, hrest⟩ := h
    obtain ⟨hnk, hnr, hk, hr, hkr⟩ := nodup_node.mp hm
    rw [node?_node] at hu
    rw [instead_node]
    split at hu
    · next hn =>
      cases hu
      rw [if_pos hn, instead_of_not_mem (hn ▸ hnr)]
      exact (hg.mono hlo (Nat.le_refl _)).append hrest
    · next hn =>
      rw [if_neg hn]
      rcases Option.or_eq_some_iff.mp hu with hu | ⟨hnone, hu⟩
      · rw [instead_of_not_mem (hkr x (mem_of_node? hu))]
        exact ⟨hlo, ihk hkids hk hu, hrest⟩
      · rw [instead_of_not_mem (node?_eq_none_iff.mp hnone)]
        exact ⟨hlo, hkids, ihr hrest hr hu⟩

end Markup

end Standoff
