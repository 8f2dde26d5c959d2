import Mathlib.Data.List.Dedup
import Standoff.Proofs.Opening

/-! # Moving subtrees by number

Look-up, removal and moves in mark-up whose numbers are distinct.

* `Markup.without`, `Markup.adopting`: mark-up with less, and with more children for one node.
* `Markup.node?_moveUnder`: what a move leaves below a node.
* `Markup.foldl_moveUnder`: a series of moves under one parent takes every moved node out of its
  place and lists the last moves in order. -/

namespace Standoff

namespace Markup

/-- The mark-up without the trees of some nodes. -/
def without (xs : List NodeId) (m : Markup) : Markup := m.prune (isClaimed xs)

/-- The mark-up with more children, the last ones, for one node. -/
def adopting (P : NodeId) (g m : Markup) : Markup := Forest.extendBelow (·.id == P) g m

variable {m f g h kids rest : Markup} {n : Node} {t u : Tree Node} {x y P : NodeId}
  {xs ys : List NodeId}

/-! ## Distinct numbers -/

theorem nodup_node : (ids (.node n kids rest)).Nodup ↔
    n.id ∉ ids kids ∧ n.id ∉ ids rest ∧ (ids kids).Nodup ∧ (ids rest).Nodup ∧
      ∀ x ∈ ids kids, x ∉ ids rest := by
  rw [ids_node, List.nodup_cons, List.nodup_append, List.mem_append]
  constructor
  · rintro ⟨h₁, h₂, h₃, h₄⟩
    exact ⟨fun h => h₁ (Or.inl h), fun h => h₁ (Or.inr h), h₂, h₃,
      fun x hx hx' => h₄ x hx x hx' rfl⟩
  · rintro ⟨h₁, h₂, h₃, h₄, h₅⟩
    exact ⟨fun h => h.elim h₁ h₂, h₃, h₄, fun x hx y hy e => h₅ x hx (e ▸ hy)⟩

/-! ## Look-up -/

@[simp] theorem node?_nil : node? .nil x = none := rfl

theorem node?_node :
    node? (.node n kids rest) x =
      if n.id = x then some ⟨n, kids⟩ else (node? kids x).or (node? rest x) := by
  simp only [node?, Forest.find?, beq_iff_eq]

theorem node?_append : (f ++ g).node? x = (f.node? x).or (g.node? x) := by
  induction f with
  | nil => simp
  | node n kids rest _ ih =>
    rw [Forest.node_append, node?_node, node?_node, ih]
    split
    · rfl
    · rw [Option.or_assoc]

theorem node?_eq_none_iff : m.node? x = none ↔ x ∉ m.ids := by
  induction m with
  | nil => simp
  | node n kids rest ihk ihr =>
    rw [node?_node, ids_node, List.mem_cons, List.mem_append]
    by_cases h : n.id = x
    · simp [h]
    · rw [if_neg h, Option.or_eq_none_iff, ihk, ihr]
      constructor
      · rintro ⟨h₁, h₂⟩ (h₃ | h₃ | h₃)
        · exact h h₃.symm
        · exact h₁ h₃
        · exact h₂ h₃
      · intro h'
        exact ⟨fun h₁ => h' (Or.inr (Or.inl h₁)), fun h₁ => h' (Or.inr (Or.inr h₁))⟩

theorem exists_node? (h : x ∈ m.ids) : ∃ t, m.node? x = some t := by
  cases hn : m.node? x with
  | none => exact absurd h (node?_eq_none_iff.mp hn)
  | some t => exact ⟨t, rfl⟩

/-- A tree that was looked up has the number and is part of the mark-up. -/
theorem node?_spec (h : m.node? x = some t) :
    t.label.id = x ∧ ∀ n ∈ (Forest.ofTree t).preorder, n ∈ m.preorder := by
  induction m with
  | nil => cases h
  | node n kids rest ihk ihr =>
    rw [node?_node] at h
    rw [Forest.preorder_node]
    split at h
    · next hx =>
      cases h
      refine ⟨hx, fun a ha => ?_⟩
      simp only [Forest.ofTree, Forest.preorder_node, Forest.preorder_nil, List.append_nil,
        List.mem_cons] at ha
      rcases ha with rfl | ha
      · exact List.mem_cons_self ..
      · exact List.mem_cons_of_mem _ (List.mem_append_left _ ha)
    · rcases Option.or_eq_some_iff.mp h with h | ⟨-, h⟩
      · obtain ⟨h₁, h₂⟩ := ihk h
        exact ⟨h₁, fun a ha => List.mem_cons_of_mem _ (List.mem_append_left _ (h₂ a ha))⟩
      · obtain ⟨h₁, h₂⟩ := ihr h
        exact ⟨h₁, fun a ha => List.mem_cons_of_mem _ (List.mem_append_right _ (h₂ a ha))⟩

/-- The numbers of a tree. -/
abbrev treeIds (t : Tree Node) : List NodeId := ids (Forest.ofTree t)

theorem treeIds_eq (t : Tree Node) : treeIds t = t.label.id :: ids t.children := by
  simp [treeIds, Forest.ofTree]

theorem treeIds_subset (h : m.node? x = some t) (hy : y ∈ treeIds t) : y ∈ m.ids := by
  obtain ⟨n, hn, rfl⟩ := mem_ids.mp hy
  exact id_mem_ids ((node?_spec h).2 n hn)

theorem mem_of_node? (h : m.node? x = some t) : x ∈ m.ids :=
  treeIds_subset h (by rw [treeIds_eq, (node?_spec h).1]; exact List.mem_cons_self ..)

/-- Below a node that was looked up the numbers are distinct. -/
theorem nodup_treeIds (hm : m.ids.Nodup) (h : m.node? x = some t) : (treeIds t).Nodup := by
  induction m with
  | nil => cases h
  | node n kids rest ihk ihr =>
    obtain ⟨h₁, h₂, h₃, h₄, h₅⟩ := nodup_node.mp hm
    rw [node?_node] at h
    split at h
    · cases h
      rw [treeIds_eq, List.nodup_cons]
      exact ⟨h₁, h₃⟩
    · rcases Option.or_eq_some_iff.mp h with h | ⟨-, h⟩
      · exact ihk h₃ h
      · exact ihr h₄ h

/-- A look-up inside a tree that was looked up. -/
theorem node?_children (hm : m.ids.Nodup) (h : m.node? x = some u) (hy : y ∈ ids u.children) :
    m.node? y = node? u.children y := by
  induction m with
  | nil => cases h
  | node n kids rest ihk ihr =>
    obtain ⟨h₁, h₂, h₃, h₄, h₅⟩ := nodup_node.mp hm
    have hyu : y ∈ treeIds u := by rw [treeIds_eq]; exact List.mem_cons_of_mem _ hy
    rw [node?_node] at h ⊢
    split at h
    · cases h
      have hny : n.id ≠ y := fun e => h₁ (e ▸ hy)
      rw [if_neg hny]
      obtain ⟨t, ht⟩ := exists_node? hy
      rw [ht, Option.some_or]
    · rcases Option.or_eq_some_iff.mp h with h | ⟨-, h⟩
      · have hk := treeIds_subset h hyu
        have hny : n.id ≠ y := fun e => h₁ (e ▸ hk)
        have hr : node? rest y = none := node?_eq_none_iff.mpr (h₅ y hk)
        rw [if_neg hny, hr, Option.or_none]
        exact ihk h₃ h
      · have hr := treeIds_subset h hyu
        have hny : n.id ≠ y := fun e => h₂ (e ▸ hr)
        have hk : node? kids y = none := node?_eq_none_iff.mpr fun hk => h₅ y hk hr
        rw [if_neg hny, hk, Option.none_or]
        exact ihr h₄ h

/-! ## Removal -/

@[simp] theorem without_nil : without xs .nil = .nil := rfl

theorem without_node : without xs (.node n kids rest) =
    if n.id ∈ xs then without xs rest else .node n (without xs kids) (without xs rest) := by
  simp only [without, Forest.prune, isClaimed, decide_eq_true_eq]

theorem without_one_node : without [x] (.node n kids rest) =
    if n.id = x then without [x] rest else .node n (without [x] kids) (without [x] rest) := by
  simp only [without_node, List.mem_singleton]

@[simp] theorem without_append : without xs (f ++ g) = without xs f ++ without xs g :=
  Forest.prune_append _ f g

theorem without_of_disjoint (h : ∀ x ∈ xs, x ∉ m.ids) : m.without xs = m :=
  Forest.prune_of_none fun n hn => by
    rw [isClaimed, decide_eq_false_iff_not]
    exact fun hx => h n.id hx (id_mem_ids hn)

theorem without_of_not_mem (h : x ∉ m.ids) : m.without [x] = m :=
  without_of_disjoint fun _ hy => List.mem_singleton.mp hy ▸ h

theorem without_without (xs ys : List NodeId) (m : Markup) :
    (m.without xs).without ys = m.without (xs ++ ys) := by
  rw [without, without, without, Forest.prune_prune]
  refine Forest.prune_congr fun n _ => ?_
  rw [Bool.eq_iff_iff, Bool.or_eq_true]
  simp [isClaimed]

theorem without_sublist (xs : List NodeId) (m : Markup) : (m.without xs).ids.Sublist m.ids :=
  (Forest.preorder_prune_sublist _ m).map _

theorem nodup_without (hm : m.ids.Nodup) : (m.without xs).ids.Nodup :=
  hm.sublist (without_sublist xs m)

theorem remove_eq_none (h : x ∉ m.ids) : m.remove (·.id == x) = none := by
  induction m with
  | nil => rfl
  | node n kids rest ihk ihr =>
    rw [ids_node, List.mem_cons, List.mem_append] at h
    have hn : (n.id == x) = false :=
      beq_eq_false_iff_ne.mpr fun e => h (Or.inl e.symm)
    rw [Forest.remove, hn, ihk fun hk => h (Or.inr (Or.inl hk)),
      ihr fun hr => h (Or.inr (Or.inr hr))]
    rfl

theorem remove_eq (hm : m.ids.Nodup) (h : m.node? x = some t) :
    m.remove (·.id == x) = some (t, m.without [x]) := by
  induction m with
  | nil => cases h
  | node n kids rest ihk ihr =>
    obtain ⟨h₁, h₂, h₃, h₄, h₅⟩ := nodup_node.mp hm
    rw [node?_node] at h
    rw [Forest.remove, without_one_node]
    by_cases hn : n.id = x
    · rw [if_pos hn] at h
      cases h
      rw [if_pos (beq_iff_eq.mpr hn), if_pos hn, without_of_not_mem (hn ▸ h₂)]
    · rw [if_neg hn] at h
      have hb : (n.id == x) = false := beq_eq_false_iff_ne.mpr hn
      rw [hb, if_neg hn]
      rcases Option.or_eq_some_iff.mp h with h | ⟨hk, h⟩
      · rw [ihk h₃ h, without_of_not_mem (h₅ x (mem_of_node? h))]
        rfl
      · have hk := node?_eq_none_iff.mp hk
        rw [remove_eq_none hk, ihr h₄ h, without_of_not_mem hk]
        rfl

/-- A removal splits the nodes. -/
theorem perm_without (hm : m.ids.Nodup) (h : m.node? x = some t) :
    ((m.without [x]).preorder ++ (Forest.ofTree t).preorder).Perm m.preorder := by
  refine List.perm_iff_count.mpr fun a => ?_
  rw [List.count_append]
  induction m with
  | nil => cases h
  | node n kids rest ihk ihr =>
    obtain ⟨h₁, h₂, h₃, h₄, h₅⟩ := nodup_node.mp hm
    rw [node?_node] at h
    rw [without_one_node]
    by_cases hn : n.id = x
    · rw [if_pos hn] at h ⊢
      cases h
      rw [without_of_not_mem (hn ▸ h₂), Forest.ofTree]
      simp only [Forest.preorder_node, Forest.preorder_nil, List.append_nil, List.count_cons,
        List.count_append]
      omega
    · rw [if_neg hn] at h ⊢
      simp only [Forest.preorder_node, List.count_cons, List.count_append]
      rcases Option.or_eq_some_iff.mp h with h | ⟨hk, h⟩
      · have := ihk h₃ h
        rw [without_of_not_mem (h₅ x (mem_of_node? h))]
        omega
      · have := ihr h₄ h
        rw [without_of_not_mem (node?_eq_none_iff.mp hk)]
        omega

theorem count_ids_without (hm : m.ids.Nodup) (h : m.node? x = some t) (y : NodeId) :
    (m.without [x]).ids.count y + (treeIds t).count y = m.ids.count y := by
  rw [← List.count_append, ids, treeIds, ids, ← List.map_append]
  exact ((perm_without hm h).map _).count_eq y

/-- A removal leaves the look-up of every node that it does not take along. -/
theorem node?_without (hm : m.ids.Nodup) (hx : m.node? x = some u) (hy : m.node? y = some t)
    (hyu : y ∉ treeIds u) :
    (m.without [x]).node? y = some ⟨t.label, without [x] t.children⟩ := by
  induction m with
  | nil => cases hx
  | node n kids rest ihk ihr =>
    obtain ⟨h₁, h₂, h₃, h₄, h₅⟩ := nodup_node.mp hm
    have hsub {v : Tree Node} {w : Markup} (hv : w.node? y = some v) (hw : x ∉ w.ids) :
        x ∉ ids v.children := fun h => hw (treeIds_subset hv (by
          rw [treeIds_eq]; exact List.mem_cons_of_mem _ h))
    rw [node?_node] at hx hy
    rw [without_one_node]
    by_cases hnx : n.id = x
    · rw [if_pos hnx] at hx ⊢
      cases hx
      rw [treeIds_eq, List.mem_cons, not_or] at hyu
      rw [if_neg fun e => hyu.1 e.symm, node?_eq_none_iff.mpr hyu.2, Option.none_or] at hy
      have hxr : x ∉ ids rest := hnx ▸ h₂
      rw [without_of_not_mem hxr, without_of_not_mem (hsub hy hxr), hy]
    · rw [if_neg hnx] at hx ⊢
      rw [node?_node]
      by_cases hny : n.id = y
      · rw [if_pos hny] at hy ⊢
        cases hy
        rfl
      · rw [if_neg hny] at hy ⊢
        rcases Option.or_eq_some_iff.mp hy with hy | ⟨hk, hy⟩
        · have hyk := mem_of_node? hy
          by_cases hxk : x ∈ ids kids
          · obtain ⟨v, hv⟩ := exists_node? hxk
            rw [hv, Option.some_or] at hx
            cases hx
            rw [ihk h₃ hv hy, Option.some_or]
          · rw [without_of_not_mem hxk, without_of_not_mem (hsub hy hxk), hy, Option.some_or]
        · have hyk := node?_eq_none_iff.mp hk
          have hyr := mem_of_node? hy
          have hpk : node? (without [x] kids) y = none :=
            node?_eq_none_iff.mpr fun h => hyk ((without_sublist _ kids).subset h)
          rw [hpk, Option.none_or]
          by_cases hxr : x ∈ ids rest
          · have hxk : node? kids x = none := node?_eq_none_iff.mpr fun h => h₅ x h hxr
            rw [hxk, Option.none_or] at hx
            exact ihr h₄ hx hy
          · rw [without_of_not_mem hxr, without_of_not_mem (hsub hy hxr), hy]

/-! ## Adoption -/

@[simp] theorem adopting_nil : adopting P g .nil = .nil := rfl

theorem adopting_node : adopting P g (.node n kids rest) =
    if n.id = P then .node n (kids ++ g) (adopting P g rest)
    else .node n (adopting P g kids) (adopting P g rest) := by
  simp only [adopting, Forest.extendBelow, beq_iff_eq]

@[simp] theorem adopting_append :
    adopting P g (f ++ h) = adopting P g f ++ adopting P g h :=
  Forest.extendBelow_append_rows _ g f h

theorem adopting_of_not_mem (h : P ∉ m.ids) : adopting P g m = m :=
  Forest.extendBelow_of_none fun n hn => by
    rw [beq_eq_false_iff_ne]
    exact fun e => h (e ▸ id_mem_ids hn)

theorem adopting_adopting (g h m : Markup) :
    adopting P h (adopting P g m) = adopting P (g ++ h) m :=
  Forest.extendBelow_extendBelow _ g h m

theorem without_adopting (hP : P ∉ xs) (g m : Markup) :
    (adopting P g m).without xs = adopting P (g.without xs) (m.without xs) :=
  Forest.prune_extendBelow (fun n hn => by
    rw [isClaimed, decide_eq_false_iff_not, beq_iff_eq.mp hn]
    exact hP) g m

theorem adopt_eq (hm : m.ids.Nodup) :
    m.adopt (·.id == P) t = adopting P (Forest.ofTree t) m := by
  induction m with
  | nil => rfl
  | node n kids rest ihk ihr =>
    obtain ⟨h₁, h₂, h₃, h₄, h₅⟩ := nodup_node.mp hm
    rw [Forest.adopt, adopting_node, ihk h₃, ihr h₄]
    by_cases hn : n.id = P
    · rw [if_pos (beq_iff_eq.mpr hn), if_pos hn, adopting_of_not_mem (hn ▸ h₂)]
    · rw [if_neg hn, if_neg fun h => hn (beq_iff_eq.mp h)]

theorem perm_adopting (hm : m.ids.Nodup) (hP : P ∈ m.ids) :
    (adopting P g m).preorder.Perm (m.preorder ++ g.preorder) := by
  refine List.perm_iff_count.mpr fun a => ?_
  rw [List.count_append]
  induction m with
  | nil => cases hP
  | node n kids rest ihk ihr =>
    obtain ⟨h₁, h₂, h₃, h₄, h₅⟩ := nodup_node.mp hm
    rw [adopting_node]
    by_cases hn : n.id = P
    · rw [if_pos hn, adopting_of_not_mem (hn ▸ h₂)]
      simp only [Forest.preorder_node, Forest.preorder_append, List.count_cons, List.count_append]
      omega
    · rw [if_neg hn]
      simp only [Forest.preorder_node, List.count_cons, List.count_append]
      rw [ids_node, List.mem_cons, List.mem_append] at hP
      rcases hP with hP | hP | hP
      · exact absurd hP.symm hn
      · have := ihk h₃ hP
        rw [adopting_of_not_mem (h₅ P hP)]
        omega
      · have := ihr h₄ hP
        rw [adopting_of_not_mem fun h => h₅ P h hP]
        omega

theorem count_ids_adopting (hm : m.ids.Nodup) (hP : P ∈ m.ids) (y : NodeId) :
    (adopting P g m).ids.count y = m.ids.count y + g.ids.count y := by
  rw [← List.count_append, ids, ids, ids, ← List.map_append]
  exact ((perm_adopting hm hP).map _).count_eq y

/-- An adoption leaves the look-up of every node that the parent is not below. -/
theorem node?_adopting (hm : m.ids.Nodup) (hy : m.node? y = some t) (hP : P ∉ treeIds t)
    (hyg : y ∉ g.ids) : (adopting P g m).node? y = some t := by
  induction m with
  | nil => cases hy
  | node n kids rest ihk ihr =>
    obtain ⟨h₁, h₂, h₃, h₄, h₅⟩ := nodup_node.mp hm
    rw [node?_node] at hy
    rw [adopting_node]
    by_cases hny : n.id = y
    · rw [if_pos hny] at hy
      cases hy
      rw [treeIds_eq, List.mem_cons, not_or] at hP
      rw [if_neg fun e => hP.1 e.symm, adopting_of_not_mem hP.2, node?_node, if_pos hny]
    · rw [if_neg hny] at hy
      by_cases hn : n.id = P
      · rw [if_pos hn, node?_node, if_neg hny, node?_append, node?_eq_none_iff.mpr hyg,
          Option.or_none, adopting_of_not_mem (hn ▸ h₂), hy]
      · rw [if_neg hn, node?_node, if_neg hny]
        rcases Option.or_eq_some_iff.mp hy with hy | ⟨hk, hy⟩
        · rw [ihk h₃ hy, Option.some_or]
        · have hnone : (adopting P g kids).node? y = none := by
            have hyk := node?_eq_none_iff.mp hk
            by_cases hPk : P ∈ ids kids
            · refine node?_eq_none_iff.mpr fun h => ?_
              have := count_ids_adopting (g := g) h₃ hPk y
              rw [List.count_eq_zero.mpr hyk, List.count_eq_zero.mpr hyg] at this
              exact List.count_eq_zero.mp this h
            · rw [adopting_of_not_mem hPk]
              exact hk
          rw [hnone, Option.none_or]
          exact ihr h₄ hy

/-- What was adopted is found under its new parent. -/
theorem node?_adopting_new (hm : m.ids.Nodup) (hP : P ∈ m.ids) (hy : y ∉ m.ids) :
    (adopting P g m).node? y = g.node? y := by
  induction m with
  | nil => cases hP
  | node n kids rest ihk ihr =>
    obtain ⟨h₁, h₂, h₃, h₄, h₅⟩ := nodup_node.mp hm
    rw [ids_node, List.mem_cons, List.mem_append, not_or, not_or] at hy
    have hkn := node?_eq_none_iff.mpr hy.2.1
    have hrn := node?_eq_none_iff.mpr hy.2.2
    rw [adopting_node]
    by_cases hn : n.id = P
    · rw [if_pos hn, node?_node, if_neg fun e => hy.1 e.symm, node?_append, hkn, Option.none_or,
        adopting_of_not_mem (hn ▸ h₂), hrn, Option.or_none]
    · rw [if_neg hn, node?_node, if_neg fun e => hy.1 e.symm]
      rw [ids_node, List.mem_cons, List.mem_append] at hP
      rcases hP with hP | hP | hP
      · exact absurd hP.symm hn
      · rw [ihk h₃ hP hy.2.1, adopting_of_not_mem (h₅ P hP), hrn, Option.or_none]
      · rw [adopting_of_not_mem fun h => h₅ P h hP, hkn, Option.none_or]
        exact ihr h₄ hP hy.2.2

/-! ## Moves -/

/-- The numbers are distinct, the parent is there, and every node to be moved is there and does
not hold the parent. -/
structure Movable (P : NodeId) (xs : List NodeId) (m : Markup) : Prop where
  nodup : m.ids.Nodup
  parent : P ∈ m.ids
  tree : ∀ x ∈ xs, ∃ t, m.node? x = some t ∧ P ∉ treeIds t

theorem moveUnder_eq (hm : m.ids.Nodup) (hx : m.node? x = some t) :
    moveUnder P m x = adopting P (Forest.ofTree t) (m.without [x]) := by
  rw [moveUnder, remove_eq hm hx]
  exact adopt_eq (nodup_without hm)

/-- The parent stays where a tree that does not hold it is taken out. -/
theorem mem_without (hm : m.ids.Nodup) (hx : m.node? x = some t) (hP : P ∈ m.ids)
    (hPt : P ∉ treeIds t) : P ∈ (m.without [x]).ids := by
  have := count_ids_without hm hx P
  rw [List.count_eq_zero.mpr hPt, List.count_eq_one_of_mem hm hP] at this
  exact List.count_pos_iff.mp (by omega)

/-- A move changes no nodes. -/
theorem perm_moveUnder (hm : m.ids.Nodup) (hx : m.node? x = some t) (hP : P ∈ m.ids)
    (hPt : P ∉ treeIds t) : (moveUnder P m x).preorder.Perm m.preorder := by
  rw [moveUnder_eq hm hx]
  exact (perm_adopting (nodup_without hm) (mem_without hm hx hP hPt)).trans (perm_without hm hx)

/-- After a move a node is found with what is left below it. -/
theorem node?_moveUnder (hm : m.ids.Nodup) (hx : m.node? x = some u) (hP : P ∈ m.ids)
    (hPu : P ∉ treeIds u) (hy : m.node? y = some t) (hPt : P ∉ treeIds t) :
    (moveUnder P m x).node? y = some ⟨t.label, without [x] t.children⟩ := by
  have hcount := count_ids_without hm hx
  have hxu : x ∉ ids u.children := by
    have := nodup_treeIds hm hx
    rw [treeIds_eq, (node?_spec hx).1] at this
    exact (List.nodup_cons.mp this).1
  rw [moveUnder_eq hm hx]
  by_cases hyu : y ∈ treeIds u
  · -- the node moves along
    have hP' := mem_without hm hx hP hPu
    have hy' : y ∉ (m.without [x]).ids := by
      have := hcount y
      rw [List.count_eq_one_of_mem hm (mem_of_node? hy),
        List.count_eq_one_of_mem (nodup_treeIds hm hx) hyu] at this
      exact List.count_eq_zero.mp (by omega)
    rw [node?_adopting_new (nodup_without hm) hP' hy', Forest.ofTree, node?_node]
    by_cases hux : u.label.id = y
    · rw [if_pos hux]
      obtain rfl : x = y := (node?_spec hx).1.symm.trans hux
      cases hx.symm.trans hy
      rw [without_of_not_mem hxu]
    · rw [if_neg hux, node?_nil, Option.or_none]
      rw [treeIds_eq, List.mem_cons] at hyu
      have hyc := hyu.resolve_left fun e => hux e.symm
      have hfound := node?_children hm hx hyc
      rw [hy] at hfound
      rw [← hfound, without_of_not_mem fun h => hxu (treeIds_subset hfound.symm (by
        rw [treeIds_eq]; exact List.mem_cons_of_mem _ h))]
  · -- the node stays, perhaps with less below it
    refine node?_adopting (nodup_without hm) (node?_without hm hx hy hyu) ?_ fun h => hyu h
    intro h
    refine hPt ?_
    rw [treeIds_eq] at h ⊢
    rcases List.mem_cons.mp h with h | h
    · exact List.mem_cons.mpr (Or.inl h)
    · exact List.mem_cons_of_mem _ ((without_sublist [x] t.children).subset h)

/-- Trees of a row without some nodes below them. -/
def bared (m : Markup) (xs : List NodeId) : List NodeId → Markup
  | [] => .nil
  | y :: ys =>
    match m.node? y with
    | some t => .node t.label (without xs t.children) (bared m xs ys)
    | none => bared m xs ys

theorem Movable.step (h : Movable P (x :: xs) m) : Movable P xs (moveUnder P m x) := by
  obtain ⟨u, hu, hPu⟩ := h.tree x (List.mem_cons_self ..)
  have hperm := (perm_moveUnder h.nodup hu h.parent hPu).map (·.id)
  refine ⟨hperm.nodup_iff.mpr h.nodup, hperm.mem_iff.mpr h.parent, fun y hy => ?_⟩
  obtain ⟨t, ht, hPt⟩ := h.tree y (List.mem_cons_of_mem _ hy)
  refine ⟨_, node?_moveUnder h.nodup hu h.parent hPu ht hPt, fun hP => hPt ?_⟩
  rw [treeIds_eq] at hP ⊢
  rcases List.mem_cons.mp hP with hP | hP
  · exact List.mem_cons.mpr (Or.inl hP)
  · exact List.mem_cons_of_mem _ ((without_sublist [x] t.children).subset hP)

/-- One move under the eyes of those that follow. -/
theorem bared_moveUnder (h : Movable P (x :: xs) m) (hys : ys ⊆ xs) :
    bared (moveUnder P m x) xs ys = bared m (x :: xs) ys := by
  obtain ⟨u, hu, hPu⟩ := h.tree x (List.mem_cons_self ..)
  induction ys with
  | nil => rfl
  | cons y ys ih =>
    obtain ⟨t, ht, hPt⟩ := h.tree y (List.mem_cons_of_mem _ (hys (List.mem_cons_self ..)))
    rw [bared, bared, node?_moveUnder h.nodup hu h.parent hPu ht hPt, ht,
      ih fun z hz => hys (List.mem_cons_of_mem _ hz)]
    simp only [without_without, List.singleton_append]

theorem perm_foldl_moveUnder (h : Movable P xs m) :
    (xs.foldl (moveUnder P) m).preorder.Perm m.preorder := by
  induction xs generalizing m with
  | nil => exact .refl _
  | cons x xs ih =>
    obtain ⟨u, hu, hPu⟩ := h.tree x (List.mem_cons_self ..)
    exact (ih h.step).trans (perm_moveUnder h.nodup hu h.parent hPu)

/-- A series of moves takes every moved node out of its place and lists the last moves in order
below the parent. -/
theorem foldl_moveUnder (h : Movable P xs m) :
    xs.foldl (moveUnder P) m = adopting P (bared m xs xs.dedup) (m.without xs) := by
  induction xs generalizing m with
  | nil =>
    rw [List.foldl_nil, List.dedup_nil, bared, without_of_disjoint fun x hx => absurd hx (List.not_mem_nil)]
    exact (Forest.extendBelow_nil _ m).symm
  | cons x xs ih =>
    obtain ⟨u, hu, hPu⟩ := h.tree x (List.mem_cons_self ..)
    have hlabel := (node?_spec hu).1
    have hPxs : P ∉ xs := fun hP => by
      obtain ⟨t, ht, hPt⟩ := h.tree P (List.mem_cons_of_mem _ hP)
      refine hPt ?_
      rw [treeIds_eq, (node?_spec ht).1]
      exact List.mem_cons_self ..
    have hxu : x ∉ ids u.children := by
      have := nodup_treeIds h.nodup hu
      rw [treeIds_eq, hlabel] at this
      exact (List.nodup_cons.mp this).1
    rw [List.foldl_cons, ih h.step, bared_moveUnder h (List.dedup_subset xs),
      moveUnder_eq h.nodup hu, without_adopting hPxs, without_without, List.singleton_append,
      adopting_adopting, Forest.ofTree, without_node, without_nil, hlabel]
    by_cases hx : x ∈ xs
    · rw [if_pos hx, List.dedup_cons_of_mem hx]
      rfl
    · rw [if_neg hx, List.dedup_cons_of_notMem hx, bared, hu]
      have hsplit : without (x :: xs) u.children = without xs u.children := by
        rw [← List.singleton_append, ← without_without, without_of_not_mem hxu]
      simp only [hsplit]
      rfl

end Markup

end Standoff
