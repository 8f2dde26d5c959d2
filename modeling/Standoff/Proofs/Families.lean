import Mathlib.Algebra.Order.BigOperators.Group.List
import Mathlib.Algebra.Order.Ring.Nat
import Mathlib.Data.List.Perm.Subperm
import Mathlib.Logic.Function.Basic
import Mathlib.Logic.Relation
import Standoff.Proofs.Shape

/-!
# Families: ordered forests told by rows

What an arena should be is a set of nodes, each with the row of its children.  Nodes come into being
alone, are put into rows and taken out of them, and are given back with all that is below them.
None of this needs links or slots.

* `Family`, `Family.append`, `Family.insertBefore`, `Family.insertAfter`, `Family.detach`,
  `Family.release`: the rows, and what is done to them.
* `Family.Sound`: every node is in the row of its parent only, and none is above itself.  Each
  operation keeps this.
* `Family.Sound.below_spec`: the tree below a node, in which no node comes twice.
* `Family.links`: the links that a node should have.
-/

namespace Standoff

/-! ## Rows with one more node -/

section Rows

variable {x y c : NodeId} {l l₁ l₂ : List NodeId}

/-- A node of a row without repeats is on neither side of itself. -/
theorem not_mem_sides (h : (l₁ ++ x :: l₂).Nodup) : x ∉ l₁ ∧ x ∉ l₂ :=
  not_or.mp (List.mem_append.not.mp (List.nodup_cons.mp (List.nodup_middle.mp h)).1)

/-- A row without repeats has no more nodes than there are slots. -/
theorem length_le_of_nodup {bound : Nat} (h : l.Nodup) (hlt : ∀ x ∈ l, x < bound) :
    l.length ≤ bound := by
  simpa using (h.subperm fun x hx => List.mem_range.mpr (hlt x hx)).length_le

theorem insertIdx_before (h : x ∉ l₁) :
    (l₁ ++ x :: l₂).insertIdx ((l₁ ++ x :: l₂).idxOf x) c = l₁ ++ c :: x :: l₂ := by
  rw [List.idxOf_append_of_notMem h, List.idxOf_cons_self, Nat.add_zero]
  induction l₁ with
  | nil => rfl
  | cons y l₁ ih => simpa using ih (fun hx => h (List.mem_cons_of_mem _ hx))

theorem insertIdx_after (h : x ∉ l₁) :
    (l₁ ++ x :: l₂).insertIdx ((l₁ ++ x :: l₂).idxOf x + 1) c = (l₁ ++ [x]) ++ c :: l₂ := by
  rw [List.idxOf_append_of_notMem h, List.idxOf_cons_self, Nat.add_zero]
  induction l₁ with
  | nil => rfl
  | cons y l₁ ih => simpa using ih (fun hx => h (List.mem_cons_of_mem _ hx))

namespace Links

theorem after?_of_last (h : x ∉ l₁) : after? x (l₁ ++ [x] ++ l₂) = l₂.head? := by
  rw [List.append_assoc]
  exact after?_append h

/-- A new node comes after the last one to its left. -/
theorem after?_insert (h : (l₁ ++ l₂).Nodup) (hx : x ≠ c) :
    after? x (l₁ ++ c :: l₂) = if l₁.getLast? = some x then some c else after? x (l₁ ++ l₂) := by
  induction l₁ with
  | nil => rw [List.nil_append, after?, if_neg hx.symm]; rfl
  | cons y l₁ ih =>
    rw [List.cons_append] at h
    obtain ⟨hy, h⟩ := List.nodup_cons.mp h
    rw [List.cons_append, List.cons_append, after?, after?, ih h]
    cases l₁ with
    | nil =>
      by_cases hyx : y = x
      · subst hyx
        simp
      · simp [hyx]
    | cons z l₁ =>
      rw [List.getLast?_cons_cons]
      by_cases hyx : y = x
      · subst hyx
        have hlast : (z :: l₁).getLast? ≠ some y := fun hlast =>
          hy (List.mem_append_left _ (List.mem_of_getLast? hlast))
        simp [hlast]
      · simp [hyx]

/-- A new node comes before the first one to its right. -/
theorem before?_insert (h : (l₁ ++ l₂).Nodup) (hx : x ∈ l₁ ++ l₂) (hc : c ∉ l₁ ++ l₂) :
    before? x (l₁ ++ c :: l₂) = if l₂.head? = some x then some c else before? x (l₁ ++ l₂) := by
  have hxc : x ≠ c := fun heq => hc (heq ▸ hx)
  rcases List.mem_append.mp hx with hx | hx
  · obtain ⟨u, v, rfl⟩ := List.append_of_mem hx
    have hsplit (w : List NodeId) : u ++ x :: v ++ w = u ++ x :: (v ++ w) := by simp
    rw [hsplit] at h
    obtain ⟨hxu, hxv⟩ := not_mem_sides h
    have hhead : l₂.head? ≠ some x := fun hhead =>
      hxv (List.mem_append_right _ (List.mem_of_head? hhead))
    rw [hsplit, hsplit, if_neg hhead, before?_append hxu hxv, before?_append hxu]
    simp only [List.mem_append, List.mem_cons, not_or] at hxv ⊢
    exact ⟨hxv.1, hxc, hxv.2⟩
  · obtain ⟨u, v, rfl⟩ := List.append_of_mem hx
    rw [← List.append_assoc] at h
    obtain ⟨hxu, hxv⟩ := not_mem_sides h
    rw [← List.cons_append, ← List.append_assoc, ← List.append_assoc, before?_append hxu hxv,
      before?_append (by simp [hxc] at hxu ⊢; exact hxu) hxv]
    cases u with
    | nil => simp
    | cons y u =>
      have hy : y ≠ x := fun heq => hxu (by simp [heq])
      simp [hy, List.getLast?_append, List.getLast?_cons]

/-- Where a node was taken out, its neighbours meet. -/
theorem after?_erase (h : (l₁ ++ c :: l₂).Nodup) (hx : x ≠ c) :
    after? x (l₁ ++ l₂) = if l₁.getLast? = some x then l₂.head? else after? x (l₁ ++ c :: l₂) := by
  have hnodup : (l₁ ++ l₂).Nodup := h.sublist ((List.sublist_cons_self c l₂).append_left l₁)
  by_cases hlast : l₁.getLast? = some x
  · obtain ⟨u, rfl⟩ := List.getLast?_eq_some_iff.mp hlast
    rw [List.append_assoc] at hnodup
    rw [if_pos hlast, after?_of_last (not_mem_sides hnodup).1]
  · rw [if_neg hlast, after?_insert hnodup hx, if_neg hlast]

theorem before?_erase (h : (l₁ ++ c :: l₂).Nodup) (hx : x ∈ l₁ ++ l₂) :
    before? x (l₁ ++ l₂) =
      if l₂.head? = some x then l₁.getLast? else before? x (l₁ ++ c :: l₂) := by
  have hc : c ∉ l₁ ++ l₂ := (List.nodup_cons.mp (List.nodup_middle.mp h)).1
  have hnodup : (l₁ ++ l₂).Nodup := h.sublist ((List.sublist_cons_self c l₂).append_left l₁)
  by_cases hhead : l₂.head? = some x
  · obtain ⟨v, rfl⟩ := List.head?_eq_some_iff.mp hhead
    obtain ⟨hxl, hxv⟩ := not_mem_sides hnodup
    rw [if_pos hhead, before?_append hxl hxv]
  · rw [if_neg hhead, before?_insert hnodup hx hc, if_neg hhead]

end Links

end Rows

/-! ## Forests that rows make -/

/-- The rows below the nodes of a forest are the given ones. -/
def Unfolds (row : NodeId → List NodeId) : Forest NodeId → Prop
  | .nil => True
  | .node x kids rest => kids.labels = row x ∧ Unfolds row kids ∧ Unfolds row rest

/-- The forest of a row, down to a depth. -/
def forestOf (row : NodeId → List NodeId) : Nat → List NodeId → Forest NodeId
  | 0, _ => .nil
  | depth + 1, xs => xs.foldr (fun x rest => .node x (forestOf row depth (row x)) rest) .nil

section Unfolding

variable {row : NodeId → List NodeId} {f : Forest NodeId} {x y : NodeId}

/-- No forest is deeper than it is large. -/
theorem Unfolds.forestOf_eq (h : Unfolds row f) {depth : Nat} (hdepth : f.size ≤ depth) :
    forestOf row depth f.labels = f := by
  induction f generalizing depth with
  | nil => cases depth <;> rfl
  | node x kids rest ihk ihr =>
    obtain ⟨hrow, hkids, hrest⟩ := h
    have hsize : (Forest.node x kids rest).size = 1 + kids.size + rest.size := rfl
    obtain ⟨d, rfl⟩ : ∃ d, depth = d + 1 := ⟨depth - 1, by omega⟩
    have hk := ihk hkids (show kids.size ≤ d by omega)
    have hr := ihr hrest (show rest.size ≤ d + 1 by omega)
    rw [forestOf] at hr ⊢
    rw [Forest.labels_node, List.foldr_cons, hr, ← hrow, hk]

/-- What stands below a node of a forest stands in the forest. -/
theorem Unfolds.row_subset (h : Unfolds row f) (hx : x ∈ f.preorder) (hy : y ∈ row x) :
    y ∈ f.preorder := by
  induction f with
  | nil => cases hx
  | node z kids rest ihk ihr =>
    obtain ⟨hrow, hkids, hrest⟩ := h
    rw [Forest.preorder_node, List.mem_cons, List.mem_append] at hx ⊢
    rcases hx with rfl | hx | hx
    · exact .inr (.inl (Forest.labels_subset_preorder (hrow ▸ hy)))
    · exact .inr (.inl (ihk hkids hx))
    · exact .inr (.inr (ihr hrest hx))

end Unfolding

/-! ## Families -/

/-- Nodes in rows, and the numbers that were given back. -/
structure Family where
  live : List NodeId := []
  /-- The children of a node, left to right. -/
  row : NodeId → List NodeId := fun _ => []
  parent : NodeId → Option NodeId := fun _ => none
  released : List NodeId := []

namespace Family

/-- What stands below a node. -/
def below (s : Family) (x : NodeId) : Forest NodeId := forestOf s.row s.live.length (s.row x)

/-- A node and all below it. -/
def clan (s : Family) (x : NodeId) : List NodeId := x :: (s.below x).preorder

/-- A new node, which may have a number that was given back. -/
def alloc (s : Family) (id : NodeId) : Family :=
  { s with live := id :: s.live, released := s.released.erase id }

/-- Puts a node into the row of `p`, which then is `row`. -/
def join (s : Family) (p c : NodeId) (row : List NodeId) : Family :=
  { s with row := Function.update s.row p row, parent := Function.update s.parent c (some p) }

def append (s : Family) (p c : NodeId) : Family := s.join p c (s.row p ++ [c])

def insertBefore (s : Family) (p : NodeId) (anchor : Option NodeId) (c : NodeId) : Family :=
  match anchor with
  | none => s.append p c
  | some x => s.join p c ((s.row p).insertIdx ((s.row p).idxOf x) c)

def insertAfter (s : Family) (sibling c : NodeId) : Family :=
  match s.parent sibling with
  | none => s
  | some p => s.join p c ((s.row p).insertIdx ((s.row p).idxOf sibling + 1) c)

def detach (s : Family) (x : NodeId) : Family :=
  match s.parent x with
  | none => s
  | some p =>
    { s with
      row := Function.update s.row p ((s.row p).erase x)
      parent := Function.update s.parent x none }

/-- Gives back a node and all below it. -/
def release (s : Family) (x : NodeId) : Family where
  live := s.live.filter (· ∉ s.clan x)
  row q := if q ∈ s.clan x then [] else s.row q
  parent q := if q ∈ s.clan x then none else s.parent q
  released := s.clan x ++ s.released

/-- The first node is the parent of the second one. -/
def Over (s : Family) (x y : NodeId) : Prop := s.parent y = some x

/-- Every node is in the row of its parent only, once, and no way down leads back. -/
structure Sound (s : Family) : Prop where
  live_nodup : s.live.Nodup
  row_nodup : ∀ p, (s.row p).Nodup
  mem_row : ∀ {p c}, c ∈ s.row p ↔ s.Over p c
  inside : ∀ {p c}, s.Over p c → p ∈ s.live ∧ c ∈ s.live
  ranked : ∃ rank : NodeId → Nat, ∀ p c, s.Over p c → rank c < rank p

/-- The first node is the parent of the second one, or further up. -/
def Above (s : Family) : NodeId → NodeId → Prop := Relation.TransGen s.Over

variable {s : Family} {p c x y z : NodeId} {f : Forest NodeId} {l₁ l₂ : List NodeId}

/-! ## Trees of a sound family -/

/-- The nodes of a forest over which `p` stands are below `p`. -/
theorem above_of_mem (hrows : Unfolds s.row f) (hf : ∀ y ∈ f.labels, s.Over p y)
    (hmem : ∀ {p c}, c ∈ s.row p ↔ s.Over p c) (hy : y ∈ f.preorder) : s.Above p y := by
  induction f generalizing p with
  | nil => cases hy
  | node x kids rest ihk ihr =>
    obtain ⟨hrow, hkids, hrest⟩ := hrows
    have hx : s.Over p x := hf x (List.mem_cons_self ..)
    rw [Forest.preorder_node, List.mem_cons, List.mem_append] at hy
    rcases hy with rfl | hy | hy
    · exact .single hx
    · exact .head hx (ihk hkids (fun z hz => hmem.mp (hrow ▸ hz)) hy)
    · exact ihr hrest (fun z hz => hf z (List.mem_cons_of_mem _ hz)) hy

/-- The nodes of such a forest are those of its row and what is below them. -/
theorem reached_of_mem (hrows : Unfolds s.row f) (hf : ∀ y ∈ f.labels, s.Over p y)
    (hmem : ∀ {p c}, c ∈ s.row p ↔ s.Over p c) (hz : z ∈ f.preorder) :
    ∃ y ∈ f.labels, Relation.ReflTransGen s.Over y z := by
  induction f with
  | nil => cases hz
  | node x kids rest _ ih =>
    obtain ⟨hrow, hkids, hrest⟩ := hrows
    rw [Forest.preorder_node, List.mem_cons, List.mem_append] at hz
    rcases hz with rfl | hz | hz
    · exact ⟨z, List.mem_cons_self .., .refl⟩
    · have habove := above_of_mem hkids (fun y hy => hmem.mp (hrow ▸ hy)) hmem hz
      exact ⟨x, List.mem_cons_self .., habove.to_reflTransGen⟩
    · obtain ⟨y, hy, hyz⟩ := ih hrest (fun y hy => hf y (List.mem_cons_of_mem _ hy)) hz
      exact ⟨y, List.mem_cons_of_mem _ hy, hyz⟩

theorem rank_above {rank : NodeId → Nat} (hrank : ∀ p c, s.Over p c → rank c < rank p)
    (hxy : s.Above x y) : rank y < rank x := by
  induction hxy with
  | single hy => exact hrank _ _ hy
  | tail _ hz ih => exact Nat.lt_trans (hrank _ _ hz) ih

namespace Sound

variable (h : s.Sound)
include h

/-- A node is loose if it is in no row. -/
theorem loose_of_row (hx : ∀ p, x ∉ s.row p) : s.parent x = none :=
  Option.eq_none_iff_forall_ne_some.mpr fun p hp => hx p (h.mem_row.mpr hp)

theorem loose_of_out (hx : x ∉ s.live) : s.parent x = none :=
  h.loose_of_row fun _ hmem => hx (h.inside (h.mem_row.mp hmem)).2

theorem not_above_self (x : NodeId) : ¬ s.Above x x := by
  obtain ⟨rank, hrank⟩ := h.ranked
  exact fun hx => Nat.lt_irrefl _ (rank_above hrank hx)

theorem ne_parent (hx : s.Over p x) : x ≠ p :=
  fun heq => h.not_above_self p (.single (heq ▸ hx))

theorem not_beside (hrow : s.row p = l₁ ++ x :: l₂) : x ∉ l₁ ∧ x ∉ l₂ :=
  not_mem_sides (hrow ▸ h.row_nodup p)

theorem live_of_above (hxy : s.Above x y) : y ∈ s.live := by
  cases hxy with
  | single hy => exact (h.inside hy).2
  | tail _ hy => exact (h.inside hy).2

omit h in
/-- Of two nodes above a third one, one is above the other. -/
theorem comparable (hxz : Relation.ReflTransGen s.Over x z)
    (hyz : Relation.ReflTransGen s.Over y z) :
    Relation.ReflTransGen s.Over x y ∨ Relation.ReflTransGen s.Over y x := by
  -- seen from below, the nodes above `z` are one after another
  have hunique : Relator.RightUnique (Function.swap s.Over) :=
    fun a b c hb hc => Option.some.inj (hb.symm.trans hc)
  rw [← Relation.reflTransGen_swap] at hxz hyz
  rcases hxz.total_of_right_unique hunique hyz with hxy | hxy
  · exact .inr (Relation.reflTransGen_swap.mp hxy)
  · exact .inl (Relation.reflTransGen_swap.mp hxy)

/-- A node is below no more than one node of a row. -/
theorem unique_above (hx : s.Over p x) (hy : s.Over p y) (hxz : Relation.ReflTransGen s.Over x z)
    (hyz : Relation.ReflTransGen s.Over y z) : x = y := by
  have key {u v : NodeId} (hu : s.Over p u) (hv : s.Over p v)
      (huv : Relation.ReflTransGen s.Over u v) : u = v := by
    rcases Relation.ReflTransGen.cases_tail huv with heq | ⟨q, huq, hq⟩
    · exact heq.symm
    · cases hv.symm.trans hq
      exact absurd (Relation.TransGen.head' hu huq) (h.not_above_self p)
  rcases comparable hxz hyz with hxy | hyx
  · exact key hx hy hxy
  · exact (key hy hx hyx).symm

theorem mem_preorder (hf : f.labels = s.row x) (hrows : Unfolds s.row f) :
    y ∈ f.preorder ↔ s.Above x y := by
  constructor
  · exact above_of_mem hrows (fun z hz => h.mem_row.mp (hf ▸ hz)) h.mem_row
  · intro hxy
    induction hxy with
    | single hy => exact Forest.labels_subset_preorder (hf ▸ h.mem_row.mpr hy)
    | tail _ hz ih => exact hrows.row_subset ih (h.mem_row.mpr hz)

theorem preorder_nodup (hrows : Unfolds s.row f) (hlabels : f.labels.Nodup)
    (hf : ∀ y ∈ f.labels, s.Over p y) : f.preorder.Nodup := by
  induction f generalizing p with
  | nil => exact .nil
  | node x kids rest ihk ihr =>
    obtain ⟨hrow, hkids, hrest⟩ := hrows
    obtain ⟨hx, hlabels⟩ := List.nodup_cons.mp hlabels
    have hpx : s.Over p x := hf x (List.mem_cons_self ..)
    have hprest : ∀ y ∈ rest.labels, s.Over p y := fun y hy => hf y (List.mem_cons_of_mem _ hy)
    have hover : ∀ y ∈ kids.labels, s.Over x y := fun y hy => h.mem_row.mp (hrow ▸ hy)
    -- what is at or below `x` is not at or below another node of the row
    have hapart : ∀ z ∈ rest.preorder, ¬ Relation.ReflTransGen s.Over x z := fun z hz hxz => by
      obtain ⟨y, hy, hyz⟩ := reached_of_mem hrest hprest h.mem_row hz
      exact hx (h.unique_above hpx (hprest y hy) hxz hyz ▸ hy)
    rw [Forest.preorder_node, List.nodup_cons, List.mem_append, not_or]
    refine ⟨⟨fun hmem => ?_, fun hmem => hapart x hmem .refl⟩, List.nodup_append.mpr
      ⟨ihk hkids (hrow ▸ h.row_nodup x) hover, ihr hrest hlabels hprest, fun y hy z hz heq => ?_⟩⟩
    · exact h.not_above_self x (above_of_mem hkids hover h.mem_row hmem)
    · exact hapart z hz (heq ▸ (above_of_mem hkids hover h.mem_row hy).to_reflTransGen)

/-- Every row unfolds. -/
theorem exists_unfolds (x : NodeId) : ∃ f, f.labels = s.row x ∧ Unfolds s.row f := by
  obtain ⟨rank, hrank⟩ := h.ranked
  induction hn : rank x using Nat.strongRecOn generalizing x with
  | ind n ih =>
    have key : ∀ xs : List NodeId, (∀ y ∈ xs, s.Over x y) →
        ∃ f : Forest NodeId, f.labels = xs ∧ Unfolds s.row f := by
      intro xs
      induction xs with
      | nil => exact fun _ => ⟨.nil, rfl, trivial⟩
      | cons y ys ihs =>
        intro hxs
        obtain ⟨rest, hlabels, hrest⟩ := ihs fun z hz => hxs z (List.mem_cons_of_mem _ hz)
        have hlt : rank y < n := hn ▸ hrank _ _ (hxs y (List.mem_cons_self ..))
        obtain ⟨kids, hrow, hkids⟩ := ih _ hlt y rfl
        exact ⟨.node y kids rest, by rw [Forest.labels_node, hlabels], hrow, hkids, hrest⟩
    exact key _ fun y hy => h.mem_row.mp hy

/-- What stands below a node: its row, the rows of that, and so on, and no node twice. -/
theorem below_spec (x : NodeId) : (s.below x).labels = s.row x ∧ Unfolds s.row (s.below x) ∧
    (s.clan x).Nodup ∧ ∀ y, y ∈ s.clan x ↔ y = x ∨ s.Above x y := by
  obtain ⟨f, hlabels, hrows⟩ := h.exists_unfolds x
  have hnodup := h.preorder_nodup hrows (hlabels ▸ h.row_nodup x) fun y hy =>
    h.mem_row.mp (hlabels ▸ hy)
  have hlive : f.preorder ⊆ s.live := fun y hy =>
    h.live_of_above ((h.mem_preorder hlabels hrows).mp hy)
  have hsize : f.size ≤ s.live.length := by
    rw [← Forest.length_preorder]
    exact (hnodup.subperm hlive).length_le
  have hbelow : s.below x = f := by rw [below, ← hlabels, hrows.forestOf_eq hsize]
  rw [clan, hbelow]
  refine ⟨hlabels, hrows, List.nodup_cons.mpr ⟨fun hx => ?_, hnodup⟩, fun y => ?_⟩
  · exact h.not_above_self x ((h.mem_preorder hlabels hrows).mp hx)
  · rw [List.mem_cons, h.mem_preorder hlabels hrows]

theorem mem_clan : y ∈ s.clan x ↔ Relation.ReflTransGen s.Over x y := by
  rw [(h.below_spec x).2.2.2, Relation.reflTransGen_iff_eq_or_transGen]
  rfl

theorem clan_live (hx : x ∈ s.live) (hy : y ∈ s.clan x) : y ∈ s.live := by
  rcases (h.below_spec x).2.2.2 y |>.mp hy with rfl | habove
  · exact hx
  · exact h.live_of_above habove

/-- A node is at or below no more than one loose node. -/
theorem clan_apart (hx : s.parent x = none) (hy : s.parent y = none) (hzx : z ∈ s.clan x)
    (hzy : z ∈ s.clan y) : x = y := by
  have key {u v : NodeId} (hv : s.parent v = none) (huv : Relation.ReflTransGen s.Over u v) :
      u = v := by
    rcases Relation.ReflTransGen.cases_tail huv with heq | ⟨q, -, hq⟩
    · exact heq.symm
    · cases hv.symm.trans hq
  rcases comparable (h.mem_clan.mp hzx) (h.mem_clan.mp hzy) with hxy | hyx
  · exact key hy hxy
  · exact (key hx hyx).symm

/-- Every node is at or below a loose one. -/
theorem exists_loose (hz : z ∈ s.live) : ∃ x ∈ s.live, s.parent x = none ∧ z ∈ s.clan x := by
  obtain ⟨rank, hrank⟩ := h.ranked
  -- upwards the ranks grow, but not over the sum of all
  induction hn : (s.live.map rank).sum - rank z using Nat.strongRecOn generalizing z with
  | ind n ih =>
    cases hparent : s.parent z with
    | none => exact ⟨z, hz, hparent, List.mem_cons_self ..⟩
    | some p =>
      have hp : p ∈ s.live := (h.inside hparent).1
      have hlt := hrank p z hparent
      have hle : rank p ≤ (s.live.map rank).sum :=
        List.single_le_sum (fun _ _ => Nat.zero_le _) _ (List.mem_map_of_mem hp)
      obtain ⟨x, hx, hloose, hclan⟩ := ih _ (by omega) hp rfl
      exact ⟨x, hx, hloose, h.mem_clan.mpr ((h.mem_clan.mp hclan).tail hparent)⟩

/-- The live nodes are those at or below the loose ones, each once. -/
theorem flatMap_clan {ids : List NodeId} (hids : ids.Nodup)
    (hloose : ∀ x, x ∈ ids ↔ x ∈ s.live ∧ s.parent x = none) :
    (ids.flatMap s.clan).Perm s.live := by
  refine (List.perm_ext_iff_of_nodup (List.nodup_flatMap.mpr
    ⟨fun x _ => (h.below_spec x).2.2.1, hids.imp_of_mem fun hx hy hne z hzx hzy => ?_⟩)
    h.live_nodup).mpr fun z => ?_
  · exact hne (h.clan_apart ((hloose _).mp hx).2 ((hloose _).mp hy).2 hzx hzy)
  · rw [List.mem_flatMap]
    constructor
    · rintro ⟨x, hx, hz⟩
      exact h.clan_live ((hloose x).mp hx).1 hz
    · intro hz
      obtain ⟨x, hx, hparent, hclan⟩ := h.exists_loose hz
      exact ⟨x, (hloose x).mpr ⟨hx, hparent⟩, hclan⟩

/-! ## Operations on sound families -/

theorem alloc {id : NodeId} (hid : id ∉ s.live) : (s.alloc id).Sound where
  live_nodup := List.nodup_cons.mpr ⟨hid, h.live_nodup⟩
  row_nodup := h.row_nodup
  mem_row := h.mem_row
  inside hc := ⟨List.mem_cons_of_mem _ (h.inside hc).1, List.mem_cons_of_mem _ (h.inside hc).2⟩
  ranked := h.ranked

omit h in
theorem over_join (hc : s.parent c = none) {row : List NodeId} :
    (s.join p c row).Over x y ↔ (x = p ∧ y = c) ∨ s.Over x y := by
  unfold Over join
  by_cases hy : y = c
  · subst hy
    simp [hc, eq_comm]
  · simp [hy]

theorem join (hp : p ∈ s.live) (hc : c ∈ s.live) (hloose : s.parent c = none)
    (hnot : p ∉ s.clan c) (hrow : s.row p = l₁ ++ l₂) : (s.join p c (l₁ ++ c :: l₂)).Sound where
  live_nodup := h.live_nodup
  row_nodup q := by
    have hout : c ∉ l₁ ++ l₂ := fun hmem => by
      have := h.mem_row.mp (hrow ▸ hmem)
      rw [Over, hloose] at this
      cases this
    by_cases hq : q = p
    · subst hq
      simp only [Family.join, Function.update_self]
      exact List.perm_middle.nodup_iff.mpr (List.nodup_cons.mpr ⟨hout, hrow ▸ h.row_nodup q⟩)
    · simp only [Family.join, Function.update_of_ne hq]
      exact h.row_nodup q
  mem_row {q z} := by
    rw [over_join hloose, ← h.mem_row]
    by_cases hq : q = p
    · subst hq
      simp only [Family.join, Function.update_self, hrow, List.mem_append, List.mem_cons]
      tauto
    · simp only [Family.join, Function.update_of_ne hq, hq, false_and, false_or]
  inside hover := by
    rcases (over_join hloose).mp hover with ⟨rfl, rfl⟩ | hover
    · exact ⟨hp, hc⟩
    · exact h.inside hover
  ranked := by
    classical
    obtain ⟨rank, hrank⟩ := h.ranked
    -- all that is at or above `p` rises above `c`
    let up (x : NodeId) : Prop := Relation.ReflTransGen s.Over x p
    have hup : ¬ up c := fun hcp => hnot (h.mem_clan.mpr hcp)
    refine ⟨fun x => rank x + if up x then rank c + 1 else 0, fun q d hover => ?_⟩
    rcases (over_join hloose).mp hover with ⟨rfl, rfl⟩ | hover
    · have hp : up q := .refl
      simp only [hp, hup, if_true, if_false]
      omega
    · have hlt := hrank q d hover
      by_cases hd : up d
      · have hq : up q := .head hover hd
        simp only [hd, hq, if_true]
        omega
      · simp only [hd, if_false]
        omega

theorem detach (x : NodeId) : (s.detach x).Sound := by
  cases hx : s.parent x with
  | none =>
    rw [Family.detach, hx]
    exact h
  | some p =>
    have hover {q d : NodeId} : (s.detach x).Over q d ↔ d ≠ x ∧ s.Over q d := by
      unfold Over Family.detach
      rw [hx]
      by_cases hd : d = x
      · simp [hd]
      · simp [hd]
    have hrow (q : NodeId) : (s.detach x).row q = (s.row q).erase x := by
      unfold Family.detach
      rw [hx]
      by_cases hq : q = p
      · simp [hq]
      · have hmem : x ∉ s.row q := fun hmem => hq <| by
          have := h.mem_row.mp hmem
          rw [Over, hx] at this
          exact (Option.some.inj this).symm
        simp [hq, List.erase_of_not_mem hmem]
    have hlive : (s.detach x).live = s.live := by
      unfold Family.detach
      rw [hx]
    refine ⟨hlive ▸ h.live_nodup, fun q => ?_, fun {q d} => ?_, fun {q d} hd => ?_, ?_⟩
    · rw [hrow]
      exact (h.row_nodup q).erase x
    · rw [hrow, hover, (h.row_nodup q).mem_erase_iff, h.mem_row]
    · rw [hlive]
      exact h.inside (hover.mp hd).2
    · obtain ⟨rank, hrank⟩ := h.ranked
      exact ⟨rank, fun q d hd => hrank q d (hover.mp hd).2⟩

/-- Nothing links the nodes at or below a loose node to other nodes. -/
theorem clan_closed (hx : s.parent x = none) (hyz : s.Over y z) :
    y ∈ s.clan x ↔ z ∈ s.clan x := by
  rw [h.mem_clan, h.mem_clan]
  constructor
  · exact fun hxy => hxy.tail hyz
  · intro hxz
    rcases Relation.ReflTransGen.cases_tail hxz with rfl | ⟨w, hxw, hwz⟩
    · cases hx.symm.trans hyz
    · cases hyz.symm.trans hwz
      exact hxw

theorem release (hx : s.parent x = none) : (s.release x).Sound := by
  have hover {q d : NodeId} : (s.release x).Over q d ↔ q ∉ s.clan x ∧ s.Over q d := by
    unfold Over Family.release
    by_cases hd : d ∈ s.clan x
    · simp only [hd, if_true]
      refine iff_of_false (fun hno => by cases hno) fun hq => hq.1 ((h.clan_closed hx hq.2).mpr hd)
    · simp only [hd, if_false]
      exact ⟨fun hq => ⟨fun hmem => hd ((h.clan_closed hx hq).mp hmem), hq⟩, fun hq => hq.2⟩
  refine ⟨h.live_nodup.filter _, fun q => ?_, fun {q d} => ?_, fun {q d} hd => ?_, ?_⟩
  · unfold Family.release
    by_cases hq : q ∈ s.clan x
    · simp only [hq, if_true]
      exact .nil
    · simp only [hq, if_false]
      exact h.row_nodup q
  · rw [hover, ← h.mem_row]
    unfold Family.release
    by_cases hq : q ∈ s.clan x
    · simp [hq]
    · simp [hq]
  · obtain ⟨hq, hd⟩ := hover.mp hd
    have hdout : d ∉ s.clan x := fun hmem => hq ((h.clan_closed hx hd).mpr hmem)
    exact ⟨List.mem_filter.mpr ⟨(h.inside hd).1, by simpa using hq⟩,
      List.mem_filter.mpr ⟨(h.inside hd).2, by simpa using hdout⟩⟩
  · obtain ⟨rank, hrank⟩ := h.ranked
    exact ⟨rank, fun q d hd => hrank q d (hover.mp hd).2⟩

end Sound

/-! ## Links -/

/-- The row in which a node stands; a loose node stands alone. -/
def siblings (s : Family) (x : NodeId) : List NodeId := (s.parent x).elim [x] s.row

/-- The links that show a node in its family. -/
def links (s : Family) (x : NodeId) : Links :=
  Links.ofRow x (s.parent x) (s.siblings x) (s.row x)

theorem links_of_loose (hx : s.parent x = none) :
    s.links x = { firstChild := (s.row x).head?, lastChild := (s.row x).getLast? } := by
  simp [links, siblings, hx, Links.ofRow, Links.before?, Links.after?]

theorem links_alloc (s : Family) (id x : NodeId) : (s.alloc id).links x = s.links x := rfl

/-- A node in a row is linked to those around it. -/
theorem links_of_row (h : s.Sound) (hrow : s.row p = l₁ ++ x :: l₂) :
    s.links x = { parent := some p, firstChild := (s.row x).head?, lastChild := (s.row x).getLast?,
                  previous := l₁.getLast?, next := l₂.head? } := by
  have hover : s.parent x = some p := h.mem_row.mp (by rw [hrow]; simp)
  obtain ⟨hx₁, hx₂⟩ := h.not_beside hrow
  simp only [links, siblings, hover, Option.elim_some, hrow, Links.ofRow, Links.after?_append hx₁,
    Links.before?_append hx₁ hx₂]

/-- The links of a row and of what is below it describe its forest. -/
theorem Sound.describes (h : s.Sound) (hrows : Unfolds s.row f) (hrow : s.row p = l₁ ++ f.labels) :
    Describes (fun x => some (s.links x)) p l₁.getLast? f := by
  induction f generalizing p l₁ with
  | nil => trivial
  | node x kids rest ihk ihr =>
    obtain ⟨hkrow, hkids, hrest⟩ := hrows
    have hsplit : s.row p = (l₁ ++ [x]) ++ rest.labels := by rw [hrow]; simp
    have hright := ihr hrest hsplit
    rw [List.getLast?_concat] at hright
    have hbelow := ihk hkids (show s.row x = [] ++ kids.labels from hkrow.symm)
    refine ⟨congrArg some ?_, hbelow, hright⟩
    rw [links_of_row h hrow, ← hkrow]

/-- A node that keeps its parent while the row of `p` changes. -/
theorem links_of_update {t : Family} {row : List NodeId} (ht : t.row = Function.update s.row p row)
    (hparent : t.parent y = s.parent y) (hself : s.parent p ≠ some p) : t.links y =
      if y = p then { s.links p with firstChild := row.head?, lastChild := row.getLast? }
      else if s.parent y = some p then
        { s.links y with previous := Links.before? y row, next := Links.after? y row }
      else s.links y := by
  unfold links siblings
  rw [ht, hparent]
  by_cases hyp : y = p
  · subst hyp
    cases hy : s.parent y with
    | none => simp [Links.ofRow]
    | some q =>
      have hq : q ≠ y := fun heq => hself (heq ▸ hy)
      simp [Links.ofRow, hq]
  · cases hy : s.parent y with
    | none => simp [Links.ofRow, hyp]
    | some q =>
      by_cases hq : q = p
      · simp [Links.ofRow, hyp, hq]
      · simp [Links.ofRow, hyp, hq]

theorem around_of_over (hy : s.parent y = some p) :
    (s.links y).previous = Links.before? y (s.row p) ∧
      (s.links y).next = Links.after? y (s.row p) := by
  simp [links, siblings, hy, Links.ofRow]

/-- What a node that joins a row changes: its own links, the ends of the row, its neighbours. -/
theorem links_join (h : s.Sound) (hloose : s.parent c = none) (hpc : p ≠ c)
    (hrow : s.row p = l₁ ++ l₂) (y : NodeId) : (s.join p c (l₁ ++ c :: l₂)).links y =
      if y = c then
        { s.links c with parent := some p, previous := l₁.getLast?, next := l₂.head? }
      else if y = p then
        { s.links p with
          firstChild := (l₁ ++ c :: l₂).head?, lastChild := (l₁ ++ c :: l₂).getLast? }
      else
        { s.links y with
          previous := if l₂.head? = some y then some c else (s.links y).previous
          next := if l₁.getLast? = some y then some c else (s.links y).next } := by
  have hmem (y : NodeId) : y ∈ l₁ ++ l₂ ↔ s.parent y = some p := by rw [← hrow, h.mem_row, Over]
  have hnodup : (l₁ ++ l₂).Nodup := hrow ▸ h.row_nodup p
  have hc : c ∉ l₁ ++ l₂ := by simp [hmem, hloose]
  obtain ⟨hc₁, hc₂⟩ := not_or.mp (List.mem_append.not.mp hc)
  by_cases hyc : y = c
  · subst hyc
    simp [links, siblings, join, Links.ofRow, hpc.symm, Links.before?_append hc₁ hc₂,
      Links.after?_append hc₁]
  · have hself : s.parent p ≠ some p := fun hover => h.ne_parent hover rfl
    rw [if_neg hyc, links_of_update rfl (Function.update_of_ne hyc _ _) hself]
    by_cases hyp : y = p
    · rw [if_pos hyp, if_pos hyp]
    · rw [if_neg hyp, if_neg hyp]
      by_cases hover : s.parent y = some p
      · obtain ⟨hprevious, hnext⟩ := around_of_over hover
        rw [if_pos hover, Links.before?_insert hnodup ((hmem y).mpr hover) hc,
          Links.after?_insert hnodup hyc, ← hrow, ← hprevious, ← hnext]
      · have hy : y ∉ l₁ ++ l₂ := fun hmem' => hover ((hmem y).mp hmem')
        have hhead : l₂.head? ≠ some y := fun hhead =>
          hy (List.mem_append_right _ (List.mem_of_head? hhead))
        have hlast : l₁.getLast? ≠ some y := fun hlast =>
          hy (List.mem_append_left _ (List.mem_of_getLast? hlast))
        rw [if_neg hover, if_neg hhead, if_neg hlast]

/-- What a node that leaves its row changes. -/
theorem links_detach (h : s.Sound) (hrow : s.row p = l₁ ++ x :: l₂) (y : NodeId) :
    (s.detach x).links y =
      if y = x then { s.links x with parent := none, previous := none, next := none }
      else if y = p then
        { s.links p with firstChild := (l₁ ++ l₂).head?, lastChild := (l₁ ++ l₂).getLast? }
      else
        { s.links y with
          previous := if l₂.head? = some y then l₁.getLast? else (s.links y).previous
          next := if l₁.getLast? = some y then l₂.head? else (s.links y).next } := by
  have hmem (y : NodeId) : y ∈ l₁ ++ x :: l₂ ↔ s.parent y = some p := by
    rw [← hrow, h.mem_row, Over]
  have hnodup : (l₁ ++ x :: l₂).Nodup := hrow ▸ h.row_nodup p
  have hx : s.parent x = some p := (hmem x).mp (by simp)
  have hself : s.parent p ≠ some p := fun hover => h.ne_parent hover rfl
  have hdetach : s.detach x = { s with
      row := Function.update s.row p (l₁ ++ l₂), parent := Function.update s.parent x none } := by
    rw [detach, hx]
    simp only
    rw [hrow, List.erase_append_right _ (h.not_beside hrow).1, List.erase_cons_head]
  rw [hdetach]
  by_cases hyx : y = x
  · subst hyx
    have hyp : y ≠ p := fun heq => hself (heq ▸ hx)
    simp [links, siblings, Links.ofRow, hyp, Links.before?, Links.after?]
  · rw [if_neg hyx, links_of_update rfl (Function.update_of_ne hyx _ _) hself]
    by_cases hyp : y = p
    · rw [if_pos hyp, if_pos hyp]
    · rw [if_neg hyp, if_neg hyp]
      by_cases hover : s.parent y = some p
      · obtain ⟨hprevious, hnext⟩ := around_of_over hover
        have hy : y ∈ l₁ ++ l₂ := by simpa [hyx] using (hmem y).mpr hover
        rw [if_pos hover, Links.before?_erase hnodup hy, Links.after?_erase hnodup hyx, ← hrow,
          ← hprevious, ← hnext]
      · have hy : y ∉ l₁ ++ x :: l₂ := fun hmem' => hover ((hmem y).mp hmem')
        have hhead : l₂.head? ≠ some y := fun hhead => hy (by simp [List.mem_of_head? hhead])
        have hlast : l₁.getLast? ≠ some y := fun hlast =>
          hy (List.mem_append_left _ (List.mem_of_getLast? hlast))
        rw [if_neg hover, if_neg hhead, if_neg hlast]

/-- Nodes that stay when others are given back keep their links. -/
theorem links_release (h : s.Sound) (hx : s.parent x = none) (hy : y ∉ s.clan x) :
    (s.release x).links y = s.links y := by
  unfold links siblings release
  cases hparent : s.parent y with
  | none => simp [hy, hparent]
  | some q =>
    have hq : q ∉ s.clan x := fun hmem => hy ((h.clan_closed hx hparent).mp hmem)
    simp [hy, hparent, hq]

end Family

end Standoff
