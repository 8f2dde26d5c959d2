import Mathlib.Data.List.Perm.Subperm
import Standoff.Arena
import Standoff.Proofs.Rows

/-! # Rows of slots in an arena

The waiting nodes of an arena form rows: one row for each open nonterminal, its slot in front of
the trees of slots below it.  A row is read from its last slot to the left, so it is described by
`previous` and `lastChild` alone.

* `Arena.Holds`: the links from a first slot to a last one hold a forest of slots.
* `Arena.Represents`: the rows of an arena, all slots distinct and none of them free.
* `Arena.represents_alloc`, `Arena.represents_append`, `Arena.represents_release`: one lemma for
  each operation on rows. -/

namespace Standoff

namespace Arena

variable {a b : Arena} {f g : Forest NodeId} {x y id : NodeId} {first last : Option NodeId}

/-! ## Slots one by one -/

theorem slot?_update (a : Arena) (id : NodeId) (u : Slot → Slot) (x : NodeId) :
    (a.update id u).slot? x = if id = x then (a.slot? x).map u else a.slot? x :=
  Array.getElem?_modify

theorem size_update (a : Arena) (id : NodeId) (u : Slot → Slot) :
    (a.update id u).slots.size = a.slots.size := Array.size_modify

theorem slot?_isSome (h : x < a.slots.size) : ∃ s, a.slot? x = some s :=
  ⟨a.slots[x], Array.getElem?_eq_getElem h⟩

theorem element_update (a : Arena) (id : NodeId) (u : Slot → Slot) (x : NodeId)
    (hu : ∀ s, (u s).element = s.element) : (a.update id u).element x = a.element x := by
  rw [element, element, slot?_update]
  split
  · cases a.slot? x with
    | none => rfl
    | some s => exact hu s
  · rfl

theorem links_update (a : Arena) (id : NodeId) (u : Slot → Slot) (x : NodeId)
    (hu : ∀ s, (u s).links = s.links) : (a.update id u).links x = a.links x := by
  rw [links, links, slot?_update]
  split
  · cases a.slot? x with
    | none => rfl
    | some s => exact hu s
  · rfl

theorem links_relink (a : Arena) (id : NodeId) (u : Links → Links) (hid : id < a.slots.size)
    (x : NodeId) : (a.relink id u).links x = if id = x then u (a.links x) else a.links x := by
  rw [relink, links, links, slot?_update]
  split
  · next hx =>
    subst hx
    obtain ⟨s, hs⟩ := slot?_isSome hid
    rw [hs]
    rfl
  · rfl

theorem element_relink (a : Arena) (id : NodeId) (u : Links → Links) (x : NodeId) :
    (a.relink id u).element x = a.element x :=
  element_update a id _ x fun _ => rfl

theorem size_relink (a : Arena) (id : NodeId) (u : Links → Links) :
    (a.relink id u).slots.size = a.slots.size := size_update a id _

/-! ## Rows -/

/-- From `first`, the slot to the left of the row, to `last` the links hold the forest. -/
def Holds (a : Arena) : Option NodeId → Forest NodeId → Option NodeId → Prop
  | first, .nil, last => last = first
  | first, .node x kids rest, last =>
    (a.links x).previous = first ∧ a.Holds none kids (a.links x).lastChild ∧
      a.Holds (some x) rest last

/-- Only `previous` and `lastChild` of the slots in the row matter. -/
theorem Holds.congr (h : a.Holds first f last)
    (hb : ∀ x ∈ f.preorder, (b.links x).previous = (a.links x).previous ∧
      (b.links x).lastChild = (a.links x).lastChild) : b.Holds first f last := by
  induction f generalizing first last with
  | nil => exact h
  | node x kids rest ihk ihr =>
    obtain ⟨h₁, h₂, h₃⟩ := h
    simp only [Forest.preorder_node, List.mem_cons, List.mem_append] at hb
    obtain ⟨hp, hl⟩ := hb x (Or.inl rfl)
    refine ⟨hp.trans h₁, ?_, ihr h₃ fun y hy => hb y (Or.inr (Or.inr hy))⟩
    rw [hl]
    exact ihk h₂ fun y hy => hb y (Or.inr (Or.inl hy))

theorem Holds.append (hf : a.Holds first f last) {next : Option NodeId}
    (hg : a.Holds last g next) : a.Holds first (f ++ g) next := by
  induction f generalizing first with
  | nil =>
    cases hf
    exact hg
  | node x kids rest _ ih =>
    obtain ⟨h₁, h₂, h₃⟩ := hf
    exact ⟨h₁, h₂, ih h₃⟩

/-- The last slot of a row that is not empty is one of its slots. -/
theorem Holds.last_mem (h : a.Holds first f (some x)) (hx : first ≠ some x) : x ∈ f.labels := by
  induction f generalizing first with
  | nil => exact absurd h.symm hx
  | node y kids rest _ ih =>
    obtain ⟨-, -, h₃⟩ := h
    by_cases hxy : x = y
    · exact hxy ▸ List.mem_cons_self ..
    · exact List.mem_cons_of_mem _ (ih h₃ fun heq => hxy (Option.some.inj heq).symm)

theorem length_labels_le {α : Type} (f : Forest α) : f.labels.length ≤ f.size := by
  rw [← Forest.length_preorder]
  exact (Forest.labels_sublist f).length_le

/-- Reading a row from its last slot. -/
theorem treesUpTo_eq (h : a.Holds first f last) (fuel : Nat) (hfuel : f.size ≤ fuel)
    (right : Forest NodeId) :
    a.treesUpTo fuel last right = a.treesUpTo (fuel - f.labels.length) first (f ++ right) := by
  induction f generalizing first last fuel right with
  | nil =>
    cases h
    rfl
  | node x kids rest ihk ihr =>
    obtain ⟨h₁, h₂, h₃⟩ := h
    have hsize : (Forest.node x kids rest).size = 1 + kids.size + rest.size := rfl
    have hlen := length_labels_le rest
    rw [hsize] at hfuel
    rw [ihr h₃ fuel (by omega) right]
    obtain ⟨k, hk⟩ : ∃ k, fuel - rest.labels.length = k + 1 :=
      ⟨fuel - rest.labels.length - 1, by omega⟩
    have hkids := ihk h₂ k (by omega) .nil
    have hnone (n : Nat) (g : Forest NodeId) : a.treesUpTo n none g = g := by
      cases n <;> rfl
    rw [hnone, Forest.append_nil] at hkids
    have hk' : fuel - (Forest.node x kids rest).labels.length = k := by
      rw [Forest.labels_node, List.length_cons]
      omega
    rw [hk, hk', treesUpTo, hkids, h₁]
    rfl

/-- What lies below a node is read off the links, if the slots differ. -/
theorem Holds.below_eq (h : a.Holds none f (a.links id).lastChild) (hnodup : f.preorder.Nodup)
    (hbound : ∀ x ∈ f.preorder, x < a.slots.size) : a.below id = f := by
  have hsize : f.size ≤ a.slots.size := by
    have hrange : f.preorder ⊆ List.range a.slots.size := fun x hx =>
      List.mem_range.mpr (hbound x hx)
    have := (hnodup.subperm hrange).length_le
    rwa [Forest.length_preorder, List.length_range] at this
  have htrees := treesUpTo_eq h a.slots.size hsize .nil
  have hnone (n : Nat) (g : Forest NodeId) : a.treesUpTo n none g = g := by
    cases n <;> rfl
  rw [hnone, Forest.append_nil] at htrees
  exact htrees

/-! ## The rows of an arena -/

/-- The open nonterminals with what waits below each. -/
abbrev Waiting := List (NodeId × Forest NodeId)

/-- The slots of all rows. -/
def Waiting.slots (w : Waiting) : List NodeId := w.flatMap fun r => r.1 :: r.2.preorder

structure Represents (a : Arena) (w : Waiting) : Prop where
  distinct : (w.slots ++ a.free).Nodup
  bound : ∀ x ∈ w.slots ++ a.free, x < a.slots.size
  alone : ∀ r ∈ w, (a.links r.1).previous = none
  rows : ∀ r ∈ w, a.Holds none r.2 (a.links r.1).lastChild

variable {w : Waiting} {r : NodeId × Forest NodeId}

theorem mem_slots (hr : r ∈ w) (hx : x = r.1 ∨ x ∈ r.2.preorder) : x ∈ w.slots :=
  List.mem_flatMap.mpr ⟨r, hr, by simpa using hx⟩

theorem Represents.lt_size (h : a.Represents w) (hx : x ∈ w.slots) : x < a.slots.size :=
  h.bound x (List.mem_append_left _ hx)

/-- What waits below an open nonterminal is read off the links. -/
theorem Represents.below_eq (h : a.Represents w) (hr : r ∈ w) : a.below r.1 = r.2 := by
  have hsub : r.2.preorder.Sublist w.slots := by
    obtain ⟨w₁, w₂, rfl⟩ := List.append_of_mem hr
    rw [Waiting.slots, List.flatMap_append, List.flatMap_cons]
    exact ((List.sublist_cons_self _ _).trans (List.sublist_append_left _ _)).trans
      (List.sublist_append_right _ _)
  exact (h.rows r hr).below_eq (h.distinct.sublist (hsub.trans (List.sublist_append_left _ _)))
    fun x hx => h.lt_size (hsub.subset hx)

/-- An arena with the same free slots, the same size and the same rows. -/
theorem Represents.congr (h : a.Represents w) (hfree : b.free = a.free)
    (hsize : b.slots.size = a.slots.size)
    (hlinks : ∀ x ∈ w.slots, (b.links x).previous = (a.links x).previous ∧
      (b.links x).lastChild = (a.links x).lastChild) : b.Represents w := by
  refine ⟨hfree ▸ h.distinct, hfree ▸ hsize ▸ h.bound, fun r hr => ?_, fun r hr => ?_⟩
  · rw [(hlinks r.1 (mem_slots hr (Or.inl rfl))).1]
    exact h.alone r hr
  · rw [(hlinks r.1 (mem_slots hr (Or.inl rfl))).2]
    exact (h.rows r hr).congr fun x hx => hlinks x (mem_slots hr (Or.inr hx))

/-- A change of content leaves the rows. -/
theorem Represents.update (h : a.Represents w) (id : NodeId) (u : Slot → Slot)
    (hu : ∀ s, (u s).links = s.links) : (a.update id u).Represents w :=
  h.congr rfl (size_update a id u) fun x _ => by
    rw [links_update a id u x hu]
    exact ⟨rfl, rfl⟩

/-! ## Allocation -/

theorem alloc_of_nil (h : a.free = []) (s : Slot) :
    a.alloc s = ({ a with slots := a.slots.push s }, a.slots.size) := by
  unfold alloc
  rw [h]

theorem alloc_of_cons {free : List NodeId} (h : a.free = id :: free) (s : Slot) :
    a.alloc s = ({ a with slots := a.slots.setIfInBounds id s, free := free }, id) := by
  unfold alloc
  rw [h]

/-- An allocation fills one slot, which was free or not there. -/
theorem slot?_alloc (hfree : ∀ id ∈ a.free, id < a.slots.size) (s : Slot) (x : NodeId) :
    (a.alloc s).1.slot? x = if x = (a.alloc s).2 then some s else a.slot? x := by
  cases hcases : a.free with
  | nil =>
    rw [alloc_of_nil hcases]
    exact Array.getElem?_push
  | cons id free =>
    have hid : id < a.slots.size := hfree id (hcases ▸ List.mem_cons_self ..)
    rw [alloc_of_cons hcases]
    show (a.slots.setIfInBounds id s)[x]? = _
    rw [Array.getElem?_setIfInBounds, if_pos hid]
    by_cases hx : id = x
    · rw [if_pos hx, if_pos hx.symm]
    · rw [if_neg hx, if_neg (Ne.symm hx)]
      rfl

theorem Represents.free_lt (h : a.Represents w) : ∀ id ∈ a.free, id < a.slots.size :=
  fun id hid => h.bound id (List.mem_append_right _ hid)

/-- A new node is in a slot of its own; the others stay. -/
theorem represents_alloc (h : a.Represents w) (s : Slot) (hs : s.links = {}) :
    (a.alloc s).1.Represents (((a.alloc s).2, .nil) :: w) ∧
      (a.alloc s).1.element (a.alloc s).2 = s.element ∧
      ∀ x ∈ w.slots, (a.alloc s).1.element x = a.element x := by
  have hplaced : ((a.alloc s).2 :: (w.slots ++ (a.alloc s).1.free)).Nodup ∧
      ∀ x ∈ (a.alloc s).2 :: (w.slots ++ (a.alloc s).1.free), x < (a.alloc s).1.slots.size := by
    have hdistinct := h.distinct
    have hbound := h.bound
    cases hfree : a.free with
    | nil =>
      rw [alloc_of_nil hfree]
      refine ⟨List.nodup_cons.mpr ⟨fun hx => ?_, hdistinct⟩, fun x hx => ?_⟩
      · exact Nat.lt_irrefl _ (hbound _ hx)
      · rw [Array.size_push]
        rcases List.mem_cons.mp hx with rfl | hx
        · exact Nat.lt_succ_self _
        · exact Nat.lt_succ_of_lt (hbound x hx)
    | cons id free =>
      rw [hfree] at hdistinct hbound
      rw [alloc_of_cons hfree]
      refine ⟨List.perm_middle.nodup_iff.mp hdistinct, fun x hx => ?_⟩
      rw [Array.size_setIfInBounds]
      exact hbound x (List.perm_middle.mem_iff.mpr hx)
  obtain ⟨hdistinct, hbound⟩ := hplaced
  have hget := slot?_alloc h.free_lt s
  have hid := (hget (a.alloc s).2).trans (if_pos rfl)
  have hold : ∀ x ∈ w.slots, (a.alloc s).1.slot? x = a.slot? x := fun x hx =>
    (hget x).trans (if_neg fun heq : x = (a.alloc s).2 =>
      (List.nodup_cons.mp hdistinct).1 (heq ▸ List.mem_append_left _ hx))
  have hlinks : (a.alloc s).1.links (a.alloc s).2 = {} := by rw [links, hid, ← hs]; rfl
  have hlinks' : ∀ x ∈ w.slots, (a.alloc s).1.links x = a.links x := fun x hx => by
    rw [links, links, hold x hx]
  refine ⟨⟨hdistinct, hbound, fun r hr => ?_, fun r hr => ?_⟩, ?_, fun x hx => ?_⟩
  · rcases List.mem_cons.mp hr with rfl | hr
    · rw [hlinks]
    · rw [hlinks' _ (mem_slots hr (Or.inl rfl))]
      exact h.alone r hr
  · rcases List.mem_cons.mp hr with rfl | hr
    · rw [hlinks]
      rfl
    · rw [hlinks' _ (mem_slots hr (Or.inl rfl))]
      exact (h.rows r hr).congr fun x hx => by
        rw [hlinks' x (mem_slots hr (Or.inr hx))]
        exact ⟨rfl, rfl⟩
  · rw [element, hid]
    rfl
  · rw [element, element, hold x hx]

/-! ## A child for an open nonterminal -/

/-- What an append does to the links that rows are read by. -/
theorem links_append {p c : NodeId} (hp : p < a.slots.size) (hc : c < a.slots.size) (hpc : p ≠ c)
    (hlast : ∀ l, (a.links p).lastChild = some l → l < a.slots.size)
    (halone : (a.links c).previous = none) (x : NodeId) :
    ((a.append p c).links x).previous =
        (if c = x then (a.links p).lastChild else (a.links x).previous) ∧
      ((a.append p c).links x).lastChild =
        if p = x then some c else (a.links x).lastChild := by
  unfold append
  cases hl : (a.links p).lastChild with
  | none =>
    simp only [setParent, setLastChild, setFirstChild]
    rw [links_relink _ _ _ (by rw [size_relink, size_relink]; exact hc),
      links_relink _ _ _ (by rw [size_relink]; exact hp), links_relink _ _ _ hp]
    constructor
    · by_cases h₁ : c = x
      · subst h₁
        simp [hpc, halone]
      · simp only [h₁, if_false]
        split <;> rfl
    · by_cases h₂ : p = x
      · subst h₂
        simp [hpc.symm]
      · simp only [h₂, if_false]
        split <;> rfl
  | some l =>
    have hls := hlast l hl
    simp only [setParent, setLastChild, setPrevious, setNext]
    rw [links_relink _ _ _ (by rw [size_relink, size_relink, size_relink]; exact hc),
      links_relink _ _ _ (by rw [size_relink, size_relink]; exact hp),
      links_relink _ _ _ (by rw [size_relink]; exact hls), links_relink _ _ _ hc]
    constructor
    · by_cases h₁ : c = x
      · subst h₁
        simp only [hpc, if_true, if_false]
        split <;> rfl
      · simp only [h₁, if_false]
        split
        · split <;> rfl
        · split <;> rfl
    · by_cases h₂ : p = x
      · subst h₂
        simp only [hpc.symm, if_true, if_false]
      · simp only [h₂, if_false]
        by_cases h₁ : c = x
        · simp only [h₁, if_true]
          split <;> rfl
        · simp only [h₁, if_false]
          split <;> rfl

/-- A closed node becomes the last child of the one that it was opened in. -/
theorem represents_append {p c : NodeId} (h : a.Represents ((c, g) :: (p, f) :: w)) :
    (a.append p c).Represents ((p, f ++ .node c g .nil) :: w) := by
  have hperm : (Waiting.slots ((c, g) :: (p, f) :: w) ++ a.free).Perm
      (Waiting.slots ((p, f ++ .node c g .nil) :: w) ++ a.free) := by
    refine List.Perm.append_right _ ?_
    simp only [Waiting.slots, List.flatMap_cons, Forest.preorder_append, Forest.preorder_node,
      Forest.preorder_nil, List.append_nil, List.cons_append]
    refine List.perm_iff_count.mpr fun x => ?_
    simp only [List.count_cons, List.count_append]
    omega
  have hfree : (a.append p c).free = a.free := by
    unfold append
    cases (a.links p).lastChild <;> rfl
  have hsize : (a.append p c).slots.size = a.slots.size := by
    unfold append
    cases (a.links p).lastChild with
    | none => simp only [setParent, setLastChild, setFirstChild, size_relink]
    | some l => simp only [setParent, setLastChild, setPrevious, setNext, size_relink]
  have hnodup := h.distinct
  simp only [Waiting.slots, List.flatMap_cons, List.cons_append, List.append_assoc] at hnodup
  have hcrow : ∀ x ∈ g.preorder, x ≠ c ∧ x ≠ p := fun x hx => by
    refine ⟨?_, ?_⟩ <;> rintro rfl
    · exact (List.nodup_cons.mp hnodup).1 (List.mem_append_left _ hx)
    · exact (List.nodup_append.mp (List.nodup_cons.mp hnodup).2).2.2 x hx x
        (List.mem_cons_self ..) rfl
  have hpc : p ≠ c := by
    rintro rfl
    exact (List.nodup_cons.mp hnodup).1 (List.mem_append_right _ (List.mem_cons_self ..))
  have hprest := (List.nodup_append.mp (List.nodup_cons.mp hnodup).2).2.1
  have hprow : ∀ x ∈ f.preorder, x ≠ c ∧ x ≠ p := fun x hx => by
    refine ⟨?_, ?_⟩ <;> rintro rfl
    · exact (List.nodup_cons.mp hnodup).1
        (List.mem_append_right _ (List.mem_cons_of_mem _ (List.mem_append_left _ hx)))
    · exact (List.nodup_cons.mp hprest).1 (List.mem_append_left _ hx)
  have hother : ∀ x ∈ w.slots, x ≠ c ∧ x ≠ p := fun x hx => by
    refine ⟨?_, ?_⟩ <;> rintro rfl
    · exact (List.nodup_cons.mp hnodup).1 (List.mem_append_right _
        (List.mem_cons_of_mem _ (List.mem_append_right _ (List.mem_append_left _ hx))))
    · exact (List.nodup_cons.mp hprest).1
        (List.mem_append_right _ (List.mem_append_left _ hx))
  have hpmem : (p, f) ∈ (c, g) :: (p, f) :: w := List.mem_cons_of_mem _ (List.mem_cons_self ..)
  have hrowp := h.rows _ hpmem
  have hlinks := links_append (a := a) (p := p) (c := c)
    (h.lt_size (mem_slots hpmem (Or.inl rfl)))
    (h.lt_size (mem_slots (List.mem_cons_self ..) (Or.inl rfl))) hpc
    (fun l hl => by
      simp only [hl] at hrowp
      exact h.lt_size (mem_slots hpmem (Or.inr
        (Forest.labels_subset_preorder (hrowp.last_mem (by simp))))))
    (h.alone _ (List.mem_cons_self ..))
  have hsame : ∀ x, x ≠ c ∧ x ≠ p → ((a.append p c).links x).previous = (a.links x).previous ∧
      ((a.append p c).links x).lastChild = (a.links x).lastChild := fun x hx => by
    obtain ⟨h₁, h₂⟩ := hlinks x
    rw [if_neg fun heq => hx.1 heq.symm] at h₁
    rw [if_neg fun heq => hx.2 heq.symm] at h₂
    exact ⟨h₁, h₂⟩
  refine ⟨?_, ?_, fun r hr => ?_, fun r hr => ?_⟩
  · rw [hfree]
    exact hperm.nodup_iff.mp h.distinct
  · rw [hfree, hsize]
    exact fun x hx => h.bound x (hperm.mem_iff.mpr hx)
  · rcases List.mem_cons.mp hr with rfl | hr
    · rw [(hlinks p).1, if_neg hpc.symm]
      exact h.alone _ hpmem
    · rw [(hsame r.1 (hother _ (mem_slots hr (Or.inl rfl)))).1]
      exact h.alone r (List.mem_cons_of_mem _ (List.mem_cons_of_mem _ hr))
  · rcases List.mem_cons.mp hr with rfl | hr
    · -- the row of the parent gets the node at its end
      rw [(hlinks p).2, if_pos rfl]
      refine (hrowp.congr fun x hx => hsame x (hprow x hx)).append ⟨?_, ?_, rfl⟩
      · rw [(hlinks c).1, if_pos rfl]
      · rw [(hlinks c).2, if_neg hpc]
        exact (h.rows _ (List.mem_cons_self ..)).congr fun x hx => hsame x (hcrow x hx)
    · rw [(hsame r.1 (hother _ (mem_slots hr (Or.inl rfl)))).2]
      exact (h.rows r (List.mem_cons_of_mem _ (List.mem_cons_of_mem _ hr))).congr fun x hx =>
        hsame x (hother x (mem_slots hr (Or.inr hx)))

theorem element_append (a : Arena) (p c x : NodeId) : (a.append p c).element x = a.element x := by
  unfold append
  cases (a.links p).lastChild with
  | none => simp only [setParent, setLastChild, setFirstChild, element_relink]
  | some l => simp only [setParent, setLastChild, setPrevious, setNext, element_relink]

/-! ## Giving slots back -/

/-- Slots that are given back leave the others as they are. -/
theorem foldl_releaseSlot (a : Arena) (xs : List NodeId) :
    (xs.foldl releaseSlot a).free = xs.reverse ++ a.free ∧
      (xs.foldl releaseSlot a).slots.size = a.slots.size ∧
      ∀ x, x ∉ xs → (xs.foldl releaseSlot a).slot? x = a.slot? x := by
  induction xs generalizing a with
  | nil => exact ⟨rfl, rfl, fun _ _ => rfl⟩
  | cons y xs ih =>
    obtain ⟨h₁, h₂, h₃⟩ := ih (a.releaseSlot y)
    refine ⟨?_, ?_, fun x hx => ?_⟩
    · rw [List.foldl_cons, h₁, List.reverse_cons, List.append_assoc]
      rfl
    · rw [List.foldl_cons, h₂]
      exact size_update a y _
    · rw [List.mem_cons, not_or] at hx
      rw [List.foldl_cons, h₃ x hx.2]
      exact (slot?_update a y _ x).trans (if_neg fun heq => hx.1 heq.symm)

theorem represents_release (h : a.Represents (r :: w)) :
    (a.release r.1).Represents w ∧ ∀ x ∈ w.slots, (a.release r.1).element x = a.element x := by
  have hdesc : a.descendants r.1 = r.2.preorder := by
    rw [descendants, h.below_eq (List.mem_cons_self ..)]
  obtain ⟨hfree, hsize, hslot⟩ := foldl_releaseSlot a (a.descendants r.1 ++ [r.1])
  have hperm : (Waiting.slots (r :: w) ++ a.free).Perm (w.slots ++ (a.release r.1).free) := by
    rw [release, hfree, hdesc]
    simp only [Waiting.slots, List.flatMap_cons]
    refine List.perm_iff_count.mpr fun x => ?_
    simp only [List.count_cons, List.count_append, List.count_reverse, List.count_nil]
    omega
  have hnodup := h.distinct
  simp only [Waiting.slots, List.flatMap_cons, List.append_assoc] at hnodup
  have hold : ∀ x ∈ w.slots, (a.release r.1).slot? x = a.slot? x := fun x hx => by
    refine hslot x fun hmem => ?_
    have hrow : x ∈ r.1 :: r.2.preorder := by
      rw [hdesc] at hmem
      simpa [or_comm] using hmem
    exact (List.nodup_append.mp hnodup).2.2 x hrow x (List.mem_append_left _ hx) rfl
  have hlinks : ∀ x ∈ w.slots, (a.release r.1).links x = a.links x := fun x hx => by
    rw [links, links, hold x hx]
  refine ⟨⟨hperm.nodup_iff.mp h.distinct, fun x hx => ?_, fun q hq => ?_, fun q hq => ?_⟩,
    fun x hx => ?_⟩
  · rw [release, hsize]
    exact h.bound x (hperm.mem_iff.mpr hx)
  · rw [hlinks q.1 (mem_slots hq (Or.inl rfl))]
    exact h.alone q (List.mem_cons_of_mem _ hq)
  · rw [hlinks q.1 (mem_slots hq (Or.inl rfl))]
    exact (h.rows q (List.mem_cons_of_mem _ hq)).congr fun x hx => by
      rw [hlinks x (mem_slots hq (Or.inr hx))]
      exact ⟨rfl, rfl⟩
  · rw [element, element, hold x hx]

end Arena

end Standoff
