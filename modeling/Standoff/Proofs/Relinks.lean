import Standoff.Proofs.Links

/-!
# What moving a node does to links

A node goes into a row, or out of it, at a place between two parts of the row.  Its own links
change, those of its neighbours, and the ends that its parent knows if the place is at an end:

    row of p        l₁ ++ l₂        ⇄        l₁ ++ c :: l₂

* `Arena.setRight`, `Arena.setLeft`: the two links across the place.
* `Arena.links_insertBefore`, `Arena.links_detach`: the links of every slot.
* `Arena.frame_alloc`, `Arena.frame_release`: the slots that are filled and freed.
-/

namespace Standoff

namespace Arena

variable {a : Arena} {p c x y : NodeId} {l₁ l₂ : List NodeId}

/-! ## Slots -/

theorem free_relink (a : Arena) (id : NodeId) (u : Links → Links) :
    (a.relink id u).free = a.free := rfl

/-- An allocation takes a free slot, or makes one if none is free. -/
theorem frame_alloc (a : Arena) (s : Slot) :
    ((a.alloc s).1.slotCount = a.slotCount ∧ ∀ x ∈ (a.alloc s).1.free, x ∈ a.free) ∨
      (a.slotCount ≤ (a.alloc s).1.slotCount ∧ (a.alloc s).1.free = []) := by
  cases hfree : a.free with
  | nil =>
    rw [alloc_of_nil hfree]
    refine .inr ⟨?_, hfree⟩
    simp only [slotCount, Array.size_push]
    omega
  | cons id free =>
    rw [alloc_of_cons hfree]
    exact .inl ⟨Array.size_setIfInBounds, fun x hx => List.mem_cons_of_mem _ hx⟩

/-- What is given back is the node and all below it. -/
theorem frame_release (a : Arena) (id : NodeId) : (a.release id).slotCount = a.slotCount ∧
    (a.release id).free.Perm (id :: a.descendants id ++ a.free) := by
  obtain ⟨hfree, hsize, -⟩ := foldl_releaseSlot a (a.descendants id ++ [id])
  refine ⟨hsize, ?_⟩
  rw [release, hfree]
  exact ((List.reverse_perm _).trans (List.perm_append_singleton _ _)).append_right _

/-- Moving nodes neither fills slots nor frees them. -/
theorem frame_insertBefore (a : Arena) (p : NodeId) (anchor : Option NodeId) (c : NodeId) :
    (a.insertBefore p anchor c).free = a.free ∧
      (a.insertBefore p anchor c).slots.size = a.slots.size := by
  unfold insertBefore append setParent setLastChild setFirstChild setPrevious setNext
  cases anchor with
  | none => cases (a.links p).lastChild <;> simp only [free_relink, size_relink, and_self]
  | some z =>
    dsimp only
    cases (a.links z).previous <;> simp only [free_relink, size_relink, and_self]

theorem frame_detach (a : Arena) (x : NodeId) :
    (a.detach x).free = a.free ∧ (a.detach x).slots.size = a.slots.size := by
  unfold detach setLastChild setFirstChild setPrevious setNext
  dsimp only
  cases (a.links x).previous <;> cases (a.links x).next <;> cases (a.links x).parent <;>
    simp only [free_relink, size_relink, and_self]

/-! ## Neighbours -/

/-- Links what is left of a place in the row of `p` to what is right of it. -/
def setRight (a : Arena) (p : NodeId) (left right : Option NodeId) : Arena :=
  match left with
  | some x => a.setNext x right
  | none => a.setFirstChild p right

/-- Links what is right of a place in the row of `p` to what is left of it. -/
def setLeft (a : Arena) (p : NodeId) (left right : Option NodeId) : Arena :=
  match right with
  | some x => a.setPrevious x left
  | none => a.setLastChild p left

theorem size_setRight (a : Arena) (p : NodeId) (left right : Option NodeId) :
    (a.setRight p left right).slots.size = a.slots.size := by
  cases left <;> exact size_relink ..

theorem size_setLeft (a : Arena) (p : NodeId) (left right : Option NodeId) :
    (a.setLeft p left right).slots.size = a.slots.size := by
  cases right <;> exact size_relink ..

theorem links_setRight (hp : p < a.slots.size) {left : Option NodeId}
    (hleft : ∀ x, left = some x → x < a.slots.size) (right : Option NodeId) (y : NodeId) :
    (a.setRight p left right).links y =
      { a.links y with
        firstChild := if y = p ∧ left = none then right else (a.links y).firstChild
        next := if left = some y then right else (a.links y).next } := by
  cases left with
  | none =>
    rw [setRight, setFirstChild, links_relink _ _ _ hp]
    by_cases hyp : y = p
    · simp [hyp]
    · simp [hyp, Ne.symm hyp]
  | some x =>
    rw [setRight, setNext, links_relink _ _ _ (hleft x rfl)]
    by_cases hyx : x = y
    · simp [hyx]
    · simp [hyx]

theorem links_setLeft (hp : p < a.slots.size) (left : Option NodeId) {right : Option NodeId}
    (hright : ∀ x, right = some x → x < a.slots.size) (y : NodeId) :
    (a.setLeft p left right).links y =
      { a.links y with
        lastChild := if y = p ∧ right = none then left else (a.links y).lastChild
        previous := if right = some y then left else (a.links y).previous } := by
  cases right with
  | none =>
    rw [setLeft, setLastChild, links_relink _ _ _ hp]
    by_cases hyp : y = p
    · simp [hyp]
    · simp [hyp, Ne.symm hyp]
  | some x =>
    rw [setLeft, setPrevious, links_relink _ _ _ (hright x rfl)]
    by_cases hyx : x = y
    · simp [hyx]
    · simp [hyx]

/-! ## Links of moved nodes -/

/-- The links around a place in the row of `p`, between `l₁` and `l₂`. -/
structure Gap (a : Arena) (p : NodeId) (l₁ l₂ : List NodeId) : Prop where
  parent_lt : p < a.slots.size
  row_lt : ∀ x ∈ l₁ ++ l₂, x < a.slots.size
  not_mem : p ∉ l₁ ++ l₂

/-- The nodes next to the place are nodes of the row. -/
theorem mem_of_left (hx : l₁.getLast? = some x) : x ∈ l₁ ++ l₂ :=
  List.mem_append_left _ (List.mem_of_getLast? hx)

theorem mem_of_right (hx : l₂.head? = some x) : x ∈ l₁ ++ l₂ :=
  List.mem_append_right _ (List.mem_of_head? hx)

/-- What an insertion does to the links of every slot. -/
theorem links_insertBefore (hgap : a.Gap p l₁ l₂) (hc : c < a.slots.size) (hcp : c ≠ p)
    (hout : c ∉ l₁ ++ l₂) (hfirst : (a.links p).firstChild = (l₁ ++ l₂).head?)
    (hlast : (a.links p).lastChild = (l₁ ++ l₂).getLast?)
    (hprevious : ∀ z, l₂.head? = some z → (a.links z).previous = l₁.getLast?)
    (halone : (a.links c).previous = none ∧ (a.links c).next = none) :
    (a.insertBefore p l₂.head? c).links y =
      if y = c then
        { a.links c with parent := some p, previous := l₁.getLast?, next := l₂.head? }
      else if y = p then
        { a.links p with
          firstChild := (l₁ ++ c :: l₂).head?, lastChild := (l₁ ++ c :: l₂).getLast? }
      else
        { a.links y with
          previous := if l₂.head? = some y then some c else (a.links y).previous
          next := if l₁.getLast? = some y then some c else (a.links y).next } := by
  obtain ⟨hp, hrow, hpout⟩ := hgap
  cases l₂ with
  | nil =>
    rw [List.append_nil] at *
    rw [List.head?_nil, insertBefore, links_append_all hp hc hcp.symm (fun l hl => ?_) halone.1,
      hlast]
    · by_cases hyc : y = c
      · subst hyc
        simp [halone.2]
      · rw [if_neg (Ne.symm hyc), if_neg hyc]
        by_cases hyp : y = p
        · subst hyp
          cases l₁ with
          | nil => simp
          | cons z l₁ => simp [hfirst, List.getLast?_cons]
        · rw [if_neg (Ne.symm hyp), if_neg hyp]
          by_cases hl : l₁.getLast? = some y
          · simp [hl]
          · simp [hl]
    · have hl := List.mem_of_getLast? (hlast ▸ hl)
      exact ⟨hrow l hl, fun heq => hpout (heq ▸ hl), fun heq => hout (heq ▸ hl)⟩
  | cons z l₂ =>
    have hmem : z ∈ l₁ ++ z :: l₂ := mem_of_right rfl
    have hz : z < a.slots.size := hrow z hmem
    have hzc : z ≠ c := fun heq => hout (heq ▸ hmem)
    have hzp : z ≠ p := fun heq => hpout (heq ▸ hmem)
    have hleft (w : NodeId) (hw : l₁.getLast? = some w) : w ∈ l₁ ++ z :: l₂ := mem_of_left hw
    have hsteps : a.insertBefore p (some z) c =
        ((((a.setPrevious c l₁.getLast?).setNext c z).setPrevious z c).setRight p l₁.getLast?
          c).setParent c p := by
      rw [insertBefore, hprevious z rfl]
      cases l₁.getLast? <;> rfl
    rw [List.head?_cons, hsteps, setParent,
      links_relink _ _ _
        (by simpa only [size_setRight, setPrevious, setNext, size_relink] using hc),
      links_setRight (by simpa only [setPrevious, setNext, size_relink] using hp)
        fun w hw => by simpa only [setPrevious, setNext, size_relink] using hrow w (hleft w hw),
      setPrevious, links_relink _ _ _ (by simpa only [setPrevious, setNext, size_relink] using hz),
      setNext, links_relink _ _ _ (by simpa only [setPrevious, size_relink] using hc),
      setPrevious, links_relink _ _ _ hc]
    by_cases hyc : y = c
    · subst hyc
      have hw : l₁.getLast? ≠ some y := fun hw => hout (hleft y hw)
      simp [hcp, hzc, hw]
    · by_cases hyp : y = p
      · subst hyp
        have hw : l₁.getLast? ≠ some y := fun hw => hpout (hleft y hw)
        simp only [Ne.symm hyc, hzp, hw, if_false]
        cases l₁ with
        | nil => simp [hyc, hlast, List.getLast?_cons]
        | cons u us => simp [hyc, hfirst, hlast, List.getLast?_append, List.getLast?_cons]
      · by_cases hyz : z = y
        · simp [hyc, Ne.symm hyc, hyp, hyz]
        · simp [hyc, Ne.symm hyc, hyp, hyz]

/-- What taking a node out does to the links of every slot. -/
theorem links_detach (hgap : a.Gap p l₁ l₂) (hx : x < a.slots.size) (hxp : x ≠ p)
    (hfirst : (a.links p).firstChild = (l₁ ++ x :: l₂).head?)
    (hlast : (a.links p).lastChild = (l₁ ++ x :: l₂).getLast?)
    (hlinks : (a.links x).parent = some p ∧ (a.links x).previous = l₁.getLast? ∧
      (a.links x).next = l₂.head?) :
    (a.detach x).links y =
      if y = x then { a.links x with parent := none, previous := none, next := none }
      else if y = p then
        { a.links p with firstChild := (l₁ ++ l₂).head?, lastChild := (l₁ ++ l₂).getLast? }
      else
        { a.links y with
          previous := if l₂.head? = some y then l₁.getLast? else (a.links y).previous
          next := if l₁.getLast? = some y then l₂.head? else (a.links y).next } := by
  obtain ⟨hp, hrow, hpout⟩ := hgap
  have hsteps : a.detach x =
      ((a.setRight p l₁.getLast? l₂.head?).setLeft p l₁.getLast? l₂.head?).relink x
        fun l => { l with parent := none, previous := none, next := none } := by
    rw [detach, hlinks.1, hlinks.2.1, hlinks.2.2]
    cases l₁.getLast? <;> cases l₂.head? <;> rfl
  rw [hsteps, links_relink _ _ _ (by rw [size_setLeft, size_setRight]; exact hx),
    links_setLeft (by rw [size_setRight]; exact hp) _ fun z hz => by
      rw [size_setRight]; exact hrow z (mem_of_right hz),
    links_setRight hp fun w hw => hrow w (mem_of_left hw)]
  by_cases hyx : y = x
  · subst hyx
    simp [hxp]
  · rw [if_neg (Ne.symm hyx), if_neg hyx]
    by_cases hyp : y = p
    · subst hyp
      have hw : l₁.getLast? ≠ some y := fun hw => hpout (mem_of_left hw)
      have hz : l₂.head? ≠ some y := fun hz => hpout (mem_of_right hz)
      simp only [hw, hz, if_false, true_and, if_true, hfirst, hlast]
      cases l₁ with
      | nil => cases l₂ <;> simp [List.getLast?_cons]
      | cons u us => cases l₂ <;> simp [List.getLast?_append, List.getLast?_cons]
    · simp [hyp]

end Arena

end Standoff
