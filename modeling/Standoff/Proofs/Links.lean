import Standoff.Proofs.Refusals
import Standoff.Proofs.Shape

/-! # Links of waiting nodes

A tree of waiting nodes is read by two of its five links, from its last nodes to the left.  All
links show the same tree, though slots are used again and again:

    parent    the node above          first, last       the ends of the row below
    previous, next                    the neighbours in the row

* `Arena.Shows`: all links of a node and of what is below it show a forest.
* `Arena.Linked`: they do so in all rows of an arena; one lemma for each operation on rows.
* `Builder.Linked.handle`: every event keeps the links of a builder's waiting nodes. -/

namespace Standoff

/-! ## Links that describe a row -/

section Describes

variable {links links' : NodeId → Option Links} {parent : NodeId} {previous : Option NodeId}
  {f g : Forest NodeId} {c : NodeId}

theorem Describes.congr (h : Describes links parent previous f)
    (hl : ∀ x ∈ f.preorder, links' x = links x) : Describes links' parent previous f := by
  induction f generalizing parent previous with
  | nil => trivial
  | node x kids rest ihk ihr =>
    obtain ⟨h₁, h₂, h₃⟩ := h
    simp only [Forest.preorder_node, List.mem_cons, List.mem_append] at hl
    exact ⟨(hl x (.inl rfl)).trans h₁, ihk h₂ fun y hy => hl y (.inr (.inl hy)),
      ihr h₃ fun y hy => hl y (.inr (.inr hy))⟩

/-- A node comes to the end of a row: the last node of the row gets another neighbour. -/
theorem Describes.concat (h : Describes links parent previous f) (hf : f.preorder.Nodup)
    (hlast : ∀ x l, f.labels.getLast? = some x → links x = some l →
      links' x = some { l with next := some c })
    (hothers : ∀ x ∈ f.preorder, f.labels.getLast? ≠ some x → links' x = links x)
    (hc : links' c = some
      { parent := some parent
        firstChild := g.labels.head?
        lastChild := g.labels.getLast?
        previous := f.labels.getLast?.or previous
        next := none })
    (hg : Describes links' c none g) :
    Describes links' parent previous (f ++ .node c g .nil) := by
  induction f generalizing previous with
  | nil => exact ⟨hc, hg, trivial⟩
  | node x kids rest _ ih =>
    obtain ⟨h₁, h₂, h₃⟩ := h
    rw [Forest.preorder_node] at hf
    obtain ⟨hx, hf⟩ := List.nodup_cons.mp hf
    obtain ⟨-, hrest, hdisjoint⟩ := List.nodup_append.mp hf
    have hkids : ∀ y ∈ kids.preorder, links' y = links y := fun y hy => by
      refine hothers y ?_ fun hlast => ?_
      · rw [Forest.preorder_node]
        exact List.mem_cons_of_mem _ (List.mem_append_left _ hy)
      · rcases List.mem_cons.mp (List.mem_of_getLast? hlast) with rfl | hmem
        · exact hx (List.mem_append_left _ hy)
        · exact hdisjoint y hy y (Forest.labels_subset_preorder hmem) rfl
    have hlabels : (Forest.node x kids rest).labels.getLast? =
        rest.labels.getLast?.or (some x) := by
      rw [Forest.labels, List.getLast?_cons]
      cases rest.labels.getLast? <;> rfl
    refine ⟨?_, h₂.congr hkids, ih h₃ hrest (fun y l hy hl => ?_) (fun y hy hne => ?_) ?_⟩
    · cases rest with
      | nil => exact hlast x _ rfl h₁
      | node y kids' rest' =>
        refine (hothers x (by rw [Forest.preorder_node]; exact List.mem_cons_self) ?_).trans h₁
        intro heq
        have hmem : x ∈ (Forest.node y kids' rest').labels :=
          List.mem_of_getLast? ((List.getLast?_cons_cons).symm.trans heq)
        exact hx (List.mem_append_right _ (Forest.labels_subset_preorder hmem))
    · refine hlast y l ?_ hl
      rw [hlabels, hy]
      rfl
    · refine hothers y ?_ ?_
      · rw [Forest.preorder_node]
        exact List.mem_cons_of_mem _ (List.mem_append_right _ hy)
      · rw [hlabels]
        cases hr : rest.labels.getLast? with
        | none =>
          rintro heq
          cases heq
          exact hx (List.mem_append_right _ hy)
        | some z =>
          rw [hr] at hne
          exact hne
    · rw [hc, hlabels, Option.or_assoc]
      rfl

end Describes

namespace Arena

variable {a : Arena} {w : Waiting} {r : NodeId × Forest NodeId} {f g : Forest NodeId}
  {id p c x : NodeId}

/-! ## Rows one by one -/

theorem Represents.tail (h : a.Represents (r :: w)) : a.Represents w := by
  have hsub : (w.slots ++ a.free).Sublist (Waiting.slots (r :: w) ++ a.free) := by
    rw [Waiting.slots, Waiting.slots, List.flatMap_cons]
    exact (List.sublist_append_right _ _).append_right _
  exact ⟨h.distinct.sublist hsub, fun x hx => h.bound x (hsub.subset hx),
    fun q hq => h.alone q (List.mem_cons_of_mem _ hq),
    fun q hq => h.rows q (List.mem_cons_of_mem _ hq)⟩

theorem Represents.row_nodup (h : a.Represents (r :: w)) : (r.1 :: r.2.preorder).Nodup := by
  have hnodup := h.distinct
  rw [Waiting.slots, List.flatMap_cons, List.append_assoc] at hnodup
  exact (List.nodup_append.mp hnodup).1

theorem Represents.ne_first (h : a.Represents (r :: w)) (hx : x ∈ r.2.preorder) : x ≠ r.1 :=
  fun heq => (List.nodup_cons.mp h.row_nodup).1 (heq ▸ hx)

/-! ## Links of one slot -/

theorem links_eq {a' : Arena} (h : a'.slot? x = a.slot? x) : a'.links x = a.links x := by
  rw [links, links, h]

/-- The new slot, and the others. -/
theorem slot?_release (h : a.Represents (r :: w)) (hx : x ∈ w.slots) :
    (a.release r.1).slot? x = a.slot? x := by
  obtain ⟨hne, hbelow⟩ := h.apart hx
  refine (foldl_releaseSlot a (a.descendants r.1 ++ [r.1])).2.2 x fun hmem => ?_
  rw [List.mem_append, List.mem_singleton] at hmem
  exact hmem.elim hbelow hne

/-- What an append does to the links of every slot. -/
theorem links_append_all (hp : p < a.slots.size) (hc : c < a.slots.size) (hpc : p ≠ c)
    (hlast : ∀ l, (a.links p).lastChild = some l → l < a.slots.size ∧ l ≠ p ∧ l ≠ c)
    (halone : (a.links c).previous = none) (x : NodeId) :
    (a.append p c).links x =
      if c = x then { a.links x with parent := some p, previous := (a.links p).lastChild }
      else if p = x then
        { a.links x with
          firstChild := if (a.links p).lastChild = none then some c else (a.links x).firstChild
          lastChild := some c }
      else if (a.links p).lastChild = some x then { a.links x with next := some c }
      else a.links x := by
  unfold append
  cases hl : (a.links p).lastChild with
  | none =>
    simp only [setParent, setLastChild, setFirstChild]
    rw [links_relink _ _ _ (by rw [size_relink, size_relink]; exact hc),
      links_relink _ _ _ (by rw [size_relink]; exact hp), links_relink _ _ _ hp]
    by_cases h₁ : c = x
    · subst h₁
      simp only [if_true, if_neg hpc]
      rw [← halone]
    · simp only [if_neg h₁]
      by_cases h₂ : p = x
      · simp only [if_pos h₂, if_true]
      · simp only [if_neg h₂]
        rfl
  | some l =>
    obtain ⟨hls, hlp, hlc⟩ := hlast l hl
    simp only [setParent, setLastChild, setPrevious, setNext]
    rw [links_relink _ _ _ (by rw [size_relink, size_relink, size_relink]; exact hc),
      links_relink _ _ _ (by rw [size_relink, size_relink]; exact hp),
      links_relink _ _ _ (by rw [size_relink]; exact hls), links_relink _ _ _ hc]
    by_cases h₁ : c = x
    · subst h₁
      simp only [if_true, if_neg hpc, if_neg hlc]
    · simp only [if_neg h₁]
      by_cases h₂ : p = x
      · subst h₂
        simp only [if_true, if_neg hlp]
        rfl
      · simp only [if_neg h₂, Option.some.injEq]

/-- Links that describe a row hold it. -/
theorem holds_of_describes {links : NodeId → Option Links} {previous : Option NodeId}
    (hl : ∀ x l, links x = some l → a.links x = l) (h : Describes links p previous f) :
    a.Holds previous f (f.labels.getLast?.or previous) := by
  induction f generalizing p previous with
  | nil => rfl
  | node x kids rest ihk ihr =>
    obtain ⟨hx, hkids, hrest⟩ := h
    have hkids := ihk hkids
    have hrest := ihr hrest
    have hlast : (Forest.node x kids rest).labels.getLast?.or previous =
        rest.labels.getLast?.or (some x) := by
      rw [Forest.labels_node, List.getLast?_cons]
      cases rest.labels.getLast? <;> rfl
    rw [Option.or_none] at hkids
    rw [hlast]
    exact ⟨by rw [hl x _ hx], by rw [hl x _ hx]; exact hkids, hrest⟩

/-! ## Links of rows -/

/-- All links of a node without neighbours and of what is below it show the forest `f`. -/
structure Shows (a : Arena) (id : NodeId) (f : Forest NodeId) : Prop where
  top : a.links id = { firstChild := f.labels.head?, lastChild := f.labels.getLast? }
  below : Describes (fun x => some (a.links x)) id none f

/-- The rows of the arena, with all their links. -/
structure Linked (a : Arena) (w : Waiting) : Prop where
  represents : a.Represents w
  shows : ∀ r ∈ w, a.Shows r.1 r.2

theorem Shows.congr {a' : Arena} (h : a.Shows id f)
    (hl : ∀ x, x = id ∨ x ∈ f.preorder → a'.links x = a.links x) : a'.Shows id f :=
  ⟨(hl id (.inl rfl)).trans h.top, h.below.congr fun x hx => congrArg some (hl x (.inr hx))⟩

/-- The links of the slots in rows stay. -/
theorem Linked.congr {a' : Arena} (h : a.Linked w) (hrep : a'.Represents w)
    (hl : ∀ x ∈ w.slots, a'.links x = a.links x) : a'.Linked w :=
  ⟨hrep, fun r hr => (h.shows r hr).congr fun x hx => hl x (mem_slots hr hx)⟩

theorem Linked.names (h : a.Linked w) (names : NamePool) :
    ({ a with names := names } : Arena).Linked w :=
  h.congr (h.represents.congr rfl rfl fun _ _ => ⟨rfl, rfl⟩) fun _ _ => rfl

theorem Linked.update (h : a.Linked w) (id : NodeId) (u : Slot → Slot)
    (hu : ∀ s, (u s).links = s.links) : (a.update id u).Linked w :=
  h.congr (h.represents.update id u hu) fun x _ => links_update a id u x hu

theorem Linked.alloc (h : a.Linked w) (s : Slot) (hs : s.links = {}) :
    (a.alloc s).1.Linked (((a.alloc s).2, .nil) :: w) := by
  have hrep := (represents_alloc h.represents s hs).1
  have hget := slot?_alloc h.represents.free_lt s
  refine ⟨hrep, fun r hr => ?_⟩
  rcases List.mem_cons.mp hr with rfl | hr
  · refine ⟨?_, trivial⟩
    rw [links, hget, if_pos rfl]
    exact hs
  · refine (h.shows r hr).congr fun x hx => links_eq ((hget x).trans (if_neg fun heq => ?_))
    exact (List.nodup_cons.mp hrep.distinct).1
      (heq ▸ List.mem_append_left _ (mem_slots hr hx))

theorem Linked.release (h : a.Linked (r :: w)) : (a.release r.1).Linked w := by
  refine ⟨(represents_release h.represents).1, fun q hq => ?_⟩
  exact (h.shows q (List.mem_cons_of_mem _ hq)).congr fun x hx =>
    links_eq (slot?_release h.represents (mem_slots hq hx))

/-- The links of the rows when a node has become the last child of the one that it was opened in. -/
theorem Linked.append (h : a.Linked ((c, g) :: (p, f) :: w)) :
    (a.append p c).Linked ((p, f ++ .node c g .nil) :: w) := by
  have hrep := h.represents
  have hctop : a.links c = { firstChild := g.labels.head?, lastChild := g.labels.getLast? } :=
    (h.shows _ List.mem_cons_self).top
  have hpshows : a.Shows p f := h.shows _ (List.mem_cons_of_mem _ List.mem_cons_self)
  have hlast : (a.links p).lastChild = f.labels.getLast? := by rw [hpshows.top]
  -- the slots of the three rows are different
  have hpslots : ∀ x, x = p ∨ x ∈ f.preorder → x ∈ Waiting.slots ((p, f) :: w) := fun x hx =>
    mem_slots List.mem_cons_self hx
  have hrow : ∀ x ∈ f.preorder, x ≠ c ∧ x ≠ p := fun x hx =>
    ⟨(hrep.apart (hpslots x (.inr hx))).1, hrep.tail.ne_first hx⟩
  have hgrow : ∀ x ∈ g.preorder, x ≠ c ∧ x ≠ p ∧ x ∉ f.preorder := fun x hx => by
    have hapart : ∀ y, y = p ∨ y ∈ f.preorder → y ≠ x := fun y hy heq => by
      have hnot := (hrep.apart (hpslots y hy)).2
      rw [hrep.descendants_eq List.mem_cons_self] at hnot
      exact hnot (heq ▸ hx)
    exact ⟨hrep.ne_first hx, fun heq => hapart p (.inl rfl) heq.symm,
      fun hmem => hapart x (.inr hmem) rfl⟩
  have hother : ∀ x ∈ w.slots, x ≠ c ∧ x ≠ p ∧ x ∉ f.preorder := fun x hx => by
    obtain ⟨hp, hf⟩ := hrep.tail.apart hx
    rw [hrep.tail.descendants_eq List.mem_cons_self] at hf
    refine ⟨(hrep.apart ?_).1, hp, hf⟩
    rw [Waiting.slots, List.flatMap_cons]
    exact List.mem_append_right _ hx
  have hpc : p ≠ c := (hrep.apart (hpslots p (.inl rfl))).1
  have hlastmem : ∀ l, f.labels.getLast? = some l → l ∈ f.preorder := fun l hl =>
    Forest.labels_subset_preorder (List.mem_of_getLast? hl)
  have hlinks := links_append_all (a := a) (hrep.tail.lt_size (hpslots p (.inl rfl)))
    (hrep.lt_size (mem_slots List.mem_cons_self (.inl rfl))) hpc
    (fun l hl => by
      have hmem := hlastmem l (hlast.symm.trans hl)
      obtain ⟨hlc, hlp⟩ := hrow l hmem
      exact ⟨hrep.tail.lt_size (hpslots l (.inr hmem)), hlp, hlc⟩)
    (by rw [hctop])
  rw [hlast] at hlinks
  have hsame : ∀ x, x ≠ c → x ≠ p → f.labels.getLast? ≠ some x →
      (a.append p c).links x = a.links x := fun x hxc hxp hxl => by
    rw [hlinks, if_neg hxc.symm, if_neg hxp.symm, if_neg hxl]
  refine ⟨represents_append hrep, fun r hr => ?_⟩
  rcases List.mem_cons.mp hr with rfl | hr
  · refine ⟨?_, hpshows.below.concat (List.nodup_cons.mp (hrep.tail.row_nodup)).2
      (fun x l hx hl => ?_) (fun x hx hne => ?_) ?_ ?_⟩
    · rw [hlinks, if_neg hpc.symm, if_pos rfl, hpshows.top, Forest.labels_append]
      have hend : (f.labels ++ [c]).getLast? = some c := List.getLast?_concat
      cases hlabels : f.labels with
      | nil => rfl
      | cons y ys =>
        rw [hlabels] at hend
        rw [List.getLast?_cons, if_neg (Option.some_ne_none _), List.cons_append, List.head?_cons]
        exact congrArg (fun l => ({ firstChild := some y, lastChild := l } : Links)) hend.symm
    · cases hl
      obtain ⟨hxc, hxp⟩ := hrow x (hlastmem x hx)
      rw [hlinks, if_neg hxc.symm, if_neg hxp.symm, if_pos hx]
    · exact congrArg some (hsame x (hrow x hx).1 (hrow x hx).2 hne)
    · rw [hlinks, if_pos rfl, hctop, Option.or_none]
    · refine (h.shows _ List.mem_cons_self).below.congr fun x hx => congrArg some ?_
      obtain ⟨hxc, hxp, hxf⟩ := hgrow x hx
      exact hsame x hxc hxp fun hl => hxf (hlastmem x hl)
  · refine (h.shows r (List.mem_cons_of_mem _ (List.mem_cons_of_mem _ hr))).congr fun x hx => ?_
    obtain ⟨hxc, hxp, hxf⟩ := hother x (mem_slots hr hx)
    exact hsame x hxc hxp fun hl => hxf (hlastmem x hl)

end Arena

namespace Builder

variable {τ : Type} {b b' : Builder τ} {d d' : Draft} {e : Event} {f : Frame} {n : OpenNode}
  {outer : List OpenNode}

/-! ## Links of a builder's nodes -/

/-- All links of the waiting nodes show what waits below the open nonterminals. -/
def Linked (b : Builder τ) : Prop :=
  ∃ w, b.pending.Linked w ∧ w.map (·.1) = b.stack.map (·.id)

theorem linked_start (target : τ) (options : Options) : (start target options).Linked := by
  obtain ⟨w, hw, hids, -⟩ := (follows_start target options).rows
  obtain rfl : w = [] := List.map_eq_nil_iff.mp hids
  exact ⟨[], ⟨hw, fun _ hr => absurd hr List.not_mem_nil⟩, rfl⟩

namespace Linked

theorem congr (h : b.Linked) (hpending : b'.pending = b.pending)
    (hstack : b'.stack.map (·.id) = b.stack.map (·.id)) : b'.Linked := by
  obtain ⟨w, hw, hids⟩ := h
  exact ⟨w, hpending ▸ hw, hids.trans hstack.symm⟩

theorem pushChar (h : b.Linked) (c : Char) : (b.pushChar c).Linked := by
  unfold Builder.pushChar
  split
  · exact h
  · exact h.congr rfl rfl

variable [MergeTarget τ]

/-- A node that has left the stack is linked below its parent or given back. -/
theorem deliver {w : Arena.Waiting} {r : NodeId × Forest NodeId} (h : b.pending.Linked (r :: w))
    (hid : r.1 = n.id) (hids : w.map (·.1) = b.stack.map (·.id)) : (b.deliver n).state.Linked := by
  have hrelease : (b.pending.release n.id).Linked w := hid ▸ h.release
  unfold Builder.deliver
  cases hmerge : b.options.merge with
  | incremental =>
    simp only
    unfold deliverElement
    dsimp only
    split
    · exact ⟨w, hrelease, hids⟩
    · cases hstack : b.stack with
      | nil =>
        rw [hstack] at hids
        exact ⟨w, hrelease, hids⟩
      | cons parent outer =>
        rw [hstack] at hids
        exact ⟨w, hrelease, hids⟩
  | deferred =>
    cases hstack : b.stack with
    | nil =>
      simp only
      unfold deliverTree
      dsimp only
      split
      all_goals exact ⟨w, hrelease, hids⟩
    | cons parent outer =>
      rw [hstack] at hids
      obtain ⟨q, w, rfl, hq, hids⟩ := List.map_eq_cons_iff.mp hids
      have hq : q.1 = parent.id := hq
      have happend := Arena.Linked.append (c := r.1) (g := r.2) (p := q.1) (f := q.2) h
      rw [hid, hq] at happend
      exact ⟨_, happend, congrArg (parent.id :: ·) hids⟩

/-- Every event keeps the links. -/
theorem handle (h : b.Linked) (e : Event) : (b.handle e).state.Linked := by
  show (b.apply e).state.Linked
  have hdoes := b.apply_does e
  generalize b.apply e = r at hdoes ⊢
  cases hdoes with
  | refuses | overflows => exact h
  | strays | opensAttribute | skips => exact h.congr rfl rfl
  | holds _ c => exact h.pushChar c
  | counts _ c => exact pushChar (b := { b with cursor := b.cursor + 1 }) (h.congr rfl rfl) c
  | opens name =>
    obtain ⟨w, hw, hids⟩ := h
    exact ⟨_, (hw.names (b.pending.names.intern name).1).alloc
      { element := ⟨name, .emptyAt b.cursor, {}⟩ } rfl, congrArg (_ :: ·) hids⟩
  | closesAttribute n outer s scopes =>
    obtain ⟨w, hw, hids⟩ := h
    exact ⟨w, (hw.names (b.pending.names.intern s.name).1).update n.id (fun t => { t with element :=
      { t.element with attributes := t.element.attributes.set s.name s.value } }) (fun _ => rfl),
      hids⟩
  | closes n outer hstack =>
    obtain ⟨w, hw, hids⟩ := h
    rw [hstack] at hids
    obtain ⟨r, w, rfl, hid, hids⟩ := List.map_eq_cons_iff.mp hids
    exact deliver (b := { b with stack := outer, pending := b.pending.setStop n.id b.cursor })
      (hw.update _ _ fun _ => rfl) hid hids

theorem pursue (h : b.Linked) (events : List Event) :
    (pursue Builder.handle b events).1.Linked := by
  induction events generalizing b with
  | nil => exact h
  | cons e events ih => exact ih (h.handle e)

end Linked

/-- The links of a root that closes show the tree of its frame. -/
theorem Follows.root_shown [MergeTarget τ] (h : b.Follows d) (hlinked : b.Linked)
    (hdef : b.options.merge = .deferred)
    (hm : d.move? b.options.attributeCursor e = some (.close f d')) (hd' : d'.frames = []) :
    ∃ n shape, b.stack = [n] ∧ (b.pending.setStop n.id b.cursor).Shows n.id shape ∧
      (⟨f.element, f.kids⟩ : Tree Element) =
        ⟨(b.pending.setStop n.id b.cursor).element n.id,
          shape.map (b.pending.setStop n.id b.cursor).element⟩ := by
  obtain ⟨n, stack, r, w, -, hstack, -, -, -, hw, hid, hids, helement, hkids, hrest⟩ :=
    apply_close h hm
  rw [hd'] at hrest
  cases hrest
  obtain rfl : stack = [] := List.map_eq_nil_iff.mp hids.symm
  obtain ⟨w', hw', hids'⟩ := hlinked
  rw [hstack] at hids'
  obtain ⟨r', w', rfl, hid', hids'⟩ := List.map_eq_cons_iff.mp hids'
  have hended : (b.pending.setStop n.id b.cursor).Linked (r' :: w') :=
    hw'.update n.id _ fun _ => rfl
  have hshape : r'.2 = r.2 := by
    rw [← hended.represents.below_eq List.mem_cons_self, ← hw.below_eq List.mem_cons_self, hid']
    exact congrArg _ hid.symm
  have hshows := hended.shows r' List.mem_cons_self
  rw [hid', hshape] at hshows
  refine ⟨n, r.2, hstack, hshows, ?_⟩
  rw [helement, hkids, held_deferred hdef]

end Builder

end Standoff
