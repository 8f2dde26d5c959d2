import Standoff.Proofs.Loops
import Standoff.Proofs.Subtrees

/-!
# A document laid out in an arena

Every node of a document has a slot of its own, in the order of the numbers; the slot holds what
can be seen of the node.  Such an arena is told by its rows and by the content of its slots:

    row of node 0 = roots of the mark-up
    row of n      = roots of what is below n, for every node n of the mark-up

* `Arena.Full`: an arena of one tree, below node 0; kept by cuts and moves.
* `Arena.Carries`: rows and slots that make up some mark-up.
* `Document.arena`: the arena of a document.
* `Arena.Stores.eq_arena`, `Document.WellFormed.stores`: it is the one with the rows above.
* `Document.WellFormed.view?_arena`: it shows what the document shows.
-/

namespace Standoff

/-! ## Families -/

theorem Unfolds.congr {row row' : NodeId → List NodeId} {f : Forest NodeId} (h : Unfolds row f)
    (hrow : ∀ x ∈ f.preorder, row' x = row x) : Unfolds row' f := by
  induction f with
  | nil => trivial
  | node x kids rest ihk ihr =>
    rw [Forest.preorder_node] at hrow
    obtain ⟨hx, hkids, hrest⟩ := h
    exact ⟨hx.trans (hrow x (List.mem_cons_self ..)).symm,
      ihk hkids fun y hy => hrow y (List.mem_cons_of_mem _ (List.mem_append_left _ hy)),
      ihr hrest fun y hy => hrow y (List.mem_cons_of_mem _ (List.mem_append_right _ hy))⟩

namespace Family

variable {s : Family} {p c q x y l : NodeId} {l₁ l₂ : List NodeId} {f : Forest NodeId}

namespace Sound

variable (h : s.Sound)
include h

theorem row_detach (x y : NodeId) : (s.detach x).row y = (s.row y).erase x := by
  cases hx : s.parent x with
  | none =>
    have hmem : x ∉ s.row y := fun hmem => by
      have hover := h.mem_row.mp hmem
      rw [Over, hx] at hover
      cases hover
    rw [Family.detach, hx, List.erase_of_not_mem hmem]
  | some p =>
    rw [Family.detach, hx]
    by_cases hy : y = p
    · simp [hy]
    · have hmem : x ∉ s.row y := fun hmem => hy <| by
        have hover := h.mem_row.mp hmem
        rw [Over, hx] at hover
        exact (Option.some.inj hover).symm
      simp [hy, List.erase_of_not_mem hmem]

omit h in
theorem parent_detach (x y : NodeId) :
    (s.detach x).parent y = if y = x then none else s.parent y := by
  cases hx : s.parent x with
  | none =>
    rw [Family.detach, hx]
    by_cases hy : y = x
    · simp [hy, hx]
    · simp [hy]
  | some p =>
    rw [Family.detach, hx]
    by_cases hy : y = x
    · simp [hy]
    · simp [hy]

omit h in
theorem live_detach (x : NodeId) : (s.detach x).live = s.live := by
  unfold Family.detach
  cases s.parent x <;> rfl

/-- The nodes of a row, and all below them, are below the parent; the parent and what is over it
are none of them. -/
theorem apart (hrows : Unfolds s.row f) (hl : s.row l = l₁ ++ f.labels) :
    f.preorder.Nodup ∧ (∀ y ∈ f.preorder, s.Above l y) ∧ l ∉ f.preorder ∧
      ∀ p, s.Over p l → p ∉ f.preorder ∧ ∀ r, s.Over p r → r ∉ f.preorder := by
  have hover : ∀ y ∈ f.labels, s.Over l y := fun y hy =>
    h.mem_row.mp (hl ▸ List.mem_append_right _ hy)
  have habove : ∀ y ∈ f.preorder, s.Above l y := fun y hy => above_of_mem hrows hover h.mem_row hy
  have hnodup : f.labels.Nodup := by
    have hrow := h.row_nodup l
    rw [hl] at hrow
    exact (List.nodup_append.mp hrow).2.1
  refine ⟨h.preorder_nodup hrows hnodup hover, habove, fun hl => ?_, fun p hp => ⟨fun hmem => ?_,
    fun r hr hmem => ?_⟩⟩
  · exact h.not_above_self l (habove l hl)
  · exact h.not_above_self l ((habove p hmem).tail hp)
  · rcases Relation.TransGen.tail'_iff.mp (habove r hmem) with ⟨q, hlq, hq⟩
    cases hq.symm.trans hr
    exact h.not_above_self l (Relation.TransGen.tail' hlq hp)

/-- Rows for a forest of new nodes, at the end of the row of `p`. -/
theorem exists_grown (hp : p ∈ s.live) (hf : f.preorder.Nodup)
    (hnew : ∀ x ∈ f.preorder, x ∉ s.live) (hnone : s.released = []) :
    ∃ t : Family, t.Sound ∧ t.live.Perm (f.preorder ++ s.live) ∧ t.released = [] ∧
      Unfolds t.row f ∧ t.row p = s.row p ++ f.labels ∧
      (∀ x ∈ s.live, x ≠ p → t.row x = s.row x) ∧
      (∀ x ∈ s.live, t.parent x = s.parent x) ∧ ∀ x ∈ f.preorder, t.parent x ≠ none := by
  induction f generalizing s p with
  | nil => exact ⟨s, h, .refl _, hnone, trivial, by simp, by simp, by simp, by simp⟩
  | node x kids rest ihk ihr =>
    simp only [Forest.preorder_node, List.nodup_cons, List.mem_append, not_or,
      List.nodup_append] at hf
    obtain ⟨⟨hxk, hxr⟩, hk, hr, hkr⟩ := hf
    simp only [Forest.preorder_node, List.mem_cons, List.mem_append] at hnew
    have hx : x ∉ s.live := hnew x (.inl rfl)
    have hpx : p ≠ x := fun heq => hx (heq ▸ hp)
    have hrow : s.row x = [] := List.eq_nil_iff_forall_not_mem.mpr fun y hy =>
      hx (h.inside (h.mem_row.mp hy)).1
    -- the node itself goes to the end of the row
    have hsound : ((s.alloc x).join p x (s.row p ++ [x])).Sound := by
      have hout : p ∉ (s.alloc x).clan x := fun hmem => by
        rcases Relation.ReflTransGen.cases_head ((h.alloc hx).mem_clan.mp hmem) with heq | ⟨d, hd, -⟩
        · exact hpx heq.symm
        · exact hx (h.inside hd).1
      exact (h.alloc hx).join (List.mem_cons_of_mem _ hp) (List.mem_cons_self ..)
        (h.loose_of_out hx) hout (by rw [List.append_nil]; rfl)
    obtain ⟨t, ht, hlive, hreleased, hunfolds, hend, hother, hparent, hbelow⟩ :=
      ihk hsound (List.mem_cons_self ..) hk
        (fun y hy hmem => (List.mem_cons.mp hmem).elim (fun heq => hxk (heq ▸ hy))
          (hnew y (.inr (.inl hy)))) (by simp [Family.join, Family.alloc, hnone])
    have hmem {y : NodeId} : y ∈ t.live ↔ y ∈ kids.preorder ∨ y = x ∨ y ∈ s.live := by
      rw [hlive.mem_iff, List.mem_append]
      exact or_congr_right List.mem_cons
    have hin : ∀ y ∈ s.live, y ∈ ((s.alloc x).join p x (s.row p ++ [x])).live := fun y hy =>
      List.mem_cons_of_mem _ hy
    obtain ⟨u, hu, hlive', hreleased', hunfolds', hend', hother', hparent', hbelow'⟩ :=
      ihr ht (hmem.mpr (.inr (.inr hp))) hr (fun y hy hlive => by
        rcases hmem.mp hlive with hy' | rfl | hy'
        · exact hkr y hy' y hy rfl
        · exact hxr hy
        · exact hnew y (.inr (.inr hy)) hy') hreleased
    have hne {y : NodeId} (hy : y ∈ x :: kids.preorder) : y ≠ p := fun heq => by
      rcases List.mem_cons.mp hy with rfl | hy
      · exact hpx heq.symm
      · exact hnew y (.inr (.inl hy)) (heq ▸ hp)
    have hkidsrow {y : NodeId} (hy : y ∈ x :: kids.preorder) : u.row y = t.row y :=
      hother' y (hmem.mpr ((List.mem_cons.mp hy).elim (fun h => .inr (.inl h)) .inl)) (hne hy)
    refine ⟨u, hu, ?_, hreleased', ⟨?_, hunfolds.congr fun y hy =>
      hkidsrow (List.mem_cons_of_mem _ hy), hunfolds'⟩, ?_, fun y hy hyp => ?_, fun y hy => ?_,
      fun y hy => ?_⟩
    · refine hlive'.trans ((hlive.append_left _).trans ?_)
      rw [Forest.preorder_node]
      refine List.perm_iff_count.mpr fun y => ?_
      simp only [Family.join, Family.alloc, List.count_append, List.count_cons]
      omega
    · rw [hkidsrow (List.mem_cons_self ..), hend]
      show _ = Function.update s.row p _ x ++ _
      rw [Function.update_of_ne hpx.symm, hrow, List.nil_append]
    · rw [hend', hother p (hin p hp) hpx]
      show Function.update s.row p _ p ++ _ = _
      rw [Function.update_self]
      simp
    · have hyx : y ≠ x := fun heq => hx (heq ▸ hy)
      rw [hother' y (hmem.mpr (.inr (.inr hy))) hyp, hother y (hin y hy) hyx]
      exact Function.update_of_ne hyp ..
    · have hyx : y ≠ x := fun heq => hx (heq ▸ hy)
      rw [hparent' y (hmem.mpr (.inr (.inr hy))), hparent y (hin y hy)]
      exact Function.update_of_ne hyx ..
    · rw [Forest.preorder_node, List.mem_cons, List.mem_append] at hy
      rcases hy with rfl | hy | hy
      · rw [hparent' y (hmem.mpr (.inr (.inl rfl))), hparent y (List.mem_cons_self ..)]
        show Function.update s.parent y _ y ≠ none
        simp
      · rw [hparent' y (hmem.mpr (.inl hy))]
        exact hbelow y hy
      · exact hbelow' y hy

end Sound

end Family

theorem Markup.shape_preorder (m : Markup) : m.shape.preorder = m.ids := Forest.preorder_map _ m

namespace Arena

open Document Markup

variable {a b : Arena} {s t : Family} {p c q x y id : NodeId} {l₁ l₂ : List NodeId} {slot : Slot}
  {pos : Nat}

/-! ## What slots hold -/

theorem slot_ext {u : Slot} (hkind : slot.kind = u.kind) (helement : slot.element = u.element)
    (hlinks : slot.links = u.links) : slot = u := by
  cases slot
  cases hkind
  cases helement
  cases hlinks
  rfl

/-- The kind and the element in a slot. -/
def content (a : Arena) (x : NodeId) : Option (NodeKind × Element) :=
  (a.slot? x).map fun s => (s.kind, s.element)

theorem element_congr (h : b.content x = a.content x) : b.element x = a.element x := by
  have helement (d : Arena) : d.element x = ((d.content x).map (·.2)).getD default := by
    rw [element, content, Option.map_map]
    rfl
  rw [helement, helement, h]

theorem element_of_content {k : NodeKind} {e : Element} (h : a.content x = some (k, e)) :
    a.element x = e := by
  obtain ⟨slot, hslot, heq⟩ := Option.map_eq_some_iff.mp h
  cases heq
  rw [element, hslot]
  rfl

/-- A new slot is the last one if none is free. -/
theorem alloc_last (hfree : a.free = []) (slot : Slot) :
    (a.alloc slot).2 = a.slots.size ∧ (a.alloc slot).1.slots.size = a.slots.size + 1 ∧
      (a.alloc slot).1.free = [] ∧ (a.alloc slot).1.names = a.names ∧
      ∀ y, (a.alloc slot).1.slot? y = if y = a.slots.size then some slot else a.slot? y := by
  have hslots := slot?_alloc (a := a) (by simp [hfree]) slot
  rw [alloc_of_nil hfree] at hslots ⊢
  exact ⟨rfl, Array.size_push .., hfree, rfl, hslots⟩

theorem content_update (a : Arena) (id : NodeId) (u : Slot → Slot) (x : NodeId) :
    (a.update id u).content x =
      if id = x then (a.slot? x).map fun s => ((u s).kind, (u s).element) else a.content x := by
  rw [content, content, slot?_update]
  split
  · rw [Option.map_map]
    rfl
  · rfl

theorem content_relink (a : Arena) (id : NodeId) (u : Links → Links) (x : NodeId) :
    (a.relink id u).content x = a.content x := by
  rw [relink, content_update]
  split <;> rfl

theorem content_insertBefore (a : Arena) (p : NodeId) (anchor : Option NodeId) (c x : NodeId) :
    (a.insertBefore p anchor c).content x = a.content x := by
  unfold insertBefore append setParent setLastChild setFirstChild setPrevious setNext
  cases anchor with
  | none => cases (a.links p).lastChild <;> simp only [content_relink]
  | some z => dsimp only; cases (a.links z).previous <;> simp only [content_relink]

theorem content_detach (a : Arena) (id x : NodeId) : (a.detach id).content x = a.content x := by
  unfold detach setLastChild setFirstChild setPrevious setNext
  dsimp only
  cases (a.links id).previous <;> cases (a.links id).next <;> cases (a.links id).parent <;>
    simp only [content_relink]

theorem names_relink (a : Arena) (id : NodeId) (u : Links → Links) :
    (a.relink id u).names = a.names := rfl

theorem names_insertBefore (a : Arena) (p : NodeId) (anchor : Option NodeId) (c : NodeId) :
    (a.insertBefore p anchor c).names = a.names := by
  unfold insertBefore append setParent setLastChild setFirstChild setPrevious setNext
  cases anchor with
  | none => cases (a.links p).lastChild <;> simp only [names_relink]
  | some z => dsimp only; cases (a.links z).previous <;> simp only [names_relink]

theorem names_detach (a : Arena) (id : NodeId) : (a.detach id).names = a.names := by
  unfold detach setLastChild setFirstChild setPrevious setNext
  dsimp only
  cases (a.links id).previous <;> cases (a.links id).next <;> cases (a.links id).parent <;>
    simp only [names_relink]

/-- What is the same in two arenas that differ in links only. -/
structure Alike (a b : Arena) : Prop where
  content : ∀ x, b.content x = a.content x
  size : b.slots.size = a.slots.size
  names : b.names = a.names

theorem Alike.trans {c : Arena} (h₁ : a.Alike b) (h₂ : b.Alike c) : a.Alike c :=
  ⟨fun x => (h₂.content x).trans (h₁.content x), h₂.size.trans h₁.size, h₂.names.trans h₁.names⟩

theorem alike_insertBefore (a : Arena) (p : NodeId) (anchor : Option NodeId) (c : NodeId) :
    a.Alike (a.insertBefore p anchor c) :=
  ⟨content_insertBefore a p anchor c, (frame_insertBefore a p anchor c).2,
    names_insertBefore a p anchor c⟩

theorem alike_detach (a : Arena) (id : NodeId) : a.Alike (a.detach id) :=
  ⟨content_detach a id, (frame_detach a id).2, names_detach a id⟩

/-! ## Arenas of one tree -/

/-- All slots are in use, and every node but node 0 is in a row. -/
structure Full (a : Arena) (s : Family) : Prop extends a.Keeps s where
  free : a.free = []
  loose : ∀ x ∈ s.live, s.parent x = none ↔ x = rootId

namespace Full

variable (h : a.Full s)
include h

theorem mem_live : x ∈ s.live ↔ x < a.slots.size := by
  have hcover := h.cover
  rw [h.free, List.append_nil] at hcover
  rw [hcover.mem_iff, List.mem_range]

theorem row_lt (hx : x ∈ s.row p) : x < a.slots.size := h.live_lt (h.row_live hx)

theorem owner_live (hx : x ∈ s.row p) : p ∈ s.live := (h.sound.inside (h.sound.mem_row.mp hx)).1

/-- The links of a node in a row. -/
theorem links_of_row (hrow : s.row p = l₁ ++ x :: l₂) : a.links x =
    { parent := some p, firstChild := (s.row x).head?, lastChild := (s.row x).getLast?,
      previous := l₁.getLast?, next := l₂.head? } := by
  have hx : x ∈ s.live := h.row_live (hrow ▸ List.mem_append_right _ (List.mem_cons_self ..))
  rw [h.links x hx, Family.links_of_row h.sound hrow]

theorem next_of_row (hrow : s.row p = l₁ ++ x :: l₂) : (a.links x).next = l₂.head? := by
  rw [h.links_of_row hrow]

/-- A node that is in no row yet goes into the row of `p`. -/
theorem link_new {b : Arena} (hb : b.Keeps (s.alloc c)) (hfree : b.free = []) (hc : c ∉ s.live)
    (hp : p ∈ s.live) (hrow : s.row p = l₁ ++ l₂) :
    (b.insertBefore p l₂.head? c).Full ((s.alloc c).join p c (l₁ ++ c :: l₂)) := by
  have hloose : (s.alloc c).parent c = none := h.sound.loose_of_out hc
  have hrow' : (s.alloc c).row c = [] := List.eq_nil_iff_forall_not_mem.mpr fun y hy =>
    hc (h.sound.inside (h.sound.mem_row.mp hy)).1
  have hnot : p ∉ (s.alloc c).clan c := fun hmem => by
    rcases Relation.ReflTransGen.cases_head (hb.sound.mem_clan.mp hmem) with rfl | ⟨d, hd, -⟩
    · exact hc hp
    · have hmem := hb.sound.mem_row.mpr hd
      rw [hrow'] at hmem
      cases hmem
  refine ⟨hb.join (List.mem_cons_of_mem _ hp) (List.mem_cons_self ..) hloose hnot hrow,
    (frame_insertBefore ..).1.trans hfree, fun x hx => ?_⟩
  show Function.update s.parent c (some p) x = none ↔ _
  by_cases hxc : x = c
  · subst hxc
    have hne : x ≠ rootId := fun heq => hc (heq ▸ h.mem_live.mpr
      (Nat.lt_of_le_of_lt (Nat.zero_le _) (h.live_lt hp)))
    simp [hne]
  · rw [Function.update_of_ne hxc]
    exact h.loose x ((List.mem_cons.mp hx).resolve_left hxc)

/-- A node is moved, with all below it, to another place or to another row. -/
theorem move (hc : s.Over p c) (hq : q ∈ s.live) (hnot : ¬ Relation.ReflTransGen s.Over c q)
    (hrow : (s.row q).erase c = l₁ ++ l₂) :
    ∃ t, ((a.detach c).insertBefore q l₂.head? c).Full t ∧
      a.Alike ((a.detach c).insertBefore q l₂.head? c) ∧
      ∀ y, t.row y = if y = q then l₁ ++ c :: l₂ else (s.row y).erase c := by
  have hlive : c ∈ s.live := (h.sound.inside hc).2
  have hkeeps := h.toKeeps.detach hlive
  have hloose : (s.detach c).parent c = none := by rw [Family.Sound.parent_detach, if_pos rfl]
  have hout : q ∉ (s.detach c).clan c := fun hmem => hnot <| by
    refine Relation.ReflTransGen.mono (fun u v huv => ?_) _ _ (hkeeps.sound.mem_clan.mp hmem)
    rw [Family.Over, Family.Sound.parent_detach] at huv
    split at huv
    · cases huv
    · exact huv
  have hsplit : (s.detach c).row q = l₁ ++ l₂ := (h.sound.row_detach c q).trans hrow
  have hjoin := hkeeps.join (by rwa [Family.Sound.live_detach]) (by rwa [Family.Sound.live_detach])
    hloose hout hsplit
  refine ⟨_, ⟨hjoin, (frame_insertBefore ..).1.trans ((frame_detach ..).1.trans h.free),
    fun x hx => ?_⟩, (alike_detach a c).trans (alike_insertBefore ..), fun y => ?_⟩
  · show Function.update (s.detach c).parent c (some q) x = none ↔ _
    by_cases hxc : x = c
    · have hne : x ≠ rootId := fun heq => by
        have hnone := (h.loose c hlive).mpr (hxc.symm.trans heq)
        rw [hc] at hnone
        cases hnone
      simp [hxc, hxc ▸ hne]
    · rw [Function.update_of_ne hxc, Family.Sound.parent_detach, if_neg hxc]
      rw [Family.join, Family.Sound.live_detach] at hx
      exact h.loose x hx
  · show Function.update (s.detach c).row q (l₁ ++ c :: l₂) y = _
    by_cases hy : y = q
    · rw [hy, Function.update_self, if_pos rfl]
    · rw [Function.update_of_ne hy, if_neg hy, h.sound.row_detach]

/-- A node that is cut has its right half behind it. -/
theorem halve (hrow : s.row p = l₁ ++ x :: l₂) (pos : Nat) :
    (a.halve pos x).2 = a.slots.size ∧ ∃ t, (a.halve pos x).1.Full t ∧
      (∀ y, t.row y = if y = p then l₁ ++ x :: a.slots.size :: l₂ else s.row y) ∧
      (a.halve pos x).1.slots.size = a.slots.size + 1 ∧ (a.halve pos x).1.names = a.names ∧
      ∀ k e, a.content x = some (k, e) → ∀ y, (a.halve pos x).1.content y =
        if y = a.slots.size then some (.element, { e with span := ⟨pos, e.span.stop⟩ })
        else if y = x then some (k, { e with span := ⟨e.span.start, pos⟩ })
        else a.content y := by
  have hx : x ∈ s.live := h.row_live (hrow ▸ List.mem_append_right _ (List.mem_cons_self ..))
  have hp : p ∈ s.live := h.owner_live (hrow ▸ List.mem_append_right _ (List.mem_cons_self ..))
  have hlt : x < a.slots.size := h.live_lt hx
  have hc : a.slots.size ∉ s.live := fun hmem => Nat.lt_irrefl _ (h.live_lt hmem)
  obtain ⟨new, hnew⟩ : ∃ new : Slot, new = { element := { a.element x with
      span := ⟨pos, (a.element x).span.stop⟩ } } := ⟨_, rfl⟩
  obtain ⟨hid, hsize, hfree, hnames, hslots⟩ := alloc_last h.free new
  -- the arena before the right half is linked
  obtain ⟨b, hb⟩ : ∃ b, b = (a.alloc new).1.setStop x pos := ⟨_, rfl⟩
  have hkeeps : b.Keeps (s.alloc a.slots.size) := by
    have hkeeps := h.toKeeps.alloc (show new.links = {} by rw [hnew])
    rw [hid] at hkeeps
    exact hb ▸ hkeeps.update x _ fun _ => rfl
  have hhalve : a.halve pos x = (b.insertBefore p l₂.head? a.slots.size, a.slots.size) := by
    have hlinks : b.links x =
        { parent := some p, firstChild := (s.row x).head?, lastChild := (s.row x).getLast?,
          previous := l₁.getLast?, next := l₂.head? } := by
      rw [hkeeps.links x (List.mem_cons_of_mem _ hx), Family.links_alloc,
        Family.links_of_row h.sound hrow]
    show (Arena.insertAfter _ x _, _) = _
    rw [← hnew, hid, ← hb, insertAfter, hlinks]
  have hsplit : s.row p = (l₁ ++ [x]) ++ l₂ := by rw [hrow]; simp
  have hbsize : b.slots.size = a.slots.size + 1 := by rw [hb, setStop, size_update, hsize]
  have halike := alike_insertBefore b p l₂.head? a.slots.size
  rw [hhalve]
  refine ⟨rfl, _, h.link_new hkeeps (hb ▸ hfree) hc hp hsplit, fun y => ?_,
    halike.size.trans hbsize, halike.names.trans (hb ▸ hnames), fun k e he y => ?_⟩
  · show Function.update s.row p _ y = _
    by_cases hy : y = p
    · rw [hy, Function.update_self, if_pos rfl]
      simp
    · rw [Function.update_of_ne hy, if_neg hy]
  · obtain ⟨slot, hslot, heq⟩ := Option.map_eq_some_iff.mp he
    cases heq
    rw [element_of_content he] at hnew
    rw [halike.content, hb, setStop, content_update, content, hslots y]
    by_cases hyc : y = a.slots.size
    · have hxy : x ≠ y := fun heq => Nat.lt_irrefl _ (hyc ▸ heq ▸ hlt)
      rw [if_neg hxy, if_pos hyc, if_pos hyc, hnew]
      rfl
    · rw [if_neg hyc, if_neg hyc]
      by_cases hyx : y = x
      · rw [if_pos hyx.symm, if_pos hyx, hyx, hslot]
        rfl
      · rw [if_neg (Ne.symm hyx), if_neg hyx]
        rfl

end Full

/-! ## Mark-up in an arena -/

/-- Below the nodes of some mark-up are its rows, and in their slots its elements. -/
def Carries (a : Arena) (row : NodeId → List NodeId) : Markup → Prop
  | .nil => True
  | .node n kids rest =>
    (row n.id = rootIds kids ∧ a.content n.id = some (.element, n.toElement)) ∧
      Carries a row kids ∧ Carries a row rest

section Carries

variable {row row' : NodeId → List NodeId} {m f g : Markup} {n : Node} {Q : NodeId}
  {u : Tree Node}

theorem carries_append : a.Carries row (f ++ g) ↔ a.Carries row f ∧ a.Carries row g := by
  induction f with
  | nil => exact (true_and _).symm.to_iff
  | node n kids rest _ ih =>
    rw [Forest.node_append, Carries, Carries, ih]
    tauto

theorem Carries.congr (h : a.Carries row m)
    (hx : ∀ x ∈ m.ids, row' x = row x ∧ b.content x = a.content x) : b.Carries row' m := by
  induction m with
  | nil => trivial
  | node n kids rest ihk ihr =>
    obtain ⟨⟨hrow, hcontent⟩, hkids, hrest⟩ := h
    simp only [ids_node, List.mem_cons, List.mem_append] at hx
    obtain ⟨hn₁, hn₂⟩ := hx n.id (.inl rfl)
    exact ⟨⟨hn₁.trans hrow, hn₂.trans hcontent⟩, ihk hkids fun x h => hx x (.inr (.inl h)),
      ihr hrest fun x h => hx x (.inr (.inr h))⟩

theorem Carries.unfolds (h : a.Carries row m) : Unfolds row m.shape := by
  induction m with
  | nil => trivial
  | node n kids rest ihk ihr =>
    obtain ⟨⟨hrow, -⟩, hkids, hrest⟩ := h
    exact ⟨(labels_shape kids).trans hrow.symm, ihk hkids, ihr hrest⟩

theorem carries_of_unfolds (h : Unfolds row m.shape)
    (hnodes : ∀ n ∈ m.preorder, a.content n.id = some (.element, n.toElement)) :
    a.Carries row m := by
  induction m with
  | nil => trivial
  | node n kids rest ihk ihr =>
    obtain ⟨hrow, hkids, hrest⟩ := h
    rw [Forest.preorder_node] at hnodes
    exact ⟨⟨hrow.symm.trans (labels_shape kids), hnodes n (List.mem_cons_self ..)⟩,
      ihk hkids fun k hk => hnodes k (List.mem_cons_of_mem _ (List.mem_append_left _ hk)),
      ihr hrest fun k hk => hnodes k (List.mem_cons_of_mem _ (List.mem_append_right _ hk))⟩

theorem Carries.node (h : a.Carries row m) (hn : n ∈ m.preorder) :
    a.content n.id = some (.element, n.toElement) := by
  induction m with
  | nil => cases hn
  | node k kids rest ihk ihr =>
    obtain ⟨⟨-, hcontent⟩, hkids, hrest⟩ := h
    rw [Forest.preorder_node, List.mem_cons, List.mem_append] at hn
    rcases hn with rfl | hn | hn
    · exact hcontent
    · exact ihk hkids hn
    · exact ihr hrest hn

theorem Carries.element (h : a.Carries row m) (hn : n ∈ m.preorder) :
    a.element n.id = n.toElement := element_of_content (h.node hn)

theorem Carries.tree (h : a.Carries row m) (hu : m.node? x = some u) :
    a.Carries row (Forest.ofTree u) := by
  induction m with
  | nil => cases hu
  | node k kids rest ihk ihr =>
    obtain ⟨hk, hkids, hrest⟩ := h
    rw [node?_node] at hu
    split at hu
    · cases hu
      exact ⟨hk, hkids, trivial⟩
    · rcases Option.or_eq_some_iff.mp hu with hu | ⟨-, hu⟩
      · exact ihk hkids hu
      · exact ihr hrest hu

theorem Carries.row_of_node? (h : a.Carries row m) (hu : m.node? x = some u) :
    row x = rootIds u.children ∧ a.Carries row u.children := by
  have htree := h.tree hu
  exact ⟨(node?_spec hu).1 ▸ htree.1.1, htree.2.1⟩

theorem rootIds_withBelow (Q : NodeId) (g m : Markup) : (withBelow Q g m).rootIds = m.rootIds := by
  induction m with
  | nil => rfl
  | node n kids rest _ ih =>
    rw [withBelow_node]
    exact congrArg (n.id :: ·) ih

/-- Another row below one node. -/
theorem Carries.withBelow (h : a.Carries row m) (hm : m.ids.Nodup) (hu : m.node? Q = some u)
    (hg : b.Carries row' g) (hrow : row' Q = rootIds g) (hQ : b.content Q = a.content Q)
    (hother : ∀ x ∈ m.ids, x ≠ Q → x ∉ ids u.children →
      row' x = row x ∧ b.content x = a.content x) : b.Carries row' (withBelow Q g m) := by
  induction m with
  | nil => cases hu
  | node n kids rest ihk ihr =>
    obtain ⟨⟨hnrow, hncontent⟩, hkids, hrest⟩ := h
    obtain ⟨hnk, hnr, hk, hr, hkr⟩ := nodup_node.mp hm
    have hin : n.id ∈ ids (.node n kids rest) := by simp
    have hinkids {x : NodeId} (hx : x ∈ ids kids) : x ∈ ids (.node n kids rest) := by simp [hx]
    have hinrest {x : NodeId} (hx : x ∈ ids rest) : x ∈ ids (.node n kids rest) := by simp [hx]
    rw [node?_node] at hu
    rw [withBelow_node]
    split at hu
    · next hn =>
      cases hu
      have hQr : Q ∉ ids rest := hn ▸ hnr
      rw [if_pos hn, withBelow_of_not_mem hQr]
      refine ⟨⟨hn ▸ hrow, (hn ▸ hQ).trans hncontent⟩, hg, hrest.congr fun x hx => ?_⟩
      exact hother x (hinrest hx) (fun heq => hQr (heq ▸ hx)) fun hmem => hkr x hmem hx
    · next hn =>
      rw [if_neg hn]
      rcases Option.or_eq_some_iff.mp hu with hu | ⟨hnone, hu⟩
      · have hsub : ∀ x ∈ ids u.children, x ∈ ids kids := fun x hx =>
          treeIds_subset hu (treeIds_eq u ▸ List.mem_cons_of_mem _ hx)
        have hQk := mem_of_node? hu
        obtain ⟨h₁, h₂⟩ := hother n.id hin hn fun hmem => hnk (hsub _ hmem)
        refine ⟨⟨?_, h₂.trans hncontent⟩, ihk hkids hk hu fun x hx => hother x (hinkids hx), ?_⟩
        · rw [rootIds_withBelow, h₁, hnrow]
        · rw [withBelow_of_not_mem (hkr Q hQk)]
          exact hrest.congr fun x hx => hother x (hinrest hx)
            (fun heq => hkr Q hQk (heq ▸ hx)) fun hmem => hkr x (hsub x hmem) hx
      · have hsub : ∀ x ∈ ids u.children, x ∈ ids rest := fun x hx =>
          treeIds_subset hu (treeIds_eq u ▸ List.mem_cons_of_mem _ hx)
        have hQk := node?_eq_none_iff.mp hnone
        obtain ⟨h₁, h₂⟩ := hother n.id hin hn fun hmem => hnr (hsub _ hmem)
        rw [withBelow_of_not_mem hQk]
        refine ⟨⟨h₁.trans hnrow, h₂.trans hncontent⟩, hkids.congr fun x hx => ?_,
          ihr hrest hr hu fun x hx => hother x (hinrest hx)⟩
        exact hother x (hinkids hx) (fun heq => hQk (heq ▸ hx)) fun hmem => hkr x hx (hsub x hmem)

end Carries

end Arena

/-! ## Documents -/

namespace Document

open Markup

/-- The slot of a node: what can be seen of it. -/
def slot (doc : Document) (id : NodeId) : Slot :=
  match doc.view? id with
  | some v => { kind := v.kind, element := ⟨v.name, v.span, v.attributes⟩, links := v.links }
  | none => { element := default }

/-- The arena of a document: a slot for every number that was given out, and the names. -/
def arena (doc : Document) : Arena where
  slots := ((List.range doc.next).map doc.slot).toArray
  names := doc.names

section Slots

variable {doc : Document} {x : NodeId} {n : Node} {links : Links}

theorem slot_links (h : (doc.view? x).map (·.links) = some links) :
    (doc.slot x).links = links := by
  obtain ⟨v, hv, rfl⟩ := Option.map_eq_some_iff.mp h
  rw [slot, hv]

theorem slot_rootId (doc : Document) : doc.slot rootId =
    { kind := .document, element := ⟨"", doc.wholeSpan, {}⟩
      links := Links.ofRow rootId none [rootId] doc.markup.rootIds } := by
  have hview : doc.view? rootId = some
      { kind := .document, name := "", nameId := 0, span := doc.wholeSpan, attributes := {}
        links := Links.ofRow rootId none [rootId] doc.markup.rootIds } := if_pos rfl
  rw [slot, hview]

theorem Rooted.slot_of_node (h : doc.Rooted) (hn : n ∈ doc.markup.preorder) :
    (doc.slot n.id).kind = .element ∧ (doc.slot n.id).element = n.toElement := by
  obtain ⟨⟨p, r, kids, hnode⟩, q, r', kids', hlinks⟩ :=
    And.intro ((everywhere_node? h.nodup none doc.markup.labels).at hn)
      ((everywhere_links? h.nodup rootId).at hn)
  have hview := h.view?_of_mem (id_mem_ids hn)
  rw [hnode, hlinks] at hview
  rw [slot, hview]
  exact ⟨rfl, rfl⟩

theorem slot?_arena (doc : Document) (x : NodeId) :
    doc.arena.slot? x = if x < doc.next then some (doc.slot x) else none := by
  show ((List.range doc.next).map doc.slot).toArray[x]? = _
  rw [List.getElem?_toArray, List.getElem?_map]
  by_cases hx : x < doc.next
  · rw [if_pos hx, List.getElem?_range hx]
    rfl
  · rw [if_neg hx, List.getElem?_eq_none (by simpa using hx)]
    rfl

theorem size_arena (doc : Document) : doc.arena.slots.size = doc.next := by simp [arena]

theorem content_arena (hx : x < doc.next) :
    doc.arena.content x = some ((doc.slot x).kind, (doc.slot x).element) := by
  rw [Arena.content, slot?_arena, if_pos hx]
  rfl

end Slots

end Document

namespace Arena

open Document Markup

/-- The arena has the rows and the contents of the document. -/
structure Stores (a : Arena) (s : Family) (doc : Document) : Prop extends a.Full s where
  size : a.slots.size = doc.next
  names : a.names = doc.names
  root : s.row rootId = doc.markup.rootIds
  whole : a.content rootId = some (.document, ⟨"", doc.wholeSpan, {}⟩)
  carries : a.Carries s.row doc.markup

/-- Links that describe a forest are told by it. -/
theorem links_of_describes {links links' : NodeId → Option Links} {parent : NodeId}
    {previous : Option NodeId} {f : Forest NodeId} (h : Describes links parent previous f)
    (h' : Describes links' parent previous f) {x : NodeId} (hx : x ∈ f.preorder) :
    links x = links' x := by
  induction f generalizing parent previous with
  | nil => cases hx
  | node y kids rest ihk ihr =>
    rw [Forest.preorder_node, List.mem_cons, List.mem_append] at hx
    rcases hx with rfl | hx | hx
    · exact h.1.trans h'.1.symm
    · exact ihk h.2.1 h'.2.1 hx
    · exact ihr h.2.2 h'.2.2 hx

namespace Stores

variable {a : Arena} {s : Family} {doc : Document} {x : NodeId} (h : a.Stores s doc)
include h

theorem root_live : rootId ∈ s.live := by
  obtain ⟨slot, hslot, -⟩ := Option.map_eq_some_iff.mp h.whole
  refine h.mem_live.mpr (Nat.lt_of_not_le fun hle => ?_)
  rw [slot?, Array.getElem?_eq_none hle] at hslot
  cases hslot

theorem root_labels : s.row rootId = [] ++ doc.markup.shape.labels := by
  rw [labels_shape, h.root, List.nil_append]

/-- The elements are the nodes of all slots but the first. -/
theorem mem_ids : x ∈ doc.markup.ids ↔ x ≠ rootId ∧ x < doc.next := by
  obtain ⟨-, habove, hroot, -⟩ := h.sound.apart h.carries.unfolds h.root_labels
  rw [shape_preorder] at habove hroot
  rw [← h.size, ← h.mem_live]
  constructor
  · exact fun hx => ⟨fun heq => hroot (heq ▸ hx), h.sound.live_of_above (habove x hx)⟩
  · rintro ⟨hne, hx⟩
    obtain ⟨y, hy, hloose, hclan⟩ := h.sound.exists_loose hx
    obtain rfl := (h.loose y hy).mp hloose
    have hmem := (h.sound.mem_preorder (labels_shape _ |>.trans h.root.symm) h.carries.unfolds
      (y := x)).mpr
    rw [shape_preorder] at hmem
    exact hmem (((h.sound.below_spec rootId).2.2.2 x).mp hclan |>.resolve_left hne)

theorem rooted : doc.Rooted := by
  obtain ⟨hnodup, -, hroot, -⟩ := h.sound.apart h.carries.unfolds h.root_labels
  rw [shape_preorder] at hnodup hroot
  exact List.nodup_cons.mpr ⟨hroot, hnodup⟩

theorem links_eq (hx : x < doc.next) : (doc.view? x).map (·.links) = some (a.links x) := by
  obtain ⟨hlinks, hroot⟩ := h.rooted.links
  by_cases hx0 : x = rootId
  · rw [hx0, hroot, h.toKeeps.links rootId h.root_live,
      Family.links_of_loose ((h.loose rootId h.root_live).mpr rfl), h.root, labels_shape]
  · refine links_of_describes hlinks (h.describes h.carries.unfolds h.root_labels) ?_
    rw [shape_preorder]
    exact h.mem_ids.mpr ⟨hx0, hx⟩

/-- The rows are those of the document. -/
theorem row_eq (x : NodeId) : s.row x = doc.children x := by
  by_cases hx0 : x = rootId
  · rw [hx0, h.root, Document.children, Document.below, if_pos rfl]
  · rw [Document.children, Document.below, if_neg hx0]
    cases hu : doc.markup.node? x with
    | some u => exact (h.carries.row_of_node? hu).1
    | none =>
      refine List.eq_nil_iff_forall_not_mem.mpr fun y hy => ?_
      exact node?_eq_none_iff.mp hu (h.mem_ids.mpr ⟨hx0, h.size ▸ h.live_lt (h.owner_live hy)⟩)

/-- Every element stands in a row. -/
theorem exists_row (hx : x ∈ doc.markup.ids) : ∃ p l₁ l₂, s.row p = l₁ ++ x :: l₂ := by
  obtain ⟨hne, hlt⟩ := h.mem_ids.mp hx
  have hparent := (h.loose x (h.mem_live.mpr (h.size ▸ hlt))).not.mpr hne
  obtain ⟨p, hp⟩ := Option.ne_none_iff_exists'.mp hparent
  obtain ⟨l₁, l₂, hrow⟩ := List.append_of_mem (h.sound.mem_row.mpr hp)
  exact ⟨p, l₁, l₂, hrow⟩

/-- Rows and contents leave nothing open. -/
theorem eq_arena : a = doc.arena := by
  have hslots : a.slots = doc.arena.slots := by
    refine Array.ext_getElem? fun x => ?_
    show a.slot? x = doc.arena.slot? x
    rw [slot?_arena]
    by_cases hx : x < doc.next
    · obtain ⟨t, ht⟩ := slot?_isSome (h.size ▸ hx)
      have hfound : a.links x = t.links := by rw [Arena.links, ht]; rfl
      have hlinks := slot_links (h.links_eq hx)
      have hcontent : some (t.kind, t.element) = a.content x := by rw [content, ht]; rfl
      have hsame : t.kind = (doc.slot x).kind ∧ t.element = (doc.slot x).element := by
        by_cases hx0 : x = rootId
        · rw [hx0, h.whole] at hcontent
          rw [hx0, slot_rootId]
          exact Prod.mk.inj (Option.some.inj hcontent)
        · obtain ⟨n, hn, rfl⟩ := List.mem_map.mp (h.mem_ids.mpr ⟨hx0, hx⟩)
          rw [h.carries.node hn] at hcontent
          rw [(h.rooted.slot_of_node hn).1, (h.rooted.slot_of_node hn).2]
          exact Prod.mk.inj (Option.some.inj hcontent)
      rw [if_pos hx, ht, slot_ext hsame.1 hsame.2 (hfound.symm.trans hlinks.symm)]
    · rw [if_neg hx]
      exact Array.getElem?_eq_none (h.size ▸ Nat.le_of_not_lt hx)
  have hfree := h.free
  have hnames := h.names
  cases a
  cases hslots
  cases hfree
  cases hnames
  rfl

end Stores

end Arena

namespace Document

open Markup

/-- The arena of a document has its rows and its contents. -/
theorem WellFormed.stores {doc : Document} (h : doc.WellFormed) :
    ∃ s, doc.arena.Stores s doc := by
  have hshape : doc.markup.shape.preorder = doc.markup.ids := shape_preorder _
  obtain ⟨s, hsound, hlive, hreleased, hunfolds, hroot, -, hparent, hbelow⟩ :=
    Family.Sound.exists_grown (s := { live := [rootId] }) (p := rootId) (f := doc.markup.shape)
      { live_nodup := by simp, row_nodup := by simp, mem_row := by simp [Family.Over]
        inside := by simp [Family.Over], ranked := ⟨fun _ => 0, by simp [Family.Over]⟩ }
      (by simp) (hshape ▸ h.nodup)
      (fun x hx hmem => h.rootId_not_mem (List.mem_singleton.mp hmem ▸ hshape ▸ hx)) rfl
  have hperm : s.live.Perm (List.range doc.next) := by
    refine hlive.trans (List.Perm.trans ?_ h.perm_range)
    rw [hshape]
    exact List.perm_append_comm
  have hlabels : s.row rootId = [] ++ doc.markup.shape.labels := hroot
  have hloose : ∀ x ∈ s.live, s.parent x = none ↔ x = rootId := fun x hx => by
    constructor
    · intro hnone
      rcases List.mem_append.mp (hlive.mem_iff.mp hx) with hx | hx
      · exact absurd hnone (hbelow x hx)
      · exact List.mem_singleton.mp hx
    · rintro rfl
      exact hparent rootId (List.mem_singleton_self _)
  have hlinks : ∀ x ∈ s.live, doc.arena.links x = s.links x := fun x hx => by
    have hlt := List.mem_range.mp (hperm.mem_iff.mp hx)
    have hfound : (doc.view? x).map (·.links) = some (s.links x) := by
      by_cases hx0 : x = rootId
      · subst hx0
        rw [h.links.2, Family.links_of_loose ((hloose _ hx).mpr rfl), hlabels, List.nil_append]
      · refine Arena.links_of_describes h.links.1 (hsound.describes hunfolds hlabels) ?_
        exact (List.mem_append.mp (hlive.mem_iff.mp hx)).resolve_right fun hmem =>
          hx0 (List.mem_singleton.mp hmem)
    rw [Arena.links, slot?_arena, if_pos hlt]
    exact slot_links hfound
  refine ⟨s, { sound := hsound, links := hlinks, cover := ?_, freed := ?_, free := rfl
               loose := hloose, size := size_arena doc, names := rfl, root := ?_, whole := ?_
               carries := Arena.carries_of_unfolds hunfolds fun n hn => ?_ }⟩
  · rw [size_arena]
    exact (List.append_nil s.live).symm ▸ hperm
  · rw [hreleased]
    exact .refl _
  · rw [hlabels, labels_shape, List.nil_append]
  · rw [content_arena (x := rootId) (Nat.lt_of_lt_of_le Nat.zero_lt_one h.pos), slot_rootId]
  · rw [content_arena (h.mem_ids_iff.mp (id_mem_ids hn)).2, (h.rooted.slot_of_node hn).1,
      (h.rooted.slot_of_node hn).2]

/-- The number of a name is the one that the pool knows it by. -/
theorem view?_nameId {doc : Document} {x : NodeId} {v : NodeView} (h : doc.view? x = some v) :
    v.nameId = (doc.names.lookup v.name).getD 0 := by
  rw [view?] at h
  split at h
  · -- the document node has the empty name, which every pool knows by 0
    cases h
    rfl
  · obtain ⟨t, -, ht⟩ := Option.bind_eq_some_iff.mp h
    obtain ⟨links, -, rfl⟩ := Option.map_eq_some_iff.mp ht
    rfl

/-- The slots of an arena show what the document shows. -/
theorem WellFormed.view?_arena {doc : Document} (h : doc.WellFormed) (x : NodeId) :
    doc.arena.view? x = doc.view? x := by
  rw [Arena.view?, slot?_arena]
  by_cases hx : x < doc.next
  · obtain ⟨v, hv⟩ := Option.isSome_iff_exists.mp (h.view?_isSome.mpr hx)
    rw [if_pos hx, Option.map_some, slot, hv]
    refine congrArg some ?_
    show { v with nameId := (doc.names.lookup v.name).getD 0 } = v
    rw [← view?_nameId hv]
  · rw [if_neg hx, Option.not_isSome_iff_eq_none.mp (mt h.view?_isSome.mp hx)]
    rfl

end Document

end Standoff
