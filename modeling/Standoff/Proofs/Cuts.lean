import Standoff.Proofs.Divisions
import Standoff.Proofs.Layouts

/-!
# Cuts along links

The loop that cuts a node walks along a row which its own body changes: a child around the position
is cut first, so that its markers and its right half stand behind it in the row, and the loop comes
to them next.  With the rows of an arena at hand the loop is told by four of them:

    row of the node     left of the cursor: what stays; from the cursor on: what is to come
    row of the right half                   what went there
    row of the parent   in front of the right half: the markers

Each step takes one node from the cursor to its side.  A row of mark-up in an arena comes out as
`Markup.divide` has it.

* `Arena.Cutting`: the rows while a node is cut; one lemma for each step.
* `Arena.CutsRow`, `Arena.cutsRow`: the loop over a row.
* `Arena.CutsTree`, `Arena.cutsTree`: the cut of one node.
-/

namespace Standoff

namespace Arena

open Document Markup

variable {a b : Arena} {s t : Family} {x c id parent right : NodeId} {pos fuel : Nat}
  {done todo moved before behind rows slots : List NodeId} {m f : Markup} {n : Node} {span : Span}
  {sup : Supply}

/-! ## What a change leaves alone -/

/-- On the way from one arena to another, nodes that were there keep their rows outside `rows` and
their contents outside `slots`. -/
structure Frame (a : Arena) (s : Family) (rows slots : List NodeId) (b : Arena) (t : Family) :
    Prop where
  size : a.slots.size ≤ b.slots.size
  names : b.names = a.names
  row : ∀ x < a.slots.size, x ∉ rows → t.row x = s.row x
  content : ∀ x < a.slots.size, x ∉ slots → b.content x = a.content x

namespace Frame

theorem refl (a : Arena) (s : Family) : Frame a s [] [] a s :=
  ⟨Nat.le_refl _, rfl, fun _ _ _ => rfl, fun _ _ _ => rfl⟩

theorem mono {rows' slots' : List NodeId} (h : Frame a s rows slots b t) (hrows : rows ⊆ rows')
    (hslots : slots ⊆ slots') : Frame a s rows' slots' b t :=
  ⟨h.size, h.names, fun x hx hout => h.row x hx fun hmem => hout (hrows hmem),
    fun x hx hout => h.content x hx fun hmem => hout (hslots hmem)⟩

/-- A later change counts for the nodes that were there before. -/
theorem trans {d : Arena} {u : Family} {rows' slots' : List NodeId}
    (h₁ : Frame a s rows slots b t) (h₂ : Frame b t rows' slots' d u)
    (hrows : ∀ x ∈ rows', x < a.slots.size → x ∈ rows)
    (hslots : ∀ x ∈ slots', x < a.slots.size → x ∈ slots) : Frame a s rows slots d u where
  size := Nat.le_trans h₁.size h₂.size
  names := h₂.names.trans h₁.names
  row x hx hout := (h₂.row x (Nat.lt_of_lt_of_le hx h₁.size) fun hmem =>
    hout (hrows x hmem hx)).trans (h₁.row x hx hout)
  content x hx hout := (h₂.content x (Nat.lt_of_lt_of_le hx h₁.size) fun hmem =>
    hout (hslots x hmem hx)).trans (h₁.content x hx hout)

theorem carries (h : Frame a s rows slots b t) (hm : a.Carries s.row m)
    (hin : ∀ x ∈ m.ids, x < a.slots.size ∧ x ∉ rows ∧ x ∉ slots) : b.Carries t.row m :=
  hm.congr fun x hx =>
    ⟨h.row x (hin x hx).1 (hin x hx).2.1, h.content x (hin x hx).1 (hin x hx).2.2⟩

end Frame

/-! ## Steps of a cut -/

/-- The rows while `id` is cut. -/
structure Cutting (a : Arena) (s : Family) (id parent right : NodeId)
    (done todo moved before behind : List NodeId) : Prop extends a.Full s where
  row : s.row id = done ++ todo
  moved : s.row right = moved
  outer : s.row parent = before ++ right :: behind
  isOver : s.Over parent id
  ne : right ≠ id

namespace Cutting

theorem parent_ne (h : Cutting a s id parent right done todo moved before behind) : parent ≠ id :=
  (h.sound.ne_parent h.isOver).symm

theorem over_right (h : Cutting a s id parent right done todo moved before behind) :
    s.Over parent right :=
  h.sound.mem_row.mp (h.outer ▸ List.mem_append_right _ (List.mem_cons_self ..))

theorem right_ne (h : Cutting a s id parent right done todo moved before behind) : right ≠ parent :=
  h.sound.ne_parent h.over_right

section Child

variable (h : Cutting a s id parent right done (c :: todo) moved before behind)
include h

theorem over_child : s.Over id c :=
  h.sound.mem_row.mp (h.row ▸ List.mem_append_right _ (List.mem_cons_self ..))

/-- A child is in no other row. -/
theorem not_in (hx : x ≠ id) : c ∉ s.row x := fun hmem =>
  hx (Option.some.inj ((h.sound.mem_row.mp hmem).symm.trans h.over_child))

/-- Neither the parent nor the right half is below a child. -/
theorem not_over :
    ¬ Relation.ReflTransGen s.Over c parent ∧ ¬ Relation.ReflTransGen s.Over c right := by
  have hparent : ¬ Relation.ReflTransGen s.Over c parent := fun hc =>
    h.sound.not_above_self c ((Relation.TransGen.tail' hc h.isOver).tail h.over_child)
  refine ⟨hparent, fun hc => ?_⟩
  rcases Relation.ReflTransGen.cases_tail hc with heq | ⟨z, hz, hright⟩
  · exact h.not_in h.parent_ne (h.sound.mem_row.mpr (heq ▸ h.over_right))
  · cases hright.symm.trans h.over_right
    exact hparent hz

theorem erase_row : (s.row id).erase c = done ++ todo := by
  have hdone : c ∉ done := (h.sound.not_beside h.row).1
  rw [h.row, List.erase_append_right _ hdone, List.erase_cons_head]

/-- The loop goes on at the node behind. -/
theorem next_eq : (a.links c).next = todo.head? := h.next_of_row h.row

/-- A marker goes in front of the right half. -/
theorem lift (hpos : span.isEmptyAt pos = true) : ∃ t,
    Cutting (a.shift pos span parent right c) t id parent right done todo moved (before ++ [c])
        behind ∧
      Frame a s [id, parent, right] [] (a.shift pos span parent right c) t := by
  have hsplit : (s.row parent).erase c = before ++ right :: behind :=
    (List.erase_of_not_mem (h.not_in h.parent_ne)).trans h.outer
  obtain ⟨t, hfull, halike, hrow⟩ :=
    h.move h.over_child (h.sound.inside h.isOver).1 h.not_over.1 hsplit
  rw [shift, if_pos hpos]
  have hparent : t.row parent = before ++ c :: right :: behind := by rw [hrow, if_pos rfl]
  refine ⟨t, ⟨hfull, ?_, ?_, ?_, ?_, h.ne⟩,
    ⟨Nat.le_of_eq halike.size.symm, halike.names, fun y _ hy => ?_, fun y _ _ => halike.content y⟩⟩
  · rw [hrow, if_neg h.parent_ne.symm, h.erase_row]
  · rw [hrow, if_neg h.right_ne, List.erase_of_not_mem (h.not_in h.ne), h.moved]
  · simpa using hparent
  · have hmem : id ∈ s.row parent := h.sound.mem_row.mpr h.isOver
    rw [h.outer] at hmem
    refine hfull.sound.mem_row.mp ?_
    rw [hparent]
    simp only [List.mem_append, List.mem_cons] at hmem ⊢
    tauto
  · simp only [List.mem_cons, not_or] at hy
    rw [hrow, if_neg hy.2.1, List.erase_of_not_mem (h.not_in hy.1)]

/-- What starts at the position or later goes below the right half. -/
theorem pass (hpos : span.isEmptyAt pos = false) (hle : pos ≤ span.start) : ∃ t,
    Cutting (a.shift pos span parent right c) t id parent right done todo (moved ++ [c]) before
        behind ∧
      Frame a s [id, parent, right] [] (a.shift pos span parent right c) t := by
  have hsplit : (s.row right).erase c = moved ++ [] := by
    rw [List.erase_of_not_mem (h.not_in h.ne), h.moved, List.append_nil]
  obtain ⟨t, hfull, halike, hrow⟩ :=
    h.move h.over_child (h.sound.inside h.over_right).2 h.not_over.2 hsplit
  rw [shift, if_neg (by simp [hpos]), if_pos hle]
  have hparent : t.row parent = s.row parent := by
    rw [hrow, if_neg h.right_ne.symm, List.erase_of_not_mem (h.not_in h.parent_ne)]
  refine ⟨t, ⟨hfull, ?_, ?_, ?_, ?_, h.ne⟩,
    ⟨Nat.le_of_eq halike.size.symm, halike.names, fun y _ hy => ?_, fun y _ _ => halike.content y⟩⟩
  · rw [hrow, if_neg h.ne.symm, h.erase_row]
  · rw [hrow, if_pos rfl]
  · rw [hparent, h.outer]
  · exact hfull.sound.mem_row.mp (hparent ▸ h.sound.mem_row.mpr h.isOver)
  · simp only [List.mem_cons, not_or] at hy
    rw [hrow, if_neg hy.2.2.1, List.erase_of_not_mem (h.not_in hy.1)]

/-- What starts before the position stays. -/
theorem stay : Cutting a s id parent right (done ++ [c]) todo moved before behind :=
  { h with row := by rw [h.row, List.append_assoc]; rfl }

end Child

end Cutting

/-! ## The loop -/

theorem size_shift (a : Arena) (pos : Nat) (span : Span) (parent right c : NodeId) :
    (a.shift pos span parent right c).slots.size = a.slots.size := by
  unfold shift
  split
  · exact (frame_insertBefore ..).2.trans (frame_detach ..).2
  · split
    · exact (frame_insertBefore (a.detach c) right none c).2.trans (frame_detach ..).2
    · rfl

theorem splitRow_whole (hpos : (a.element c).span.strictlyContains pos = false) :
    a.splitRow pos (fuel + 1) id parent right (some c) =
      ((a.shift pos (a.element c).span parent right c).splitRow pos fuel id parent right
        (a.links c).next).map fun r => (r.1, (id, c) :: r.2) := by
  rw [splitRow, hpos]
  rfl

theorem splitRow_cut {cut : Halves} (hpos : (a.element c).span.strictlyContains pos = true)
    (hcut : a.split pos fuel c = some cut) : a.splitRow pos (fuel + 1) id parent right (some c) =
      (cut.arena.splitRow pos fuel id parent right (cut.arena.links c).next).map fun r =>
        (r.1, (id, c) :: cut.visits ++ r.2) := by
  obtain ⟨r, hr, rfl⟩ := Option.map_eq_some_iff.mp hcut
  have hshift : r.1.shift pos (a.element c).span parent right c = r.1 := by
    rw [Span.strictlyContains_iff] at hpos
    have hempty : ¬ (a.element c).span.isEmptyAt pos = true := by
      rw [Span.isEmptyAt_iff]
      omega
    rw [shift, if_neg hempty, if_neg (by omega)]
  rw [splitRow, if_pos hpos, hr, Option.bind_some, hshift]

/-- Markers at the cursor all go in front of the right half. -/
theorem Cutting.lift_all {l : List NodeId}
    (h : Cutting a s id parent right done (l ++ todo) moved before behind)
    (hl : ∀ c ∈ l, (a.element c).span.isEmptyAt pos = true) :
    ∃ b t, Cutting b t id parent right done todo moved (before ++ l) behind ∧
      b.slots.size = a.slots.size ∧ Frame a s [id, parent, right] [] b t ∧
      ∀ fuel, a.splitRow pos (fuel + l.length) id parent right (l ++ todo).head? =
        (b.splitRow pos fuel id parent right todo.head?).map fun r =>
          (r.1, l.map (fun c => (id, c)) ++ r.2) := by
  induction l generalizing a s before with
  | nil =>
    refine ⟨a, s, by simpa using h, rfl, (Frame.refl a s).mono (by simp) (by simp), fun fuel => ?_⟩
    exact (Option.map_id' (x := a.splitRow pos fuel id parent right todo.head?)).symm
  | cons c l ih =>
    rw [List.cons_append] at h
    have hc := hl c (List.mem_cons_self ..)
    obtain ⟨t, hstep, hframe⟩ := h.lift hc
    have hsame : ∀ x ∈ l, (a.shift pos (a.element c).span parent right c).element x = a.element x :=
      fun x hx => element_congr (hframe.content x
        (h.row_lt (h.row ▸ List.mem_append_right _ (List.mem_cons_of_mem _
          (List.mem_append_left _ hx)))) List.not_mem_nil)
    obtain ⟨d, u, hd, hsize, hframe', hloop⟩ :=
      ih hstep fun x hx => hsame x hx ▸ hl x (List.mem_cons_of_mem _ hx)
    refine ⟨d, u, by simpa using hd, hsize.trans (size_shift ..),
      hframe.trans hframe' (fun _ hx _ => hx) (fun _ hx _ => hx), fun fuel => ?_⟩
    have hwhole : (a.element c).span.strictlyContains pos = false := by
      rw [Span.isEmptyAt_iff] at hc
      rw [← Bool.not_eq_true, Span.strictlyContains_iff]
      omega
    show a.splitRow pos (fuel + l.length + 1) id parent right (some c) = _
    rw [splitRow_whole hwhole, h.next_eq, hloop, Option.map_map]
    rfl

/-! ## Rows -/

/-- A node that is cut, before its children are gone through. -/
theorem Full.begin {p : NodeId} {l₁ l₂ : List NodeId} (h : a.Full s) (hrow : s.row p = l₁ ++ x :: l₂)
    (hx : a.content x = some (.element, n.toElement)) (pos : Nat) :
    (a.halve pos x).2 = a.slots.size ∧ ∃ t,
      Cutting (a.halve pos x).1 t x p a.slots.size [] (s.row x) [] (l₁ ++ [x]) l₂ ∧
      (a.halve pos x).1.slots.size = a.slots.size + 1 ∧
      Frame a s [p] [x] (a.halve pos x).1 t ∧
      (a.halve pos x).1.content x = some (.element, (n.leftHalf pos).toElement) ∧
      (a.halve pos x).1.content a.slots.size =
        some (.element, (n.rightHalf pos a.slots.size).toElement) := by
  obtain ⟨hright, t, hfull, hrows, hsize, hnames, hcontent⟩ := h.halve hrow pos
  have hcontent := hcontent _ _ hx
  have hmem : x ∈ s.row p := hrow ▸ List.mem_append_right _ (List.mem_cons_self ..)
  have hxp : x ≠ p := h.sound.ne_parent (h.sound.mem_row.mp hmem)
  have hlt : x < a.slots.size := h.row_lt hmem
  have hplt : p < a.slots.size := h.live_lt (h.owner_live hmem)
  have hnew : s.row a.slots.size = [] := List.eq_nil_iff_forall_not_mem.mpr fun y hy =>
    Nat.lt_irrefl _ (h.live_lt (h.owner_live hy))
  have hp : t.row p = l₁ ++ x :: a.slots.size :: l₂ := by rw [hrows, if_pos rfl]
  refine ⟨hright, t, ⟨hfull, ?_, ?_, ?_, hfull.sound.mem_row.mp ?_, Nat.ne_of_gt hlt⟩, hsize,
    ⟨hsize ▸ Nat.le_succ _, hnames, fun y hy hyp => ?_, fun y hy hyx => ?_⟩, ?_, ?_⟩
  · rw [hrows, if_neg hxp, List.nil_append]
  · rw [hrows, if_neg (Nat.ne_of_gt hplt), hnew]
  · simpa using hp
  · rw [hp]
    exact List.mem_append_right _ (List.mem_cons_self ..)
  · rw [hrows, if_neg (by simpa using hyp)]
  · rw [hcontent, if_neg (Nat.ne_of_lt hy), if_neg (by simpa using hyx)]
  · rw [hcontent, if_neg (Nat.ne_of_lt hlt), if_pos rfl]
    rfl
  · rw [hcontent, if_pos rfl]
    rfl

/-- The mark-up of the row is apart from the nodes around it. -/
theorem Cutting.apart (h : Cutting a s id parent right done m.rootIds moved before behind)
    (hm : a.Carries s.row m) :
    m.ids.Nodup ∧ ∀ x ∈ m.ids, x < a.slots.size ∧ x ≠ id ∧ x ≠ parent ∧ x ≠ right := by
  obtain ⟨hnodup, habove, hid, hout⟩ := h.sound.apart hm.unfolds (labels_shape m ▸ h.row)
  rw [shape_preorder] at hnodup habove hid hout
  have hright : right ∉ m.ids := fun hmem => by
    rcases Relation.TransGen.tail'_iff.mp (habove right hmem) with ⟨q, hq, hover⟩
    cases hover.symm.trans h.over_right
    exact h.sound.not_above_self id (Relation.TransGen.tail' hq h.isOver)
  exact ⟨hnodup, fun x hx => ⟨h.live_lt (h.sound.live_of_above (habove x hx)),
    fun heq => hid (heq ▸ hx), fun heq => (hout parent h.isOver).1 (heq ▸ hx),
    fun heq => hright (heq ▸ hx)⟩⟩

/-- Cutting a node over the row `m` along links comes out as the division of the row. -/
def CutsRow (pos : Nat) (m : Markup) : Prop :=
  ∀ ⦃a : Arena⦄ ⦃s : Family⦄ ⦃id parent right : NodeId⦄ ⦃done moved before behind : List NodeId⦄
    ⦃sup : Supply⦄, Cutting a s id parent right done m.rootIds moved before behind →
    a.Carries s.row m → sup.next = a.slots.size →
    ∃ b t visits, (∀ fuel, 2 * m.size ≤ fuel →
        a.splitRow pos fuel id parent right m.rootIds.head? = some (b, visits)) ∧
      Cutting b t id parent right (done ++ (divide pos m sup).left.rootIds) []
        (moved ++ (divide pos m sup).right.rootIds) (before ++ (divide pos m sup).lifted.rootIds)
        behind ∧
      b.slots.size = (divide pos m sup).supply.next ∧ b.Carries t.row (divide pos m sup).row ∧
      Frame a s (id :: parent :: right :: m.ids) m.ids b t ∧
      visits.Nodup ∧ ∀ v ∈ visits, v.1 ∈ id :: m.ids ∧ v.2 ∈ (divide pos m sup).row.ids

/-- Cutting the tree of `n` along links comes out as the division of the tree. -/
def CutsTree (pos : Nat) (n : Node) (kids : Markup) : Prop :=
  ∀ ⦃a : Arena⦄ ⦃s : Family⦄ ⦃p : NodeId⦄ ⦃l₁ l₂ : List NodeId⦄ ⦃sup : Supply⦄,
    a.Full s → s.row p = l₁ ++ n.id :: l₂ → a.Carries s.row (.node n kids .nil) →
    sup.next = a.slots.size →
    ∃ b t visits, (∀ fuel, 2 * kids.size ≤ fuel →
        a.split pos fuel n.id = some ⟨b, a.slots.size, visits⟩) ∧
      b.Full t ∧ b.slots.size = (divide pos kids (sup.cut n pos)).supply.next ∧
      t.row p = l₁ ++ n.id :: ((divide pos kids (sup.cut n pos)).lifted.rootIds ++
        a.slots.size :: l₂) ∧
      b.Carries t.row (.node (n.leftHalf pos) (divide pos kids (sup.cut n pos)).left
        ((divide pos kids (sup.cut n pos)).lifted ++
          .node (n.rightHalf pos a.slots.size) (divide pos kids (sup.cut n pos)).right .nil)) ∧
      Frame a s (p :: n.id :: kids.ids) (n.id :: kids.ids) b t ∧
      visits.Nodup ∧ ∀ v ∈ visits,
        v.1 ∈ n.id :: kids.ids ∧ v.2 ∈ (divide pos kids (sup.cut n pos)).row.ids

theorem CutsRow.tree {kids : Markup} (h : CutsRow pos kids) (n : Node) : CutsTree pos n kids := by
  intro a s p l₁ l₂ sup hfull hrow hcarries hnext
  obtain ⟨⟨hkidsrow, hcontent⟩, hkids, -⟩ := hcarries
  obtain ⟨hright, t₁, hstart, hsize, hframe₁, hleft, hnew⟩ := hfull.begin hrow hcontent pos
  rw [hkidsrow] at hstart
  have hover := hfull.sound.mem_row.mp
    (hrow ▸ List.mem_append_right l₁ (List.mem_cons_self (a := n.id) (l := l₂)))
  have hlabels : s.row n.id = [] ++ kids.shape.labels := hkidsrow.trans (labels_shape kids).symm
  obtain ⟨-, habove, hn, hout⟩ := hfull.sound.apart hkids.unfolds hlabels
  rw [shape_preorder] at habove hn hout
  have hlt : ∀ x ∈ kids.ids, x < a.slots.size := fun x hx =>
    hfull.live_lt (hfull.sound.live_of_above (habove x hx))
  have hkids₁ := hframe₁.carries hkids fun x hx => ⟨hlt x hx,
    fun hmem => (hout p hover).1 (List.mem_singleton.mp hmem ▸ hx),
    fun hmem => hn (List.mem_singleton.mp hmem ▸ hx)⟩
  obtain ⟨b, t, visits, hloop, hend, hnext', hrow', hframe, hnodup, hvisits⟩ :=
    h hstart hkids₁ (show (sup.cut n pos).next = _ by rw [hsize, ← hnext]; rfl)
  have hnsize : n.id < a.slots.size := hfull.live_lt (hfull.sound.inside hover).2
  have hn₁ : b.content n.id = some (.element, (n.leftHalf pos).toElement) :=
    (hframe.content n.id (hsize ▸ Nat.lt_succ_of_lt hnsize) hn).trans hleft
  have hnew₁ : b.content a.slots.size =
      some (.element, (n.rightHalf pos a.slots.size).toElement) :=
    (hframe.content _ (hsize ▸ Nat.lt_succ_self _) fun hmem =>
      Nat.lt_irrefl _ (hlt _ hmem)).trans hnew
  rw [Division.row, Forest.append_assoc, carries_append, carries_append] at hrow'
  refine ⟨b, t, visits, fun fuel hfuel => ?_, hend.toFull, hnext', ?_,
    ⟨⟨?_, hn₁⟩, hrow'.1, carries_append.mpr ⟨hrow'.2.1, ⟨?_, hnew₁⟩, hrow'.2.2, trivial⟩⟩,
    ?_, hnodup, hvisits⟩
  · have hrow₁ : t₁.row p = l₁ ++ n.id :: (a.slots.size :: l₂) := by simpa using hstart.outer
    rw [Arena.split, hstart.links_of_row hrow₁, hright, hstart.row]
    exact Option.map_eq_some_iff.mpr ⟨_, hloop fuel hfuel, rfl⟩
  · simpa using hend.outer
  · show t.row n.id = _
    simpa using hend.row
  · show t.row a.slots.size = _
    simpa using hend.moved
  · refine (hframe₁.mono (by simp) (by simp)).trans hframe (fun x hx hxlt => ?_)
      (fun x hx hxlt => List.mem_cons_of_mem _ hx)
    have hne : x ≠ a.slots.size := Nat.ne_of_lt hxlt
    simp only [List.mem_cons] at hx ⊢
    tauto

/-- A node that stays whole is put on its side, and the loop goes on behind it. -/
theorem CutsRow.whole {kids rest : Markup} (hr : CutsRow pos rest)
    {done' moved' before' : List NodeId}
    (h : Cutting a s id parent right done (n.id :: rest.rootIds) moved before behind)
    (hm : a.Carries s.row (.node n kids rest)) (hnext : sup.next = a.slots.size)
    (hn : n.span.strictlyContains pos = false)
    (hstep : Cutting (a.shift pos n.span parent right n.id) t id parent right done' rest.rootIds
      moved' before' behind)
    (hframe : Frame a s [id, parent, right] [] (a.shift pos n.span parent right n.id) t) :
    ∃ b u visits, (∀ fuel, 2 * (Forest.node n kids rest).size ≤ fuel →
        a.splitRow pos fuel id parent right (some n.id) = some (b, visits)) ∧
      Cutting b u id parent right (done' ++ (divide pos rest sup).left.rootIds) []
        (moved' ++ (divide pos rest sup).right.rootIds)
        (before' ++ (divide pos rest sup).lifted.rootIds) behind ∧
      b.slots.size = (divide pos rest sup).supply.next ∧
      b.Carries u.row (.node n kids .nil) ∧ b.Carries u.row (divide pos rest sup).row ∧
      Frame a s (id :: parent :: right :: ids (.node n kids rest)) (ids (.node n kids rest)) b u ∧
      visits.Nodup ∧ ∀ v ∈ visits,
        v.1 ∈ id :: rest.ids ∧ (v.2 = n.id ∨ v.2 ∈ (divide pos rest sup).row.ids) := by
  obtain ⟨hnodup, hout⟩ := Cutting.apart (m := .node n kids rest) h hm
  simp only [ids_node, List.mem_cons, List.mem_append] at hout
  obtain ⟨hnk, hnr, -, -, hkr⟩ := nodup_node.mp hnodup
  obtain ⟨⟨hrow, hcontent⟩, hkids, hrest⟩ := hm
  have hrest₁ := hframe.carries hrest fun x hx =>
    ⟨(hout x (.inr (.inr hx))).1, by simpa using (hout x (.inr (.inr hx))).2, List.not_mem_nil⟩
  obtain ⟨b, u, visits, hloop, hend, hnext', hrow', hframe', hnodup', hvisits⟩ :=
    hr hstep hrest₁ (hnext.trans (size_shift ..).symm)
  -- the node itself and what is below it are out of the way
  have htree : b.Carries u.row (.node n kids .nil) := by
    refine hframe'.carries (hframe.carries ⟨⟨hrow, hcontent⟩, hkids, trivial⟩ fun x hx => ?_)
      fun x hx => ?_
    all_goals
      rw [ids_node, ids_nil, List.append_nil, List.mem_cons] at hx
      have hx' : x = n.id ∨ x ∈ kids.ids ∨ x ∈ rest.ids := hx.imp_right .inl
    · exact ⟨(hout x hx').1, by simpa using (hout x hx').2, List.not_mem_nil⟩
    · have hxr : x ∉ rest.ids := by
        rcases hx with rfl | hx
        · exact hnr
        · exact hkr x hx
      exact ⟨(size_shift ..).symm ▸ (hout x hx').1, by simpa [hxr] using (hout x hx').2, hxr⟩
  refine ⟨b, u, (id, n.id) :: visits, fun fuel hfuel => ?_, hend, hnext', htree, hrow', ?_, ?_,
    fun v hv => ?_⟩
  · obtain ⟨fuel, rfl⟩ : ∃ k, fuel = k + 1 := ⟨fuel - 1, by rw [Forest.size] at hfuel; omega⟩
    have helement : (a.element n.id).span = n.span := by rw [element_of_content hcontent]
    rw [splitRow_whole (by rw [helement, hn]), helement, h.next_eq,
      hloop fuel (by rw [Forest.size] at hfuel; omega)]
    rfl
  · refine (hframe.mono ?_ ?_).trans hframe' ?_ ?_
    · simp
    · simp
    · intro x hx _
      exact List.cons_subset_cons _ (List.cons_subset_cons _ (List.cons_subset_cons _
        ids_rest_subset)) hx
    · intro x hx _
      simp [hx]
  · refine List.nodup_cons.mpr ⟨fun hmem => ?_, hnodup'⟩
    rcases mem_ids_divide.mp (hvisits _ hmem).2 with hmem | ⟨hle, -⟩
    · exact hnr hmem
    · exact Nat.not_lt.mpr (hnext ▸ hle) (hout n.id (.inl rfl)).1
  · rcases List.mem_cons.mp hv with rfl | hv
    · exact ⟨List.mem_cons_self .., .inl rfl⟩
    · exact ⟨(hvisits v hv).1, .inr (hvisits v hv).2⟩

/-- What the loop comes to at a node around the position: the node, what its own cut comes to, the
markers `l` and the right half, and the rest of the row. -/
theorem nodup_visits {visits₁ visits₂ : List (NodeId × NodeId)} {y k : NodeId} {l : List NodeId}
    (h₁ : visits₁.Nodup) (h₂ : visits₂.Nodup) (hl : (y :: k :: l).Nodup)
    (hinner : ∀ v ∈ visits₁, v.1 ≠ id ∧ v ∉ visits₂)
    (hrest : ∀ z ∈ y :: k :: l, (id, z) ∉ visits₂) :
    ((id, y) :: visits₁ ++ (l.map (fun c => (id, c)) ++ (id, k) :: visits₂)).Nodup := by
  have hout (z : NodeId) : (id, z) ∉ visits₁ := fun hmem => (hinner _ hmem).1 rfl
  have hmarkers : (l.map fun c => (id, c)).Nodup :=
    (List.nodup_cons.mp (List.nodup_cons.mp hl).2).2.map fun _ _ h => (Prod.mk.inj h).2
  simp only [List.nodup_cons, List.mem_cons, not_or] at hl
  simp only [List.mem_cons, forall_eq_or_imp] at hrest
  simp only [List.cons_append, List.nodup_cons, List.nodup_append, List.mem_append, List.mem_map,
    List.mem_cons, not_or, not_exists, not_and]
  refine ⟨⟨hout y, fun z hz heq => hl.1.2 ((Prod.mk.inj heq).2 ▸ hz),
    fun heq => hl.1.1 (Prod.mk.inj heq).2, hrest.1⟩, h₁, ⟨hmarkers, ⟨hrest.2.1, h₂⟩, ?_⟩, ?_⟩
  · rintro _ ⟨z, hz, rfl⟩ w (rfl | hw) heq
    · exact hl.2.1 ((Prod.mk.inj heq).2 ▸ hz)
    · exact hrest.2.2 z hz (heq ▸ hw)
  · rintro v hv w (⟨z, -, rfl⟩ | rfl | hw) rfl
    · exact hout z hv
    · exact hout k hv
    · exact (hinner v hv).2 hw

/-- A child has been cut: its left half is done, and what else came of it is next. -/
theorem Cutting.cut_child {kids rest : Markup} {l slots : List NodeId} {k : NodeId}
    (h : Cutting a s id parent right done (n.id :: rest.rootIds) moved before behind)
    (hm : a.Carries s.row (.node n kids rest)) (hb : b.Full t)
    (hrow : t.row id = done ++ n.id :: (l ++ k :: rest.rootIds))
    (hframe : Frame a s (id :: n.id :: kids.ids) slots b t) :
    Cutting b t id parent right (done ++ [n.id]) (l ++ k :: rest.rootIds) moved before behind := by
  obtain ⟨-, hout⟩ := Cutting.apart (m := .node n kids rest) h hm
  simp only [ids_node, List.mem_cons, List.mem_append] at hout
  have hkeep {x : NodeId} (hx : x = parent ∨ x = right) : x ∉ id :: n.id :: kids.ids := by
    have hne {y : NodeId} (hy : y = n.id ∨ y ∈ kids.ids) : y ≠ x := by
      have hy := (hout y (hy.imp_right .inl)).2.2
      rcases hx with rfl | rfl
      · exact hy.1
      · exact hy.2
    have hid : x ≠ id := by
      rcases hx with rfl | rfl
      · exact h.parent_ne
      · exact h.ne
    rw [List.mem_cons, List.mem_cons, not_or, not_or]
    exact ⟨hid, fun heq => hne (.inl rfl) heq.symm, fun hmem => hne (.inr hmem) rfl⟩
  have hparent : t.row parent = s.row parent :=
    hframe.row parent (h.live_lt (h.sound.inside h.isOver).1) (hkeep (.inl rfl))
  have hright : t.row right = s.row right :=
    hframe.row right (h.live_lt (h.sound.inside h.over_right).2) (hkeep (.inr rfl))
  exact ⟨hb, by simpa using hrow, hright.trans h.moved, hparent.trans h.outer,
    hb.sound.mem_row.mp (hparent ▸ h.sound.mem_row.mpr h.isOver), h.ne⟩

/-- Behind a child that has been cut are its markers and its right half. -/
theorem Cutting.pass_halves {l : List NodeId} {k : NodeId} {stop : Nat}
    (h : Cutting a s id parent right done (l ++ k :: todo) moved before behind)
    (hl : ∀ c ∈ l, (a.element c).span.isEmptyAt pos = true)
    (hk : (a.element k).span = ⟨pos, stop⟩) (hstop : pos < stop) :
    ∃ b t, Cutting b t id parent right done todo (moved ++ [k]) (before ++ l) behind ∧
      b.slots.size = a.slots.size ∧ Frame a s [id, parent, right] [] b t ∧
      ∀ fuel, a.splitRow pos (fuel + 1 + l.length) id parent right (l ++ k :: todo).head? =
        (b.splitRow pos fuel id parent right todo.head?).map fun r =>
          (r.1, l.map (fun c => (id, c)) ++ (id, k) :: r.2) := by
  obtain ⟨b, t, hloop, hsize, hframe, hlift⟩ := h.lift_all hl
  have hklt : k < a.slots.size :=
    h.row_lt (h.row ▸ List.mem_append_right _ (List.mem_append_right _ (List.mem_cons_self ..)))
  have hk : (b.element k).span = ⟨pos, stop⟩ := by
    rw [element_congr (hframe.content k hklt List.not_mem_nil), hk]
  have hempty : Span.isEmptyAt ⟨pos, stop⟩ pos = false := by
    rw [← Bool.not_eq_true, Span.isEmptyAt_iff]
    exact fun hle => Nat.not_le.mpr hstop hle.1
  have haround : Span.strictlyContains ⟨pos, stop⟩ pos = false := by
    rw [← Bool.not_eq_true, Span.strictlyContains_iff]
    exact fun hlt => Nat.lt_irrefl _ hlt.1
  obtain ⟨u, hloop', hframe'⟩ := hloop.pass hempty (Nat.le_refl _)
  refine ⟨_, u, hloop', (size_shift ..).trans hsize,
    hframe.trans hframe' (fun _ hx _ => hx) (fun _ hx _ => hx), fun fuel => ?_⟩
  rw [hlift, List.head?_cons, splitRow_whole (by rw [hk, haround]), hk, hloop.next_eq,
    Option.map_map]
  rfl

theorem mem_ids_cut {kids : Markup} (hnext : sup.next = a.slots.size) :
    x ∈ (divide pos kids (sup.cut n pos)).row.ids ↔
      x ∈ kids.ids ∨ a.slots.size < x ∧ x < (divide pos kids (sup.cut n pos)).supply.next := by
  rw [mem_ids_divide, ← hnext]
  rfl

/-- What comes of a child that is cut is apart from the nodes around the row and from its rest. -/
theorem Cutting.apart_cut {kids rest : Markup} (pos : Nat)
    (h : Cutting a s id parent right done (n.id :: rest.rootIds) moved before behind)
    (hm : a.Carries s.row (.node n kids rest)) (hnext : sup.next = a.slots.size)
    (hx : x = n.id ∨ x = a.slots.size ∨ x ∈ (divide pos kids (sup.cut n pos)).row.ids) :
    x < (divide pos kids (sup.cut n pos)).supply.next ∧ x ∉ id :: parent :: right :: rest.ids := by
  obtain ⟨hnodup, hout⟩ := Cutting.apart (m := .node n kids rest) h hm
  simp only [ids_node, List.mem_cons, List.mem_append] at hout
  obtain ⟨-, hnr, -, -, hkr⟩ := nodup_node.mp hnodup
  have hle : a.slots.size < (divide pos kids (sup.cut n pos)).supply.next :=
    hnext ▸ (divide_le pos kids (sup.cut n pos)).next
  have hold (hx : x = n.id ∨ x ∈ kids.ids) : x < a.slots.size ∧
      x ∉ id :: parent :: right :: rest.ids := by
    have hxr : x ∉ rest.ids := by
      rcases hx with rfl | hx
      · exact hnr
      · exact hkr x hx
    have hx := hout x (hx.imp_right .inl)
    exact ⟨hx.1, by simp [hx.2, hxr]⟩
  have hlate (hx : a.slots.size ≤ x) : x ∉ id :: parent :: right :: rest.ids := by
    simp only [List.mem_cons]
    rintro (rfl | rfl | rfl | hmem)
    · exact Nat.not_lt.mpr hx (h.live_lt (h.sound.inside h.isOver).2)
    · exact Nat.not_lt.mpr hx (h.live_lt (h.sound.inside h.isOver).1)
    · exact Nat.not_lt.mpr hx (h.live_lt (h.sound.inside h.over_right).2)
    · exact Nat.not_lt.mpr hx (hout x (.inr (.inr hmem))).1
  rw [mem_ids_cut hnext] at hx
  rcases hx with hx | rfl | hx | hx
  · exact ⟨Nat.lt_trans (hold (.inl hx)).1 hle, (hold (.inl hx)).2⟩
  · exact ⟨hle, hlate (Nat.le_refl _)⟩
  · exact ⟨Nat.lt_trans (hold (.inr hx)).1 hle, (hold (.inr hx)).2⟩
  · exact ⟨hx.2, hlate (Nat.le_of_lt hx.1)⟩

/-- The two halves of a child and its markers are apart from each other. -/
theorem Cutting.nodup_cut {kids rest : Markup} (pos : Nat)
    (h : Cutting a s id parent right done (n.id :: rest.rootIds) moved before behind)
    (hm : a.Carries s.row (.node n kids rest)) (hnext : sup.next = a.slots.size) :
    (n.id :: a.slots.size :: (divide pos kids (sup.cut n pos)).lifted.rootIds).Nodup := by
  obtain ⟨hnodup, hout⟩ := Cutting.apart (m := .node n kids rest) h hm
  simp only [ids_node, List.mem_cons, List.mem_append] at hout
  obtain ⟨hnk, -, hnodup, -, -⟩ := nodup_node.mp hnodup
  have hy := (hout n.id (.inl rfl)).1
  have hrow : (divide pos kids (sup.cut n pos)).row.ids.Nodup :=
    nodup_ids_divide hnodup fun x hx => Nat.lt_succ_of_lt (hnext ▸ (hout x (.inr (.inl hx))).1)
  rw [Division.row, ids_append, ids_append] at hrow
  have hl : (divide pos kids (sup.cut n pos)).lifted.rootIds.Nodup :=
    (List.nodup_append.mp (List.nodup_append.mp hrow).1).2.1.sublist
      ((Forest.labels_sublist _).map _)
  refine List.nodup_cons.mpr ⟨fun hmem => ?_, List.nodup_cons.mpr ⟨fun hmem => ?_, hl⟩⟩
  · rcases List.mem_cons.mp hmem with heq | hmem
    · exact Nat.ne_of_lt hy heq
    · rcases (mem_ids_cut hnext).mp (rootIds_lifted_subset hmem) with hmem | hmem
      · exact hnk hmem
      · exact Nat.lt_asymm hmem.1 hy
  · rcases (mem_ids_cut hnext).mp (rootIds_lifted_subset hmem) with hmem | hmem
    · exact Nat.lt_irrefl _ (hout _ (.inr (.inl hmem))).1
    · exact Nat.lt_irrefl _ hmem.1

/-- A child around the position is cut, and the loop comes past its markers and its right half. -/
theorem CutsRow.child {kids rest : Markup} (hk : CutsRow pos kids)
    (h : Cutting a s id parent right done (n.id :: rest.rootIds) moved before behind)
    (hm : a.Carries s.row (.node n kids rest)) (hnext : sup.next = a.slots.size)
    (hn : n.span.start < pos ∧ pos < n.span.stop) {d : Division}
    (hd : divide pos kids (sup.cut n pos) = d) :
    ∃ b t visits, (∀ fuel, 2 * kids.size ≤ fuel + d.lifted.rootIds.length →
        a.splitRow pos (fuel + 1 + d.lifted.rootIds.length + 1) id parent right (some n.id) =
          (b.splitRow pos fuel id parent right rest.rootIds.head?).map fun r =>
            (r.1, (id, n.id) :: visits ++
              (d.lifted.rootIds.map (fun c => (id, c)) ++ (id, a.slots.size) :: r.2))) ∧
      Cutting b t id parent right (done ++ [n.id]) rest.rootIds (moved ++ [a.slots.size])
        (before ++ d.lifted.rootIds) behind ∧
      b.slots.size = d.supply.next ∧
      b.Carries t.row (.node (n.leftHalf pos) d.left .nil) ∧ b.Carries t.row d.lifted ∧
      b.Carries t.row (.node (n.rightHalf pos a.slots.size) d.right .nil) ∧
      b.Carries t.row rest ∧
      Frame a s (id :: parent :: right :: n.id :: kids.ids) (n.id :: kids.ids) b t ∧
      visits.Nodup ∧ ∀ v ∈ visits, v.1 ∈ n.id :: kids.ids ∧ v.2 ∈ d.row.ids := by
  subst hd
  obtain ⟨hnodup, hout⟩ := Cutting.apart (m := .node n kids rest) h hm
  simp only [ids_node, List.mem_cons, List.mem_append] at hout
  obtain ⟨-, hnr, -, -, hkr⟩ := nodup_node.mp hnodup
  have hcarries := hm
  obtain ⟨⟨hrow, hcontent⟩, hkids, hrest⟩ := hcarries
  -- the cut of the node itself
  obtain ⟨b₁, t₁, visits, hcut, hfull₁, hsize₁, hrow₁, hcarries₁, hframe₁, hnodup', hvisits⟩ :=
    hk.tree n h.toFull h.row ⟨⟨hrow, hcontent⟩, hkids, trivial⟩ hnext
  have hloop₁ := h.cut_child hm hfull₁ hrow₁ hframe₁
  obtain ⟨hlifted₁, hright₁⟩ := carries_append.mp hcarries₁.2.2
  -- its markers and its right half
  have hmarker : ∀ c ∈ (divide pos kids (sup.cut n pos)).lifted.rootIds,
      (b₁.element c).span.isEmptyAt pos = true := fun c hc => by
    obtain ⟨k, hk, rfl⟩ := List.mem_map.mp hc
    rw [hlifted₁.element (Forest.labels_subset_preorder hk)]
    exact lifted_isEmptyAt hk
  have hhalf : (b₁.element a.slots.size).span = ⟨pos, n.span.stop⟩ :=
    congrArg Element.span (hright₁.element (n := n.rightHalf pos a.slots.size)
      (List.mem_cons_self ..))
  obtain ⟨b, t, hloop, hsize, hframe, hpass⟩ := hloop₁.pass_halves hmarker hhalf hn.2
  -- the mark-up that comes through
  have hkeep {f : Markup} (hf : b₁.Carries t₁.row f) (hx : ∀ x ∈ f.ids, x = n.id ∨
      x = a.slots.size ∨ x ∈ (divide pos kids (sup.cut n pos)).row.ids) : b.Carries t.row f := by
    refine hframe.carries hf fun x hmem => ?_
    obtain ⟨hlt, hx⟩ := h.apart_cut pos hm hnext (hx x hmem)
    simp only [List.mem_cons, not_or] at hx
    exact ⟨hsize₁ ▸ hlt, by simp [hx.1, hx.2.1, hx.2.2.1], List.not_mem_nil⟩
  refine ⟨b, t, visits, fun fuel hfuel => ?_, hloop, hsize.trans hsize₁,
    hkeep ⟨hcarries₁.1, hcarries₁.2.1, trivial⟩ fun x hx => ?_,
    hkeep hlifted₁ fun x hx => .inr (.inr (by simp [Division.row, hx])),
    hkeep hright₁ fun x hx => ?_, ?_, ?_, hnodup', hvisits⟩
  · have helement : (a.element n.id).span = n.span := by rw [element_of_content hcontent]
    rw [splitRow_cut (by rw [helement, Span.strictlyContains_iff]; exact hn) (hcut _ (by omega)),
      hfull₁.next_of_row hrow₁, hpass, Option.map_map]
    rfl
  · rw [ids_node, ids_nil, List.append_nil, List.mem_cons] at hx
    exact hx.imp_right fun hx => .inr (by simp [Division.row, hx])
  · rw [ids_node, ids_nil, List.append_nil, List.mem_cons] at hx
    exact .inr (hx.imp_right fun hx => by simp [Division.row, hx])
  · have hfar {x : NodeId} (hx : x ∈ rest.ids) :
        x < a.slots.size ∧ (x ≠ id ∧ x ≠ parent ∧ x ≠ right) ∧ x ≠ n.id ∧ x ∉ kids.ids :=
      ⟨(hout x (.inr (.inr hx))).1, (hout x (.inr (.inr hx))).2, fun heq => hnr (heq ▸ hx),
        fun hmem => hkr x hmem hx⟩
    refine hframe.carries (hframe₁.carries hrest fun x hx => ?_) fun x hx => ?_
    · exact ⟨(hfar hx).1, by simp [hfar hx], by simp [hfar hx]⟩
    · exact ⟨Nat.lt_of_lt_of_le (hfar hx).1 hframe₁.size, by simp [hfar hx], List.not_mem_nil⟩
  · refine (hframe₁.mono ?_ (fun _ hx => hx)).trans hframe (fun x hx _ => ?_) (by simp)
    · exact List.cons_subset_cons _ (List.Subset.trans (List.subset_cons_self right _)
        (List.subset_cons_self parent _))
    · simp only [List.mem_cons, List.not_mem_nil, or_false] at hx ⊢
      tauto

/-- The halves and the markers of a node that is cut, and the row of the rest, make up the row. -/
theorem Carries.cut {row : NodeId → List NodeId} {kids rest : Markup} {d : Division}
    (hn : n.span.start < pos ∧ pos < n.span.stop) (hd : divide pos kids (sup.cut n pos) = d)
    (hleft : a.Carries row (.node (n.leftHalf pos) d.left .nil)) (hlifted : a.Carries row d.lifted)
    (hright : a.Carries row (.node (n.rightHalf pos sup.next) d.right .nil))
    (hrest : a.Carries row (divide pos rest d.supply).row) :
    a.Carries row (divide pos (.node n kids rest) sup).row := by
  rw [Division.row, carries_append, carries_append] at hrest
  rw [divide_cut hn, hd]
  exact carries_append.mpr ⟨carries_append.mpr ⟨⟨hleft.1, hleft.2.1, hrest.1.1⟩,
    carries_append.mpr ⟨hlifted, hrest.1.2⟩⟩, hright.1, hright.2.1, hrest.2⟩

/-- A node around the position is cut, and the loop goes on over its markers and its right half. -/
theorem CutsRow.around {kids rest : Markup} (hk : CutsRow pos kids) (hr : CutsRow pos rest)
    (h : Cutting a s id parent right done (n.id :: rest.rootIds) moved before behind)
    (hm : a.Carries s.row (.node n kids rest)) (hnext : sup.next = a.slots.size)
    (hn : n.span.start < pos ∧ pos < n.span.stop) :
    ∃ b t visits, (∀ fuel, 2 * (Forest.node n kids rest).size ≤ fuel →
        a.splitRow pos fuel id parent right (some n.id) = some (b, visits)) ∧
      Cutting b t id parent right (done ++ (divide pos (.node n kids rest) sup).left.rootIds) []
        (moved ++ (divide pos (.node n kids rest) sup).right.rootIds)
        (before ++ (divide pos (.node n kids rest) sup).lifted.rootIds) behind ∧
      b.slots.size = (divide pos (.node n kids rest) sup).supply.next ∧
      b.Carries t.row (divide pos (.node n kids rest) sup).row ∧
      Frame a s (id :: parent :: right :: ids (.node n kids rest)) (ids (.node n kids rest)) b t ∧
      visits.Nodup ∧ ∀ v ∈ visits, v.1 ∈ id :: ids (.node n kids rest) ∧
        v.2 ∈ (divide pos (.node n kids rest) sup).row.ids := by
  obtain ⟨hnodup, hout⟩ := Cutting.apart (m := .node n kids rest) h hm
  simp only [ids_node, List.mem_cons, List.mem_append] at hout
  obtain ⟨-, hnr, -, -, hkr⟩ := nodup_node.mp hnodup
  have hapart {x : NodeId} := h.apart_cut (x := x) pos hm hnext
  have hmem {x : NodeId} : x ∈ (divide pos kids (sup.cut n pos)).row.ids ↔ x ∈ kids.ids ∨
      a.slots.size < x ∧ x < (divide pos kids (sup.cut n pos)).supply.next := mem_ids_cut hnext
  have hhalves := h.nodup_cut pos hm hnext
  obtain ⟨d, hd⟩ : ∃ d, divide pos kids (sup.cut n pos) = d := ⟨_, rfl⟩
  obtain ⟨b₁, t₁, visits₁, hchild, hloop₁, hsize₁, hleft, hlifted, hright, hrest, hframe₁, hnodup₁,
    hvisits₁⟩ := hk.child h hm hnext hn hd
  -- the rest of the row
  obtain ⟨b, t, visits, hloop, hend, hsize, hrow, hframe, hnodup', hvisits⟩ :=
    hr hloop₁ hrest hsize₁.symm
  rw [hd, ← hsize₁] at hapart hmem
  rw [hd] at hhalves
  have hkeep {f : Markup} (hf : b₁.Carries t₁.row f)
      (hx : ∀ x ∈ f.ids, x = n.id ∨ x = a.slots.size ∨ x ∈ d.row.ids) : b.Carries t.row f :=
    hframe.carries hf fun x hmem => ⟨(hapart (hx x hmem)).1, (hapart (hx x hmem)).2,
      fun hrest => (hapart (hx x hmem)).2 (by simp [hrest])⟩
  have hfar {z : NodeId} (hz : z = n.id ∨ z = a.slots.size ∨ z ∈ d.row.ids) :
      (id, z) ∉ visits := fun hmem => by
    rcases mem_ids_divide.mp (hvisits _ hmem).2 with hmem | ⟨hle, -⟩
    · exact (hapart hz).2 (by simp [hmem])
    · exact Nat.not_lt.mpr (hsize₁ ▸ hle) (hapart hz).1
  have hnew : a.slots.size < b₁.slots.size := (hapart (.inr (.inl rfl))).1
  have hwhole {z : NodeId} : z ∈ (divide pos (.node n kids rest) sup).row.ids ↔
      z ∈ ids (.node n kids rest) ∨ a.slots.size ≤ z ∧ z < b.slots.size := by
    rw [mem_ids_divide, hnext, hsize, divide_cut hn, hd]
  have hinner {z : NodeId} (hz : z ∈ d.row.ids) : z ∈ ids (.node n kids rest) ∨
      a.slots.size ≤ z ∧ z < b.slots.size := (hmem.mp hz).imp (fun hz => by simp [hz])
    fun hz => ⟨Nat.le_of_lt hz.1, Nat.lt_of_lt_of_le hz.2 hframe.size⟩
  rw [divide_cut hn, hd] at hwhole ⊢
  refine ⟨b, t, (id, n.id) :: visits₁ ++ (d.lifted.rootIds.map (fun c => (id, c)) ++
    (id, a.slots.size) :: visits), fun fuel hfuel => ?_, ?_, hsize, ?_, ?_, ?_, ?_⟩
  · rw [Forest.size] at hfuel
    have hfew : d.lifted.rootIds.length ≤ kids.size := by
      rw [rootIds, List.length_map, ← hd]
      exact Nat.le_trans (length_labels_le _) (size_lifted_le pos kids (sup.cut n pos))
    obtain ⟨fuel, rfl⟩ : ∃ k, fuel = k + 1 + d.lifted.rootIds.length + 1 :=
      ⟨fuel - 2 - d.lifted.rootIds.length, by omega⟩
    rw [hchild fuel (by omega), hloop fuel (by omega)]
    rfl
  · show Cutting b t id parent right (done ++ n.id :: rootIds _) [] (moved ++ sup.next :: rootIds _)
      (before ++ rootIds (d.lifted ++ _)) behind
    rw [hnext]
    simpa [rootIds_append] using hend
  · have hl := hkeep hleft fun x hx => by
      rw [ids_node, ids_nil, List.append_nil, List.mem_cons] at hx
      exact hx.imp_right fun hx => .inr (by simp [Division.row, hx])
    have hm := hkeep hlifted fun x hx => .inr (.inr (by simp [Division.row, hx]))
    have hr := hkeep hright fun x hx => by
      rw [ids_node, ids_nil, List.append_nil, List.mem_cons] at hx
      exact .inr (hx.imp_right fun hx => by simp [Division.row, hx])
    have hcut := Carries.cut hn hd hl hm (hnext ▸ hr) hrow
    rwa [divide_cut hn, hd] at hcut
  · have hover {l : List NodeId} (hl : l ⊆ ids (.node n kids rest)) :
        id :: parent :: right :: l ⊆ id :: parent :: right :: ids (.node n kids rest) :=
      List.cons_subset_cons _ (List.cons_subset_cons _ (List.cons_subset_cons _ hl))
    exact (hframe₁.mono (hover ids_tree_subset) ids_tree_subset).trans hframe
      (fun x hx _ => hover ids_rest_subset hx) fun x hx _ => ids_rest_subset hx
  · refine nodup_visits hnodup₁ hnodup' hhalves (fun v hv => ?_) fun z hz => hfar ?_
    · have hmem := (hvisits₁ v hv).1
      refine ⟨fun heq => ?_, fun hv => ?_⟩
      · exact (hout v.1 ((List.mem_cons.mp hmem).imp_right .inl)).2.1 heq
      · rcases List.mem_cons.mp (hvisits v hv).1 with heq | hrest
        · exact (hout v.1 ((List.mem_cons.mp hmem).imp_right .inl)).2.1 heq
        · exact (List.mem_cons.mp hmem).elim (fun heq => hnr (heq ▸ hrest)) fun hk => hkr _ hk hrest
    · simp only [List.mem_cons] at hz
      exact hz.imp_right fun hz => hz.imp_right fun hz => rootIds_lifted_subset hz
  · intro v hv
    simp only [List.cons_append, List.mem_cons, List.mem_append, List.mem_map] at hv
    rw [hwhole]
    rcases hv with rfl | hv | ⟨c, hc, rfl⟩ | rfl | hv
    · exact ⟨List.mem_cons_self .., .inl (ids_tree_subset (List.mem_cons_self ..))⟩
    · exact ⟨List.mem_cons_of_mem _ (ids_tree_subset (hvisits₁ v hv).1), hinner (hvisits₁ v hv).2⟩
    · exact ⟨List.mem_cons_self .., hinner (rootIds_lifted_subset hc)⟩
    · exact ⟨List.mem_cons_self .., .inr ⟨Nat.le_refl _, Nat.lt_of_lt_of_le hnew hframe.size⟩⟩
    · refine ⟨List.cons_subset_cons _ ids_rest_subset (hvisits v hv).1,
        (mem_ids_divide.mp (hvisits v hv).2).imp (fun hc => ids_rest_subset hc) fun hc =>
          ⟨?_, hsize ▸ hc.2⟩⟩
      exact Nat.le_trans (Nat.le_of_lt hnew) (hsize₁ ▸ hc.1)

theorem cutsRow (pos : Nat) (m : Markup) : CutsRow pos m := by
  induction m with
  | nil =>
    intro a s id parent right done moved before behind sup h _ hnext
    refine ⟨a, s, [], fun fuel _ => ?_, by simpa [rootIds] using h, hnext.symm, trivial,
      (Frame.refl a s).mono (by simp) (by simp), .nil, by simp⟩
    cases fuel <;> rfl
  | node n kids rest ihk ihr =>
    intro a s id parent right done moved before behind sup h hm hnext
    rcases n.span.lies pos with hn | hn | hn | hn
    · exact ihk.around ihr h hm hnext hn
    all_goals
      have hwhole : n.span.strictlyContains pos = false := by
        rw [← Bool.not_eq_true, Span.strictlyContains_iff]
        omega
    · have hempty : n.span.isEmptyAt pos = true := Span.isEmptyAt_iff.mpr hn
      obtain ⟨t, hstep, hframe⟩ := h.lift hempty
      obtain ⟨b, u, visits, hloop, hend, hsize, htree, hrow, hframe', hnodup, hvisits⟩ :=
        ihr.whole h hm hnext hwhole hstep hframe
      refine ⟨b, u, visits, hloop, ?_, ?_, ?_, hframe', hnodup, fun v hv =>
        ⟨List.cons_subset_cons _ ids_rest_subset (hvisits v hv).1,
          mem_ids_divide_node (by rw [divide_marker hn]) (hvisits v hv).2⟩⟩
      all_goals rw [divide_marker hn]
      · simpa [rootIds] using hend
      · exact hsize
      · simp only [Division.row, carries_append] at hrow ⊢
        exact ⟨⟨hrow.1.1, htree.1, htree.2.1, hrow.1.2⟩, hrow.2⟩
    · have hempty : n.span.isEmptyAt pos = false := by
        rw [← Bool.not_eq_true, Span.isEmptyAt_iff]
        omega
      obtain ⟨t, hstep, hframe⟩ := h.pass hempty hn.1
      obtain ⟨b, u, visits, hloop, hend, hsize, htree, hrow, hframe', hnodup, hvisits⟩ :=
        ihr.whole h hm hnext hwhole hstep hframe
      refine ⟨b, u, visits, hloop, ?_, ?_, ?_, hframe', hnodup, fun v hv =>
        ⟨List.cons_subset_cons _ ids_rest_subset (hvisits v hv).1,
          mem_ids_divide_node (by rw [divide_right hn]) (hvisits v hv).2⟩⟩
      all_goals rw [divide_right hn]
      · simpa [rootIds] using hend
      · exact hsize
      · simp only [Division.row, carries_append] at hrow ⊢
        exact ⟨hrow.1, htree.1, htree.2.1, hrow.2⟩
    · have hstay : a.shift pos n.span parent right n.id = a := by
        have hempty : ¬ n.span.isEmptyAt pos = true := by
          rw [Span.isEmptyAt_iff]
          omega
        rw [shift, if_neg hempty, if_neg (by omega)]
      obtain ⟨b, u, visits, hloop, hend, hsize, htree, hrow, hframe', hnodup, hvisits⟩ :=
        ihr.whole h hm hnext hwhole (hstay.symm ▸ h.stay)
          (hstay.symm ▸ (Frame.refl a s).mono (by simp) (by simp))
      refine ⟨b, u, visits, hloop, ?_, ?_, ?_, hframe', hnodup, fun v hv =>
        ⟨List.cons_subset_cons _ ids_rest_subset (hvisits v hv).1,
          mem_ids_divide_node (by rw [divide_left hn]) (hvisits v hv).2⟩⟩
      all_goals rw [divide_left hn]
      · simpa [rootIds] using hend
      · exact hsize
      · simp only [Division.row, carries_append] at hrow ⊢
        exact ⟨⟨⟨htree.1, htree.2.1, hrow.1.1⟩, hrow.1.2⟩, hrow.2⟩

theorem cutsTree (pos : Nat) (n : Node) (kids : Markup) : CutsTree pos n kids :=
  (cutsRow pos kids).tree n

end Arena

end Standoff
