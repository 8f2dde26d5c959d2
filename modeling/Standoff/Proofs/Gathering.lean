import Standoff.Proofs.Placing

/-! # Strays fetched from outside the row

After a placement the claimed nodes outside the row are moved below the new element, among the
children that it has.  Over a span `[a, b)` such strays are markers at `a` or at `b`, so the
children end up as

    markers at a ++ strays at a ++ the other children ++ strays at b

and every other row only loses the strays.

* `Markup.Insertable.inOrder_members`: the order of the members.
* `Markup.gather_placed`: the mark-up in that form. -/

namespace Standoff

namespace Markup

variable {lo hi a b : Nat} {m f g row kids rest : Markup} {n : Node} {s : Supply} {span : Span}
  {claimed xs : List NodeId} {e : Element} {x P : NodeId} {t : Tree Node}

/-! ## The order of members -/

section Order

variable {p : NodeId × Span} {ps qs as bs : List (NodeId × Span)}

theorem eq_emptyAt_iff {t : Span} : t = Span.emptyAt a ↔ t.start = a ∧ t.stop = a := by
  obtain ⟨start, stop⟩ := t
  simp [Span.emptyAt]

theorem comesFirst_iff {s t : Span} : comesFirst s t = true ↔
    s.start < t.start ∨ (s.start = t.start ∧ (s.stop ≤ s.start ∨ t.start < t.stop)) := by
  simp [comesFirst, Span.isEmpty]

/-- A marker may precede all that does not start before it. -/
theorem comesFirst_emptyAt {t : Span} (h : a ≤ t.start) : comesFirst (.emptyAt a) t = true := by
  rw [comesFirst_iff]
  show a < t.start ∨ (a = t.start ∧ (a ≤ a ∨ _))
  omega

theorem insertInOrder_first (h : ∀ q ∈ qs, comesFirst p.2 q.2 = true) :
    insertInOrder p qs = p :: qs := by
  cases qs with
  | nil => rfl
  | cons q qs => rw [insertInOrder, if_pos (h q (List.mem_cons_self ..))]

theorem insertInOrder_append (h : ∀ q ∈ qs, comesFirst p.2 q.2 = false) :
    insertInOrder p (qs ++ ps) = qs ++ insertInOrder p ps := by
  induction qs with
  | nil => rfl
  | cons q qs ih =>
    have hq := h q (List.mem_cons_self ..)
    rw [List.cons_append, insertInOrder, hq, ih fun r hr => h r (List.mem_cons_of_mem _ hr)]
    rfl

/-- Markers at two positions: those at the first one come first. -/
theorem inOrder_markers (hab : a < b)
    (h : ∀ q ∈ qs, q.2 = Span.emptyAt a ∨ q.2 = Span.emptyAt b) :
    inOrder qs = qs.filter (·.2.start == a) ++ qs.filter (·.2.start != a) := by
  induction qs with
  | nil => rfl
  | cons q qs ih =>
    have ih := ih fun r hr => h r (List.mem_cons_of_mem _ hr)
    have hspans : ∀ r ∈ qs, r.2 = Span.emptyAt a ∨ r.2 = Span.emptyAt b :=
      fun r hr => h r (List.mem_cons_of_mem _ hr)
    rw [inOrder, List.foldr_cons]
    rw [inOrder] at ih
    rw [ih]
    rcases h q (List.mem_cons_self ..) with hq | hq
    · have hstart : q.2.start = a := by rw [hq]; rfl
      rw [insertInOrder_first fun r hr => ?_]
      · simp [hstart]
      · rw [hq]
        refine comesFirst_emptyAt ?_
        have hr : r ∈ qs := (List.mem_append.mp hr).elim (fun h => (List.mem_filter.mp h).1)
          fun h => (List.mem_filter.mp h).1
        rcases hspans r hr with hr | hr
        · rw [hr]
          exact Nat.le_refl a
        · rw [hr]
          exact Nat.le_of_lt hab
    · have hstart : q.2.start = b := by rw [hq]; rfl
      have hne : b ≠ a := by omega
      rw [insertInOrder_append fun r hr => ?_, insertInOrder_first fun r hr => ?_]
      · simp [hstart, hne]
      · obtain ⟨hr, hra⟩ := List.mem_filter.mp hr
        rcases hspans r hr with hr | hr
        · rw [hr] at hra
          simp [Span.emptyAt] at hra
        · rw [hq, hr, comesFirst_iff]
          exact Or.inr ⟨rfl, Or.inl (Nat.le_refl _)⟩
      · obtain ⟨hr, hra⟩ := List.mem_filter.mp hr
        have hra : r.2.start = a := by simpa using hra
        rw [← Bool.not_eq_true, comesFirst_iff, hq, hra]
        simp only [Span.emptyAt]
        omega

/-- The nodes of a row with their spans. -/
def members (m : Markup) : List (NodeId × Span) := m.labels.map fun n => (n.id, n.span)

/-- A marker at `pos`. -/
def markerAt (pos : Nat) (n : Node) : Bool := n.span.isEmptyAt pos

theorem markerAt_iff : markerAt a n = true ↔ n.span.stop ≤ n.span.start ∧ n.span.start = a :=
  Span.isEmptyAt_iff

theorem keep_markerAt_of_lt (h : Nests lo hi m) (ha : a < lo) : m.keep (markerAt a) = .nil :=
  Forest.keep_of_none fun n hn => by
    have := h.bounds (Forest.labels_subset_preorder hn)
    rw [← Bool.not_eq_true, markerAt_iff]
    omega

theorem drop_markerAt_of_lt (h : Nests lo hi m) (ha : a < lo) : m.drop (markerAt a) = m :=
  Forest.keep_of_all fun n hn => by
    have := h.bounds (Forest.labels_subset_preorder hn)
    rw [Bool.not_eq_true', ← Bool.not_eq_true, markerAt_iff]
    omega

/-- In a row that nests from `a` on, the markers at `a` come first. -/
theorem keep_append_drop_markerAt (h : Nests a hi m) :
    m.keep (markerAt a) ++ m.drop (markerAt a) = m := by
  induction m with
  | nil => rfl
  | node n kids rest _ ih =>
    obtain ⟨h₁, h₂, h₃⟩ := h
    have hle := h₂.le
    by_cases hn : markerAt a n = true
    · have hspan := markerAt_iff.mp hn
      have hstop : n.span.stop = a := by omega
      rw [hstop] at h₃
      rw [Forest.drop, Forest.keep, Forest.keep, hn]
      simp only [if_true, Bool.not_true, Bool.false_eq_true, if_false, Forest.node_append]
      exact congrArg _ (ih h₃)
    · have hstop : a < n.span.stop := by
        rw [markerAt_iff] at hn
        omega
      have hkeep := keep_markerAt_of_lt h₃ hstop
      have hdrop := drop_markerAt_of_lt h₃ hstop
      rw [Forest.drop] at hdrop ⊢
      rw [Forest.keep, Forest.keep, hkeep, hdrop]
      simp [hn]

/-- The children of a node over `[a, b)` in front of markers at both ends. -/
theorem foldr_insertInOrder (hab : a < b) (hm : Nests lo b m) (hlo : a ≤ lo)
    (has : ∀ q ∈ as, q.2 = Span.emptyAt a) (hbs : ∀ q ∈ bs, q.2 = Span.emptyAt b) :
    (members m).foldr insertInOrder (as ++ bs) =
      members (m.keep (markerAt a)) ++ as ++ members (m.drop (markerAt a)) ++ bs := by
  induction m generalizing lo with
  | nil => rw [members]; simp [members, Forest.drop]
  | node n kids rest _ ih =>
    obtain ⟨h₁, h₂, h₃⟩ := hm
    have hle := h₂.le
    have hle' := h₃.le
    have hmem : ∀ q ∈ members rest, n.span.stop ≤ q.2.start ∧ q.2.start ≤ q.2.stop := by
      intro q hq
      obtain ⟨c, hc, rfl⟩ := List.mem_map.mp hq
      have := h₃.bounds (Forest.labels_subset_preorder hc)
      exact ⟨this.1, this.2.1⟩
    have hcons : members (.node n kids rest) = (n.id, n.span) :: members rest := rfl
    rw [hcons, List.foldr_cons, ih h₃ (by omega)]
    by_cases hn : markerAt a n = true
    · have hspan := markerAt_iff.mp hn
      have hkeep : Forest.keep (markerAt a) (.node n kids rest) =
          .node n kids (rest.keep (markerAt a)) := by simp [Forest.keep, hn]
      have hdrop : Forest.drop (markerAt a) (.node n kids rest) = rest.drop (markerAt a) := by
        simp [Forest.drop, Forest.keep, hn]
      rw [hkeep, hdrop, insertInOrder_first fun q hq => ?_]
      · rfl
      · rw [comesFirst_iff]
        have hq : n.span.start ≤ q.2.start := by
          simp only [List.mem_append] at hq
          rcases hq with ((hq | hq) | hq) | hq
          · obtain ⟨c, hc, rfl⟩ := List.mem_map.mp hq
            rw [Forest.labels_keep] at hc
            have := hmem (c.id, c.span) (List.mem_map_of_mem (List.mem_filter.mp hc).1)
            simp only at this ⊢
            omega
          · rw [has q hq]
            simp only [Span.emptyAt]
            omega
          · obtain ⟨c, hc, rfl⟩ := List.mem_map.mp hq
            rw [Forest.drop, Forest.labels_keep] at hc
            have := hmem (c.id, c.span) (List.mem_map_of_mem (List.mem_filter.mp hc).1)
            simp only at this ⊢
            omega
          · rw [hbs q hq]
            simp only [Span.emptyAt]
            omega
        simp only
        omega
    · have hstop : a < n.span.stop := by
        rw [markerAt_iff] at hn
        omega
      have hkeep : Forest.keep (markerAt a) (.node n kids rest) = .nil := by
        rw [Forest.keep, keep_markerAt_of_lt h₃ hstop]
        simp [hn]
      have hdrop : Forest.drop (markerAt a) (.node n kids rest) = .node n kids rest := by
        have := drop_markerAt_of_lt h₃ hstop
        rw [Forest.drop] at this ⊢
        rw [Forest.keep, this]
        simp [hn]
      rw [hkeep, hdrop, keep_markerAt_of_lt h₃ hstop, drop_markerAt_of_lt h₃ hstop, hcons]
      simp only [members, Forest.labels_nil, List.map_nil, List.nil_append, List.append_assoc]
      rw [insertInOrder_append fun q hq => ?_, insertInOrder_first fun q hq => ?_]
      · rfl
      · rw [comesFirst_iff]
        simp only
        rcases List.mem_append.mp hq with hq | hq
        · have := hmem q hq
          omega
        · rw [hbs q hq]
          simp only [Span.emptyAt]
          omega
      · rw [← Bool.not_eq_true, comesFirst_iff, has q hq]
        simp only [Span.emptyAt]
        omega

end Order

/-! ## The new element among its neighbours -/

/-- What the insertion of `e` over claimed nodes relies on. -/
structure Insertable (lo hi : Nat) (claimed : List NodeId) (e : Element) (m : Markup)
    (s : Supply) : Prop where
  nests : Nests lo hi m
  lo_le : lo ≤ e.span.start
  ordered : e.span.start ≤ e.span.stop
  le_hi : e.span.stop ≤ hi
  nodup : m.ids.Nodup
  fresh : ∀ x ∈ m.ids, x < s.next
  claims : Claims claimed e.span m

/-- The row of a placement with `kids` below the new element. -/
def newRow (e : Element) (claimed : List NodeId) (m : Markup) (s : Supply) (kids : Markup) :
    Markup :=
  (opened claimed e.span m s).1.before ++
    .node ⟨e, (opened claimed e.span m s).2.next⟩ kids (opened claimed e.span m s).1.after

theorem placed_markup (g : Growth) : (placed e claimed m s g).markup =
    (site claimed e.span m).plug (newRow e claimed m s g.markup) := rfl

theorem count_ids_newRow (e : Element) (claimed : List NodeId) (m : Markup) (s : Supply)
    (kids : Markup) (x : NodeId) :
    (newRow e claimed m s kids).ids.count x + (opened claimed e.span m s).1.inside.ids.count x =
      (ids (site claimed e.span m).row).count x + s.taken (opened claimed e.span m s).2.take x +
        kids.ids.count x := by
  have h₁ := count_ids_opening claimed e.span (site claimed e.span m).row s x
  have h₂ := Supply.taken_add (opening_le claimed e.span (site claimed e.span m).row s)
    (Supply.le_take _) x
  have h₃ := Supply.taken_take (opening claimed e.span (site claimed e.span m).row s).2 x
  rw [newRow, opened]
  simp only [ids_append, ids_node, List.count_append, List.count_cons, beq_iff_eq]
  omega

theorem count_ids_placed (e : Element) (claimed : List NodeId) (m : Markup) (s : Supply)
    (g : Growth) (x : NodeId) :
    (placed e claimed m s g).markup.ids.count x +
        (opened claimed e.span m s).1.inside.ids.count x =
      m.ids.count x + s.taken (opened claimed e.span m s).2.take x + g.markup.ids.count x := by
  have h₁ := @count_ids_plug e.span claimed m (newRow e claimed m s g.markup) x
  have h₂ := count_ids_newRow e claimed m s g.markup x
  rw [placed_markup]
  omega

/-- Without the strays the search finds the same row. -/
theorem row_without : (site claimed e.span (m.without (strays claimed e.span m))).row =
    (site claimed e.span m).row := by
  have hout : ∀ x ∈ strays claimed e.span m, x ∉ ids (site claimed e.span m).row :=
    fun x hx => by simpa using (List.mem_filter.mp hx).2
  exact (without_plug (g := .nil) (List.filter_subset_self _) hout fun _ _ => List.not_mem_nil).2

theorem next_le_opened : s.next ≤ (opened claimed e.span m s).2.next :=
  (opening_le claimed e.span (site claimed e.span m).row s).next

/-- A number in the row of the placement was there before, or is new. -/
theorem mem_newRow (hx : x ∈ (newRow e claimed m s (opened claimed e.span m s).1.inside).ids) :
    x ∈ ids (site claimed e.span m).row ∨ s.next ≤ x := by
  have hcount := count_ids_newRow e claimed m s (opened claimed e.span m s).1.inside x
  have hpos := List.count_pos_iff.mpr hx
  by_cases hrow : x ∈ ids (site claimed e.span m).row
  · exact Or.inl hrow
  · right
    rw [List.count_eq_zero.mpr hrow] at hcount
    by_contra hlt
    rw [Supply.taken, if_neg fun hc => hlt hc.1] at hcount
    omega

/-- What lies inside the new element was in the row, or is new. -/
theorem mem_inside (hx : x ∈ (opened claimed e.span m s).1.inside.ids) :
    x ∈ ids (site claimed e.span m).row ∨ s.next ≤ x := by
  have hnew : x ∈ (newRow e claimed m s (opened claimed e.span m s).1.inside).ids := by
    rw [newRow, ids_append, ids_node]
    exact List.mem_append_right _ (List.mem_cons_of_mem _ (List.mem_append_left _ hx))
  exact mem_newRow hnew

namespace Insertable

variable (h : Insertable lo hi claimed e m s)
include h

theorem claimed_lt : ∀ c ∈ claimed, c < s.next := fun c hc => h.fresh c (h.claims.present c hc)

/-- The number of the new element is new. -/
theorem next_not_mem : (opened claimed e.span m s).2.next ∉ m.ids :=
  fun hx => Nat.lt_irrefl _ (Nat.lt_of_lt_of_le (h.fresh _ hx) next_le_opened)

theorem count_ids_le (x : NodeId) :
    m.ids.count x + s.taken (opened claimed e.span m s).2.take x ≤ 1 := by
  have h₁ := List.nodup_iff_count_le_one.mp h.nodup x
  rw [Supply.taken]
  by_cases hx : x ∈ m.ids
  · have := h.fresh x hx
    rw [if_neg fun hc => Nat.not_lt.mpr hc.1 this]
    exact h₁
  · rw [List.count_eq_zero.mpr hx]
    split <;> omega

theorem nodup_newRow : (newRow e claimed m s (opened claimed e.span m s).1.inside).ids.Nodup := by
  refine List.nodup_iff_count_le_one.mpr fun x => ?_
  have hcount := count_ids_newRow e claimed m s (opened claimed e.span m s).1.inside x
  have hle := h.count_ids_le x
  obtain ⟨before, after, hp⟩ := Forest.preorder_plug (enters claimed e.span) m
  have hrow := congrArg (fun l => (l.map (·.id)).count x) (hp (site claimed e.span m).row)
  rw [site, Forest.plug_focus] at hrow
  simp only [List.map_append, List.count_append] at hrow
  have hm : (m.preorder.map (·.id)).count x = m.ids.count x := rfl
  have hr : ((m.focus (enters claimed e.span)).row.preorder.map (·.id)).count x =
    (ids (site claimed e.span m).row).count x := rfl
  omega

theorem nodup_placed (s' : Supply) :
    (placed e claimed m s ⟨(opened claimed e.span m s).1.inside, s'⟩).markup.ids.Nodup := by
  refine List.nodup_iff_count_le_one.mpr fun x => ?_
  have hcount := count_ids_placed e claimed m s ⟨(opened claimed e.span m s).1.inside, s'⟩ x
  have hle := h.count_ids_le x
  simp only at hcount
  omega

/-- The number of the new element is not on its sides. -/
theorem next_not_mem_sides :
    (opened claimed e.span m s).2.next ∉ (opened claimed e.span m s).1.before.ids ∧
      (opened claimed e.span m s).2.next ∉ (opened claimed e.span m s).1.after.ids := by
  have hnd := h.nodup_newRow
  rw [newRow, ids_append, List.nodup_append] at hnd
  obtain ⟨-, hnode, hdisj⟩ := hnd
  refine ⟨fun hx => ?_, (nodup_node.mp hnode).2.1⟩
  rw [ids_node] at hdisj
  exact hdisj _ hx _ (List.mem_cons_self ..) rfl

/-- The new element is found over what lies inside it. -/
theorem node?_placed (s' : Supply) :
    (placed e claimed m s ⟨(opened claimed e.span m s).1.inside, s'⟩).markup.node?
        (opened claimed e.span m s).2.next =
      some ⟨⟨e, (opened claimed e.span m s).2.next⟩, (opened claimed e.span m s).1.inside⟩ := by
  rw [placed_markup, node?_plug_new h.next_not_mem, newRow, node?_append, node?_node, if_pos rfl,
    node?_eq_none_iff.mpr h.next_not_mem_sides.1, Option.none_or]

/-- A stray is a marker at one end of the new span; nothing below it is in the row. -/
theorem stray (hx : x ∈ strays claimed e.span m) :
    ∃ t, m.node? x = some t ∧ e.span.start < e.span.stop ∧
      (t.label.span = Span.emptyAt e.span.start ∨ t.label.span = Span.emptyAt e.span.stop) ∧
      (∀ y ∈ treeIds t, y ∉ ids (site claimed e.span m).row) ∧
      ∀ s', (placed e claimed m s ⟨(opened claimed e.span m s).1.inside, s'⟩).markup.node? x =
        some t := by
  obtain ⟨hc, hrow⟩ := List.mem_filter.mp hx
  have hrow : x ∉ ids (site claimed e.span m).row := by simpa using hrow
  obtain ⟨t, ht⟩ := exists_node? (h.claims.present x hc)
  obtain ⟨hlabel, hsub⟩ := node?_spec ht
  have hmem : t.label ∈ m.preorder := hsub _ (by simp [Forest.ofTree])
  have hclaimed : t.label.id ∈ claimed := hlabel ▸ hc
  have hnew : x ∉ (newRow e claimed m s (opened claimed e.span m s).1.inside).ids := by
    intro hx
    rcases mem_newRow hx with hx | hx
    · exact hrow hx
    · exact Nat.lt_irrefl _ (Nat.lt_of_lt_of_le (h.claimed_lt x hc) hx)
  refine ⟨t, ht, ?_⟩
  have hspan := outside_row claimed h.nests h.ordered hmem
    (not_enters_of_claimed hclaimed) (h.claims.within _ hmem hclaimed)
  rcases hspan with hin | ⟨hlt, hspan⟩
  · exact absurd (hlabel ▸ id_mem_ids hin) hrow
  · refine ⟨hlt, ?_, fun y hy => treeIds_outside h.nodup hc hrow ht hy, fun s' => ?_⟩
    · exact hspan.imp eq_emptyAt_iff.mpr eq_emptyAt_iff.mpr
    · rw [placed_markup, node?_plug hc hrow hnew, ht]

end Insertable

/-! ## Strays below the new element -/

/-- A node that starts at `pos`. -/
def standsAt (m : Markup) (pos : Nat) (x : NodeId) : Bool :=
  (m.node? x).any (·.label.span.start == pos)

/-- The trees of strays at one end of the span, each once. -/
def fetched (claimed : List NodeId) (span : Span) (m : Markup) (pos : Nat) : Markup :=
  bared m (strays claimed span m) ((strays claimed span m).filter (standsAt m pos)).dedup

/-- The children of a new element over `span` that has `inside` already. -/
def brood (claimed : List NodeId) (span : Span) (m inside : Markup) : Markup :=
  inside.keep (markerAt span.start) ++ fetched claimed span m span.start ++
    inside.drop (markerAt span.start) ++ fetched claimed span m span.stop

/-- The members in the order in which they are moved. -/
def order (claimed : List NodeId) (span : Span) (m inside : Markup) : List NodeId :=
  rootIds (inside.keep (markerAt span.start)) ++
    (strays claimed span m).filter (standsAt m span.start) ++
    rootIds (inside.drop (markerAt span.start)) ++
    (strays claimed span m).filter (standsAt m span.stop)

theorem node?_root (hm : m.ids.Nodup) (hn : n ∈ m.labels) :
    ∃ kids, m.node? n.id = some ⟨n, kids⟩ := by
  induction m with
  | nil => cases hn
  | node a kids rest _ ih =>
    obtain ⟨h₁, h₂, h₃, h₄, h₅⟩ := nodup_node.mp hm
    rw [node?_node]
    rcases List.mem_cons.mp hn with rfl | hn
    · exact ⟨kids, if_pos rfl⟩
    · have hmem := id_mem_ids (Forest.labels_subset_preorder hn)
      have hne : a.id ≠ n.id := fun heq => h₂ (heq ▸ hmem)
      rw [if_neg hne, node?_eq_none_iff.mpr fun hk => h₅ _ hk hmem, Option.none_or]
      exact ih h₄ hn

theorem without_roots (m : Markup) (h : ∀ x ∈ m.rootIds, x ∈ xs) : without xs m = .nil := by
  induction m with
  | nil => rfl
  | node n kids rest _ ih =>
    rw [without_node, if_pos (h n.id (List.mem_cons_self ..))]
    exact ih fun x hx => h x (List.mem_cons_of_mem _ hx)

theorem bared_append (m : Markup) (xs ys zs : List NodeId) :
    bared m xs (ys ++ zs) = bared m xs ys ++ bared m xs zs := by
  induction ys with
  | nil => rfl
  | cons y ys ih =>
    rw [List.cons_append, bared, bared]
    cases m.node? y with
    | none => exact ih
    | some t => exact congrArg _ ih

theorem bared_congr {m' : Markup} {xs' ys : List NodeId}
    (h : ∀ y ∈ ys, ∃ t, m.node? y = some t ∧ m'.node? y = some t ∧
      without xs t.children = without xs' t.children) : bared m xs ys = bared m' xs' ys := by
  induction ys with
  | nil => rfl
  | cons y ys ih =>
    obtain ⟨t, h₁, h₂, h₃⟩ := h y (List.mem_cons_self ..)
    rw [bared, bared, h₁, h₂, ih fun z hz => h z (List.mem_cons_of_mem _ hz)]
    simp only [h₃]

/-- A row whose trees are found where they are. -/
theorem bared_row (hrow : row.ids.Nodup) (hfound : ∀ x ∈ row.ids, m.node? x = row.node? x)
    (hxs : ∀ x ∈ xs, x ∈ row.ids → x ∈ row.rootIds) (p : Node → Bool) :
    bared m xs (rootIds (row.keep p)) = row.keep p := by
  induction row with
  | nil => rfl
  | node n kids rest _ ih =>
    obtain ⟨h₁, h₂, h₃, h₄, h₅⟩ := nodup_node.mp hrow
    have hroots : rootIds (.node n kids rest) = n.id :: rootIds rest := rfl
    simp only [ids_node, hroots, List.mem_cons, List.mem_append] at hfound hxs
    have hkids : without xs kids = kids := by
      refine without_of_disjoint fun x hx hk => ?_
      rcases hxs x hx (Or.inr (Or.inl hk)) with rfl | hr
      · exact h₁ hk
      · exact h₅ x hk (mem_ids_of_rootIds hr)
    have ih := ih h₄
      (fun x hx => by
        have hne : n.id ≠ x := fun heq => h₂ (heq ▸ hx)
        rw [hfound x (Or.inr (Or.inr hx)), node?_node, if_neg hne,
          node?_eq_none_iff.mpr fun hk => h₅ x hk hx, Option.none_or])
      fun x hx hr => by
        rcases hxs x hx (Or.inr (Or.inr hr)) with rfl | hr'
        · exact absurd hr h₂
        · exact hr'
    rw [Forest.keep]
    split
    · have hnode : m.node? n.id = some ⟨n, kids⟩ := by
        rw [hfound n.id (Or.inl rfl), node?_node, if_pos rfl]
      show bared m xs (n.id :: rootIds (rest.keep p)) = _
      rw [bared, hnode, ih]
      simp only [hkids]
    · exact ih

/-- The strays with their spans. -/
def spansOf (m : Markup) (xs : List NodeId) : List (NodeId × Span) :=
  xs.filterMap fun x => (m.node? x).map fun t => (x, t.label.span)

theorem mem_spansOf {q : NodeId × Span} (hq : q ∈ spansOf m xs) :
    ∃ t, q.1 ∈ xs ∧ m.node? q.1 = some t ∧ q.2 = t.label.span := by
  obtain ⟨x, hx, hq⟩ := List.mem_filterMap.mp hq
  obtain ⟨t, ht, rfl⟩ := Option.map_eq_some_iff.mp hq
  exact ⟨t, hx, ht, rfl⟩

theorem filter_spansOf (h : ∀ x ∈ xs, x ∈ m.ids) (pos : Nat) :
    ((spansOf m xs).filter (·.2.start == pos)).map (·.1) = xs.filter (standsAt m pos) := by
  induction xs with
  | nil => rfl
  | cons x xs ih =>
    obtain ⟨t, ht⟩ := exists_node? (h x (List.mem_cons_self ..))
    have ih := ih fun y hy => h y (List.mem_cons_of_mem _ hy)
    have hcons : spansOf m (x :: xs) = (x, t.label.span) :: spansOf m xs := by
      rw [spansOf, List.filterMap_cons, ht]
      rfl
    have hstands : standsAt m pos x = (t.label.span.start == pos) := by
      rw [standsAt, ht]
      rfl
    rw [hcons, List.filter_cons, List.filter_cons, hstands]
    cases t.label.span.start == pos with
    | true => simp only [if_true, List.map_cons, ih]
    | false => simp only [Bool.false_eq_true, if_false, ih]

namespace Insertable

variable (h : Insertable lo hi claimed e m s)
include h

theorem stray_ids : ∀ x ∈ strays claimed e.span m, x ∈ m.ids := fun x hx => by
  obtain ⟨t, ht, -⟩ := h.stray hx
  exact mem_of_node? ht

theorem spans_of_strays {q : NodeId × Span} (hq : q ∈ spansOf m (strays claimed e.span m)) :
    q.2 = Span.emptyAt e.span.start ∨ q.2 = Span.emptyAt e.span.stop := by
  obtain ⟨t, hx, ht, hspan⟩ := mem_spansOf hq
  obtain ⟨t', ht', -, hspans, -⟩ := h.stray hx
  cases ht.symm.trans ht'
  rw [hspan]
  exact hspans

/-- The members in their order. -/
theorem inOrder_members (hlt : e.span.start < e.span.stop)
    (hin : Nests e.span.start e.span.stop row) :
    (inOrder (members row ++ spansOf m (strays claimed e.span m))).map (·.1) =
      order claimed e.span m row := by
  have hroots : ∀ m : Markup, (members m).map (·.1) = m.rootIds := fun m => by
    rw [members, List.map_map]
    rfl
  have hstop : (spansOf m (strays claimed e.span m)).filter (·.2.start != e.span.start) =
      (spansOf m (strays claimed e.span m)).filter (·.2.start == e.span.stop) := by
    refine List.filter_congr fun q hq => ?_
    have hne : e.span.stop ≠ e.span.start := by omega
    rcases h.spans_of_strays hq with hq | hq
    · rw [hq]
      simp [Span.emptyAt, hne.symm]
    · rw [hq]
      simp [Span.emptyAt, hne]
  have hsort : inOrder (members row ++ spansOf m (strays claimed e.span m)) =
      (members row).foldr insertInOrder (inOrder (spansOf m (strays claimed e.span m))) :=
    List.foldr_append
  rw [hsort, inOrder_markers hlt fun q hq => h.spans_of_strays hq, hstop,
    foldr_insertInOrder hlt hin (Nat.le_refl _) (fun q hq => ?_) fun q hq => ?_]
  · rw [List.map_append, List.map_append, List.map_append, hroots, hroots,
      filter_spansOf h.stray_ids, filter_spansOf h.stray_ids, order]
  · obtain ⟨hq, hstart⟩ := List.mem_filter.mp hq
    rcases h.spans_of_strays hq with hq | hq
    · exact hq
    · rw [hq] at hstart
      have : e.span.stop = e.span.start := by simpa [Span.emptyAt] using hstart
      omega
  · obtain ⟨hq, hstart⟩ := List.mem_filter.mp hq
    rcases h.spans_of_strays hq with hq | hq
    · rw [hq] at hstart
      have : e.span.start = e.span.stop := by simpa [Span.emptyAt] using hstart
      omega
    · exact hq

theorem stray_not_inside (hx : x ∈ strays claimed e.span m) :
    x ∉ (opened claimed e.span m s).1.inside.ids := fun hin => by
  rcases mem_inside hin with hin | hin
  · obtain ⟨-, hrow⟩ := List.mem_filter.mp hx
    simp only [decide_not, Bool.not_eq_true', decide_eq_false_iff_not] at hrow
    exact hrow hin
  · exact Nat.lt_irrefl _ (Nat.lt_of_lt_of_le (h.fresh x (h.stray_ids x hx)) hin)

/-- Inside the new element nodes are found as in what lies inside it. -/
theorem node?_inside (s' : Supply) (hx : x ∈ (opened claimed e.span m s).1.inside.ids) :
    (placed e claimed m s ⟨(opened claimed e.span m s).1.inside, s'⟩).markup.node? x =
      (opened claimed e.span m s).1.inside.node? x :=
  node?_children (h.nodup_placed s') (h.node?_placed s') hx

theorem nodup_inside : (opened claimed e.span m s).1.inside.ids.Nodup ∧
    (opened claimed e.span m s).2.next ∉ (opened claimed e.span m s).1.inside.ids := by
  have := nodup_treeIds (h.nodup_placed s) (h.node?_placed s)
  rw [treeIds_eq, List.nodup_cons] at this
  exact ⟨this.2, this.1⟩

theorem movable (s' : Supply)
    (hxs : ∀ x ∈ xs, x ∈ rootIds (opened claimed e.span m s).1.inside ∨
      x ∈ strays claimed e.span m) :
    Movable (opened claimed e.span m s).2.next xs
      (placed e claimed m s ⟨(opened claimed e.span m s).1.inside, s'⟩).markup := by
  refine ⟨h.nodup_placed s', mem_of_node? (h.node?_placed s'), fun x hx => ?_⟩
  rcases hxs x hx with hx | hx
  · have hin := mem_ids_of_rootIds hx
    obtain ⟨t, ht⟩ := exists_node? hin
    exact ⟨t, (h.node?_inside s' hin).trans ht, fun hP => h.nodup_inside.2 (treeIds_subset ht hP)⟩
  · obtain ⟨t, ht, -, -, -, hplaced⟩ := h.stray hx
    exact ⟨t, hplaced s', fun hP => h.next_not_mem (treeIds_subset ht hP)⟩

theorem nests_inside : Nests e.span.start e.span.stop (opened claimed e.span m s).1.inside := by
  obtain ⟨lo', hi', hlo', hhi', hrow, -⟩ :=
    h.nests.focus claimed h.lo_le h.ordered h.le_hi
  exact (hrow.opening hlo' h.ordered hhi' claimed s).2.1

/-- The members that are fetched and ordered. -/
theorem members_eq (s' : Supply) :
    ((rootIds (opened claimed e.span m s).1.inside ++ strays claimed e.span m).filterMap fun x =>
        ((placed e claimed m s ⟨(opened claimed e.span m s).1.inside, s'⟩).markup.node? x).map
          fun t => (x, t.label.span)) =
      members (opened claimed e.span m s).1.inside ++ spansOf m (strays claimed e.span m) := by
  rw [List.filterMap_append]
  congr 1
  · rw [rootIds, List.filterMap_map, members]
    refine List.filterMap_eq_map_iff_forall_eq_some.mpr fun n hn => ?_
    obtain ⟨kids, hkids⟩ := node?_root h.nodup_inside.1 hn
    have hin := id_mem_ids (Forest.labels_subset_preorder hn)
    rw [Function.comp_apply, h.node?_inside s' hin, hkids]
    rfl
  · refine List.filterMap_congr fun x hx => ?_
    obtain ⟨t, ht, -, -, -, hplaced⟩ := h.stray hx
    rw [hplaced s', ht]

/-- The row of a placement without what lies inside the new element. -/
theorem newRow_without :
    without (rootIds (opened claimed e.span m s).1.inside)
        (newRow e claimed m s (opened claimed e.span m s).1.inside) =
      newRow e claimed m s .nil := by
  have hnd := h.nodup_newRow
  rw [newRow, ids_append, List.nodup_append] at hnd
  obtain ⟨-, hnode, hdisj⟩ := hnd
  obtain ⟨h₁, -, -, -, h₂⟩ := nodup_node.mp hnode
  rw [newRow, newRow, without_append, without_node, if_neg fun hP => h₁ (mem_ids_of_rootIds hP),
    without_of_disjoint fun x hx hb => ?_, without_of_disjoint fun x hx => h₂ x (mem_ids_of_rootIds hx),
    without_roots _ fun _ hx => hx]
  refine hdisj x hb x ?_ rfl
  rw [ids_node]
  exact List.mem_cons_of_mem _ (List.mem_append_left _ (mem_ids_of_rootIds hx))

/-- A stray stands at one end of the span, and not at both. -/
theorem stray_stands (hx : x ∈ strays claimed e.span m) :
    standsAt m e.span.stop x = !standsAt m e.span.start x := by
  obtain ⟨t, ht, hlt, hspan, -⟩ := h.stray hx
  have hne : e.span.start ≠ e.span.stop := by omega
  rw [standsAt, standsAt, ht]
  rcases hspan with hspan | hspan
  · simp [hspan, Span.emptyAt, hne]
  · simp [hspan, Span.emptyAt, hne.symm]

theorem roots_inside :
    rootIds (opened claimed e.span m s).1.inside =
      rootIds ((opened claimed e.span m s).1.inside.keep (markerAt e.span.start)) ++
        rootIds ((opened claimed e.span m s).1.inside.drop (markerAt e.span.start)) := by
  have hsplit := congrArg rootIds (keep_append_drop_markerAt (a := e.span.start) h.nests_inside)
  rw [← hsplit, rootIds, Forest.labels_append, List.map_append]
  rfl

theorem mem_order : x ∈ order claimed e.span m (opened claimed e.span m s).1.inside ↔
    x ∈ rootIds (opened claimed e.span m s).1.inside ∨ x ∈ strays claimed e.span m := by
  rw [h.roots_inside, order]
  simp only [List.mem_append, List.mem_filter]
  constructor
  · rintro (((hx | hx) | hx) | hx)
    · exact Or.inl (Or.inl hx)
    · exact Or.inr hx.1
    · exact Or.inl (Or.inr hx)
    · exact Or.inr hx.1
  · rintro ((hx | hx) | hx)
    · exact Or.inl (Or.inl (Or.inl hx))
    · exact Or.inl (Or.inr hx)
    · have hstands := h.stray_stands hx
      cases hstart : standsAt m e.span.start x with
      | true => exact Or.inl (Or.inl (Or.inr ⟨hx, rfl⟩))
      | false =>
        rw [hstart] at hstands
        exact Or.inr ⟨hx, hstands⟩

theorem dedup_order :
    (order claimed e.span m (opened claimed e.span m s).1.inside).dedup =
      rootIds ((opened claimed e.span m s).1.inside.keep (markerAt e.span.start)) ++
        ((strays claimed e.span m).filter (standsAt m e.span.start)).dedup ++
        rootIds ((opened claimed e.span m s).1.inside.drop (markerAt e.span.start)) ++
        ((strays claimed e.span m).filter (standsAt m e.span.stop)).dedup := by
  have hroots : (rootIds (opened claimed e.span m s).1.inside).Nodup :=
    h.nodup_inside.1.sublist ((Forest.labels_sublist _).map _)
  have hsub : ∀ x ∈ rootIds (opened claimed e.span m s).1.inside, x ∉ strays claimed e.span m :=
    fun x hx hS => h.stray_not_inside hS (mem_ids_of_rootIds hx)
  rw [h.roots_inside] at hroots hsub
  obtain ⟨hkeep, hdrop, hdisj⟩ := List.nodup_append.mp hroots
  simp only [List.mem_append] at hsub
  rw [order, List.Disjoint.dedup_append, List.Disjoint.dedup_append, List.Disjoint.dedup_append,
    hkeep.dedup, hdrop.dedup]
  · intro x hx hS
    exact hsub x (Or.inl hx) (List.mem_filter.mp hS).1
  · intro x hx hd
    rcases List.mem_append.mp hx with hx | hx
    · exact hdisj x hx x hd rfl
    · exact hsub x (Or.inr hd) (List.mem_filter.mp hx).1
  · intro x hx hS
    obtain ⟨hS, hstop⟩ := List.mem_filter.mp hS
    rcases List.mem_append.mp hx with hx | hx
    · rcases List.mem_append.mp hx with hx | hx
      · exact hsub x (Or.inl hx) hS
      · have hstands := h.stray_stands hS
        rw [(List.mem_filter.mp hx).2, hstop] at hstands
        cases hstands
    · exact hsub x (Or.inr hx) hS

/-- The trees of the members, as the moves leave them. -/
theorem bared_order (s' : Supply) :
    bared (placed e claimed m s ⟨(opened claimed e.span m s).1.inside, s'⟩).markup
        (order claimed e.span m (opened claimed e.span m s).1.inside)
        (order claimed e.span m (opened claimed e.span m s).1.inside).dedup =
      brood claimed e.span m (opened claimed e.span m s).1.inside := by
  have hroots : ∀ x ∈ order claimed e.span m (opened claimed e.span m s).1.inside,
      x ∈ ids (opened claimed e.span m s).1.inside →
      x ∈ rootIds (opened claimed e.span m s).1.inside := fun x hx hin =>
    (h.mem_order.mp hx).resolve_right fun hS => h.stray_not_inside hS hin
  have hkeep (p : Node → Bool) :=
    bared_row h.nodup_inside.1 (fun x hx => h.node?_inside s' hx) hroots p
  have hstray (pos : Nat) :
      bared (placed e claimed m s ⟨(opened claimed e.span m s).1.inside, s'⟩).markup
        (order claimed e.span m (opened claimed e.span m s).1.inside)
        ((strays claimed e.span m).filter (standsAt m pos)).dedup =
      fetched claimed e.span m pos := by
    refine bared_congr fun x hx => ?_
    obtain ⟨hx, -⟩ := List.mem_filter.mp (List.mem_dedup.mp hx)
    obtain ⟨t, ht, -, -, hout, hplaced⟩ := h.stray hx
    refine ⟨t, hplaced s', ht, Forest.prune_congr fun n hn => ?_⟩
    rw [isClaimed, isClaimed, decide_eq_decide, h.mem_order]
    refine or_iff_right fun hroot => ?_
    have hnt : n.id ∈ treeIds t := by
      rw [treeIds_eq]
      exact List.mem_cons_of_mem _ (id_mem_ids hn)
    rcases mem_inside (mem_ids_of_rootIds hroot) with hrow | hnew
    · exact hout _ hnt hrow
    · exact Nat.lt_irrefl _ (Nat.lt_of_lt_of_le (h.fresh _ (treeIds_subset ht hnt)) hnew)
  rw [h.dedup_order, bared_append, bared_append, bared_append, hkeep, hstray, hstray, brood]
  congr 2
  exact hkeep _

/-- The mark-up of the placement without the members. -/
theorem placed_without (s' : Supply) :
    without (order claimed e.span m (opened claimed e.span m s).1.inside)
        (placed e claimed m s ⟨(opened claimed e.span m s).1.inside, s'⟩).markup =
      (site claimed e.span (m.without (strays claimed e.span m))).plug
        (newRow e claimed m s .nil) := by
  have hsplit (m' : Markup) :
      without (order claimed e.span m (opened claimed e.span m s).1.inside) m' =
        without (strays claimed e.span m)
          (without (rootIds (opened claimed e.span m s).1.inside) m') := by
    rw [without_without]
    refine Forest.prune_congr fun n _ => ?_
    rw [isClaimed, isClaimed, decide_eq_decide, h.mem_order, List.mem_append]
  have hsub : strays claimed e.span m ⊆ claimed := List.filter_subset_self _
  have hout : ∀ x ∈ strays claimed e.span m, x ∉ ids (site claimed e.span m).row :=
    fun x hx => by simpa using (List.mem_filter.mp hx).2
  rw [hsplit, placed_markup, without_plug_row h.nodup fun x hx => ?_, h.newRow_without]
  · refine (without_plug hsub hout fun x hx hnew => ?_).1
    have hnew' : x ∈ (newRow e claimed m s (opened claimed e.span m s).1.inside).ids := by
      rw [← h.newRow_without] at hnew
      exact (without_sublist _ _).subset hnew
    rcases mem_newRow hnew' with hrow | hnew
    · exact hout x hx hrow
    · exact Nat.lt_irrefl _ (Nat.lt_of_lt_of_le (h.fresh x (h.stray_ids x hx)) hnew)
  · exact (mem_inside (mem_ids_of_rootIds hx)).imp_right fun hnew hmem =>
      Nat.lt_irrefl _ (Nat.lt_of_lt_of_le (h.fresh x hmem) hnew)

/-- Children for the new element. -/
theorem adopting_newRow (kids : Markup) :
    adopting (opened claimed e.span m s).2.next kids (newRow e claimed m s .nil) =
      newRow e claimed m s kids := by
  rw [newRow, newRow, adopting_append, adopting_node, if_pos rfl,
    adopting_of_not_mem h.next_not_mem_sides.2, adopting_of_not_mem h.next_not_mem_sides.1,
    Forest.nil_append]

end Insertable

theorem gather_eq {t : Tree Node} (hxs : xs ≠ []) (ht : m.node? P = some t) :
    gather P xs m = ((inOrder ((rootIds t.children ++ xs).filterMap fun x =>
      (m.node? x).map fun t => (x, t.label.span))).map (·.1)).foldl (moveUnder P) m := by
  cases xs with
  | nil => exact absurd rfl hxs
  | cons x xs =>
    unfold gather
    rw [ht]

/-- The mark-up after an insertion: the new element stands in its row with the strays among its
children, and the strays are gone from where they were. -/
theorem gather_placed (h : Insertable lo hi claimed e m s) (s' : Supply) :
    (placed e claimed m s ⟨(opened claimed e.span m s).1.inside, s'⟩).markup.gather
        (opened claimed e.span m s).2.next (strays claimed e.span m) =
      (site claimed e.span (m.without (strays claimed e.span m))).plug
        (newRow e claimed m s (brood claimed e.span m (opened claimed e.span m s).1.inside)) := by
  have hin := h.nests_inside
  by_cases hS : strays claimed e.span m = []
  · have hbrood : brood claimed e.span m (opened claimed e.span m s).1.inside =
        (opened claimed e.span m s).1.inside := by
      rw [brood, fetched, fetched, hS]
      simp only [List.filter_nil, List.dedup_nil, bared, Forest.append_nil]
      exact keep_append_drop_markerAt hin
    rw [hbrood, hS, without_of_disjoint fun x hx => absurd hx (List.not_mem_nil)]
    rfl
  · have hne : ∃ x, x ∈ strays claimed e.span m := List.exists_mem_of_ne_nil _ hS
    obtain ⟨x₀, hx₀⟩ := hne
    obtain ⟨-, -, hlt, -⟩ := h.stray hx₀
    rw [gather_eq hS (h.node?_placed s'), h.members_eq s', h.inOrder_members hlt hin]
    rw [foldl_moveUnder (h.movable s' fun x hx => h.mem_order.mp hx), h.bared_order s',
      h.placed_without s', adopting_plug fun hP => h.next_not_mem ((without_sublist _ m).subset hP),
      h.adopting_newRow]

end Markup

end Standoff
