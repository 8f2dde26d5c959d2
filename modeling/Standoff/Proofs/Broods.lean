import Standoff.Proofs.Order

/-! # Claimed nodes and others after an insertion
An insertion moves the nodes that it claims below the new element, wherever they stand, and leaves
the other watched nodes where they are.  With `a` the start of the new element, the result is

    seen before a ++ new element ++ claimed nodes, in order ++ seen behind a

* `Markup.joined`: the mark-up after an insertion.
* `Markup.Insertable.seen_brood`: claimed nodes end up below the new element, in order.
* `Markup.Insertable.seen_joined`: the others stay in order.
* `Markup.Insertable.interior_joined`: their markers, and a new one, lie inside all around them. -/

namespace Standoff

namespace Markup

variable {q q' : NodeId → Bool} {lo hi pos : Nat} {m f g row kids rest : Markup} {n x : Node}
  {s : Supply} {e : Element} {claimed : List NodeId}

/-! ## Claimed nodes -/

/-- Nodes that are listed in document order are what is seen of them. -/
theorem seen_of_sublist {xs : List NodeId} (hxs : xs.Sublist m.ids) (hm : m.ids.Nodup) :
    seen (fun x => decide (x ∈ xs)) m = xs := by
  show m.ids.filter _ = xs
  generalize m.ids = ys at hxs hm
  induction hxs with
  | slnil => rfl
  | @cons xs ys y hsub ih =>
    obtain ⟨hy, hys⟩ := List.nodup_cons.mp hm
    rw [List.filter_cons_of_neg (by simpa using fun h => hy (hsub.subset h)), ih hys]
  | @cons_cons xs ys y hsub ih =>
    obtain ⟨hy, hys⟩ := List.nodup_cons.mp hm
    rw [List.filter_cons_of_pos (by simp)]
    refine congrArg (y :: ·) ((List.filter_congr fun x hx => ?_).trans (ih hys))
    have hne : x ≠ y := fun h => hy (h ▸ hx)
    simp [hne]

namespace Insertable

variable (h : Insertable lo hi claimed e m s)
include h

theorem stray_marker {y : NodeId} (hy : y ∈ strays claimed e.span m) :
    ∃ t, m.node? y = some t ∧ t.label.span.stop ≤ t.label.span.start := by
  obtain ⟨t, ht, -, hspan, -⟩ := h.stray hy
  refine ⟨t, ht, ?_⟩
  rcases hspan with hspan | hspan <;> rw [hspan] <;> exact Nat.le_refl _

theorem seen_fetched (hin : Interior q m) (pos : Nat) :
    seen q (fetched claimed e.span m pos) =
      ((strays claimed e.span m).filter (standsAt m pos)).dedup.filter q :=
  hin.seen_bared h.nests fun _ hy =>
    h.stray_marker (List.mem_filter.mp (List.mem_dedup.mp hy)).1

section Around

variable {front back : List Node} (ha : Around q claimed e.span m front back)
  (hq : ∀ x, q x = true ↔ x ∈ claimed)
include ha hq

/-- A claimed node around the row is a marker at one end of the span. -/
theorem stray_around (hx : x ∈ front ∨ x ∈ back) (hqx : q x.id = true) :
    x.id ∈ strays claimed e.span m ∧ e.span.start < e.span.stop ∧
      (x.span = Span.emptyAt e.span.start ∨ x.span = Span.emptyAt e.span.stop) ∧
      ∀ pos, standsAt m pos x.id = (x.span.start == pos) := by
  have hmem : x ∈ m.preorder := by
    rw [ha.self, List.mem_append, List.mem_append]
    exact hx.imp_left Or.inl
  have hnodup := h.nodup
  rw [ids, ha.self, List.map_append, List.map_append, List.nodup_append, List.nodup_append]
    at hnodup
  have hrow : x.id ∉ ids (site claimed e.span m).row := fun hrow => by
    rcases hx with hx | hx
    · exact hnodup.1.2.2 x.id (List.mem_map_of_mem hx) x.id hrow rfl
    · exact hnodup.2.2 x.id (List.mem_append_right _ hrow) x.id (List.mem_map_of_mem hx) rfl
  have hstray : x.id ∈ strays claimed e.span m :=
    List.mem_filter.mpr ⟨(hq _).mp hqx, by simpa using hrow⟩
  obtain ⟨t, ht, hlt, hspan, -⟩ := h.stray hstray
  obtain ⟨hid, hsub⟩ := node?_spec ht
  have heq : t.label = x := eq_of_id h.nodup (hsub t.label (List.mem_cons_self ..)) hmem hid
  refine ⟨hstray, hlt, heq ▸ hspan, fun pos => ?_⟩
  rw [standsAt, ht, Option.any_some, heq]

theorem stray_front (hx : x ∈ front) (hqx : q x.id = true) :
    x.id ∈ strays claimed e.span m ∧ x.span.start = e.span.start ∧
      standsAt m e.span.start x.id = true ∧ standsAt m e.span.stop x.id = false := by
  obtain ⟨hstray, hlt, hspan, hstands⟩ := h.stray_around ha hq (.inl hx) hqx
  have hstop := (ha.front x hx (not_enters_of_claimed ((hq _).mp hqx))).1
  have hat : x.span.start = e.span.start := by
    rcases hspan with hspan | hspan
    · rw [hspan]
      rfl
    · rw [hspan] at hstop
      exact absurd hlt (Nat.not_lt.mpr hstop)
  rw [hstands, hstands, hat]
  exact ⟨hstray, rfl, beq_self_eq_true _, beq_eq_false_iff_ne.mpr (Nat.ne_of_lt hlt)⟩

theorem stray_back (hx : x ∈ back) (hqx : q x.id = true) :
    x.id ∈ strays claimed e.span m ∧
      standsAt m e.span.start x.id = false ∧ standsAt m e.span.stop x.id = true := by
  obtain ⟨hstray, hlt, hspan, hstands⟩ := h.stray_around ha hq (.inr hx) hqx
  have hbehind := (ha.back x hx).2
  have hat : x.span.start = e.span.stop := by
    rcases hspan with hspan | hspan
    · rw [hspan] at hbehind
      exact absurd hbehind (Nat.lt_irrefl _)
    · rw [hspan]
      rfl
  rw [hstands, hstands, hat]
  exact ⟨hstray, beq_eq_false_iff_ne.mpr (Nat.ne_of_gt hlt), beq_self_eq_true _⟩

variable (horder : seen q m = claimed)
include horder

/-- What is fetched from the two ends of the span, in document order. -/
theorem seen_fetched_ends (hin : Interior q m) :
    seen q (fetched claimed e.span m e.span.start) = watched q front ∧
      seen q (fetched claimed e.span m e.span.stop) = watched q back := by
  have hclaimed : claimed.Nodup := by
    rw [← horder]
    exact h.nodup.filter q
  have hnodup : (strays claimed e.span m).Nodup := hclaimed.filter _
  have hall (ns : List Node) : (watched q ns).filter q = watched q ns :=
    List.filter_eq_self.mpr fun y hy => (List.mem_filter.mp hy).2
  have hof {ns : List Node} {y : NodeId} (hy : y ∈ watched q ns) :
      ∃ x ∈ ns, x.id = y ∧ q x.id = true := by
    obtain ⟨hy, hqy⟩ := List.mem_filter.mp hy
    obtain ⟨x, hx, rfl⟩ := List.mem_map.mp hy
    exact ⟨x, hx, rfl, hqy⟩
  have hfront : ∀ y ∈ watched q front, y ∈ strays claimed e.span m ∧
      standsAt m e.span.start y = true ∧ standsAt m e.span.stop y = false := fun y hy => by
    obtain ⟨x, hx, rfl, hqx⟩ := hof hy
    obtain ⟨hstray, -, hstands⟩ := h.stray_front ha hq hx hqx
    exact ⟨hstray, hstands⟩
  have hback : ∀ y ∈ watched q back, y ∈ strays claimed e.span m ∧
      standsAt m e.span.start y = false ∧ standsAt m e.span.stop y = true := fun y hy => by
    obtain ⟨x, hx, rfl, hqx⟩ := hof hy
    exact h.stray_back ha hq hx hqx
  have hstrays : strays claimed e.span m = watched q front ++ watched q back := by
    let away : NodeId → Bool := fun c => decide (c ∉ ids (site claimed e.span m).row)
    have hlist : claimed = watched q front ++ seen q (site claimed e.span m).row ++
        watched q back := horder.symm.trans ha.seen_eq
    have hrow : (seen q (site claimed e.span m).row).filter away = [] :=
      List.filter_eq_nil_iff.mpr fun y hy => by simpa [away] using (mem_seen.mp hy).1
    have hleft : (watched q front).filter away = watched q front :=
      List.filter_eq_self.mpr fun y hy => (List.mem_filter.mp (hfront y hy).1).2
    have hright : (watched q back).filter away = watched q back :=
      List.filter_eq_self.mpr fun y hy => (List.mem_filter.mp (hback y hy).1).2
    calc strays claimed e.span m = claimed.filter away := rfl
      _ = watched q front ++ watched q back := by
        rw [hlist, List.filter_append, List.filter_append, hrow, hleft, hright, List.append_nil]
  have hself {ns : List Node} {pos : Nat} (hat : ∀ y ∈ watched q ns, standsAt m pos y = true) :
      (watched q ns).filter (standsAt m pos) = watched q ns := List.filter_eq_self.mpr hat
  have hnone {ns : List Node} {pos : Nat} (hat : ∀ y ∈ watched q ns, standsAt m pos y = false) :
      (watched q ns).filter (standsAt m pos) = [] :=
    List.filter_eq_nil_iff.mpr fun y hy => by rw [hat y hy]; exact Bool.false_ne_true
  rw [h.seen_fetched hin, h.seen_fetched hin, (hnodup.filter _).dedup, (hnodup.filter _).dedup,
    hstrays]
  constructor
  · rw [List.filter_append, hself fun y hy => (hfront y hy).2.1,
      hnone fun y hy => (hback y hy).2.1, List.append_nil, hall]
  · rw [List.filter_append, hnone fun y hy => (hfront y hy).2.2,
      hself fun y hy => (hback y hy).2.2, List.nil_append, hall]

omit horder in
/-- No claimed marker stands at the start of the row if one stands in front of it. -/
theorem front_or_inside :
    watched q front = [] ∨
      seen q ((opened claimed e.span m s).1.inside.keep (markerAt e.span.start)) = [] := by
  refine or_iff_not_imp_left.mpr fun hne => seen_eq_nil_iff.mpr fun z hz =>
    Bool.eq_false_iff.mpr fun hqz => ?_
  obtain ⟨y, hy⟩ := List.exists_mem_of_ne_nil _ hne
  obtain ⟨hy, hqy⟩ := List.mem_filter.mp hy
  obtain ⟨x, hx, rfl⟩ := List.mem_map.mp hy
  have hstart := (h.stray_front ha hq hx hqy).2.1
  have hspan := (nests_keep_markerAt h.nests_inside).isEmpty_of_mem hz
  have hcount := count_marker_opening (a := z) (by omega) claimed e.span
    (site claimed e.span m).row s
  have hrow : z ∈ (site claimed e.span m).row.preorder := by
    have := List.count_pos_iff.mpr (mem_keep hz)
    rw [opened] at this
    rw [← List.count_pos_iff]
    omega
  have := (ha.front x hx (not_enters_of_claimed ((hq _).mp hqy))).2 (Nat.le_of_eq hstart.symm) z
    hrow hqz (by omega)
  omega

end Around

/-- The claimed nodes of the row come together inside the new element. -/
theorem seen_row (hq : ∀ x, q x = true ↔ x ∈ claimed) (hin : Interior q m) :
    seen q (opened claimed e.span m s).1.inside = seen q (site claimed e.span m).row := by
  obtain ⟨lo', hi', hlo', hhi', hrow, -⟩ := h.nests.focus claimed h.lo_le h.ordered h.le_hi
  exact seen_inside hrow hlo' h.ordered hhi' (hin.focus claimed e.span)
    (fun x hx => ⟨h.claimed_lt x ((hq x).mp hx), (hq x).mp hx⟩)
    fun n hn hqn => h.claims.within n (mem_row_of_site hn) ((hq _).mp hqn)

/-- The claimed nodes end up below the new element, in document order. -/
theorem seen_brood (hq : ∀ x, q x = true ↔ x ∈ claimed) (hin : Interior q m)
    (horder : seen q m = claimed) :
    seen q (brood claimed e.span m (opened claimed e.span m s).1.inside) = claimed := by
  obtain ⟨front, back, ha⟩ := hin.around claimed h.nests h.ordered
  obtain ⟨hstart, hstop⟩ := h.seen_fetched_ends ha hq horder hin
  have hinside := h.seen_row hq hin
  rw [← keep_append_drop_markerAt h.nests_inside, seen_append] at hinside
  rw [brood, seen_append, seen_append, seen_append, hstart, hstop]
  refine Eq.trans ?_ (ha.seen_eq.symm.trans horder)
  rw [← hinside]
  rcases h.front_or_inside ha hq with hnone | hnone <;> rw [hnone] <;> simp

end Insertable

/-! ## The others -/

/-- The mark-up after an insertion. -/
def joined (e : Element) (claimed : List NodeId) (m : Markup) (s : Supply) : Markup :=
  (site claimed e.span (m.without (strays claimed e.span m))).plug
    (newRow e claimed m s (brood claimed e.span m (opened claimed e.span m s).1.inside))

namespace Insertable

variable (h : Insertable lo hi claimed e m s)
include h

theorem count_ids_joined (x : NodeId) :
    (joined e claimed m s).ids.count x =
      m.ids.count x + s.taken (opened claimed e.span m s).2.take x := by
  have hcount := h.grows.count x
  rwa [gather_placed h] at hcount

theorem nodup_joined : (joined e claimed m s).ids.Nodup :=
  List.nodup_iff_count_le_one.mpr fun x => by
    rw [h.count_ids_joined]
    exact h.count_ids_le x

/-- The number of the new element is not below it. -/
theorem next_not_mem_brood : (opened claimed e.span m s).2.next ∉
    (brood claimed e.span m (opened claimed e.span m s).1.inside).ids := fun hbrood => by
  have hcount := (List.nodup_iff_count_le_one.mp h.nodup_joined)
    (opened claimed e.span m s).2.next
  obtain ⟨front, back, hplug⟩ :=
    Forest.preorder_plug (enters claimed e.span) (m.without (strays claimed e.span m))
  have hpos := List.count_pos_iff.mpr hbrood
  rw [joined, ids, site, hplug, newRow] at hcount
  simp only [Forest.preorder_append, Forest.preorder_node, List.map_append, List.map_cons,
    List.count_append, List.count_cons_self] at hcount
  rw [ids] at hpos
  omega

variable (hin : Interior q m) (hq : ∀ x, q x = true → x < s.next ∧ x ∉ claimed)
include hin hq

/-- Without the strays the others are as they were. -/
theorem seen_rest : seen q (m.without (strays claimed e.span m)) = seen q m :=
  hin.seen_prune h.nests fun n hn hstray => by
    have hstray := of_decide_eq_true hstray
    obtain ⟨t, ht, hempty⟩ := h.stray_marker hstray
    obtain ⟨hid, hsub⟩ := node?_spec ht
    have heq := eq_of_id h.nodup (hsub t.label (List.mem_cons_self ..)) hn hid
    exact ⟨heq ▸ hempty, Bool.eq_false_iff.mpr fun hqn =>
      (hq _ hqn).2 (List.mem_filter.mp hstray).1⟩

/-- What is fetched is claimed. -/
theorem seen_fetched_rest (pos : Nat) : seen q (fetched claimed e.span m pos) = [] := by
  rw [h.seen_fetched hin]
  exact List.filter_eq_nil_iff.mpr fun y hy hqy =>
    (hq y hqy).2 (List.mem_filter.mp (List.mem_filter.mp (List.mem_dedup.mp hy)).1).1

theorem seen_brood_rest : seen q (brood claimed e.span m (opened claimed e.span m s).1.inside) =
    seen q (opened claimed e.span m s).1.inside := by
  rw [brood, seen_append, seen_append, seen_append, h.seen_fetched_rest hin hq,
    h.seen_fetched_rest hin hq, List.append_nil, List.append_nil, ← seen_append,
    keep_append_drop_markerAt h.nests_inside]

/-- What `Markup.seen_opening` says of the row that is opened. -/
theorem opened_rest :
    seen q (opened claimed e.span m s).1.before ++
        (seen q (opened claimed e.span m s).1.inside ++
          seen q (opened claimed e.span m s).1.after) = seen q (site claimed e.span m).row ∧
      Interior q (opened claimed e.span m s).1.before ∧
      (Interior q (opened claimed e.span m s).1.inside ∧
        ∀ x ∈ (opened claimed e.span m s).1.inside.preorder, q x.id = true →
          x.span.stop ≤ x.span.start → x ∈ (site claimed e.span m).row.preorder ∧
            e.span.start < x.span.start ∧ x.span.start < e.span.stop) ∧
      (Interior q (opened claimed e.span m s).1.after ∧
        ∀ x ∈ (opened claimed e.span m s).1.after.preorder, q x.id = true →
          x.span.stop ≤ x.span.start → e.span.start < x.span.start) := by
  obtain ⟨lo', hi', hlo', hhi', hrow, -⟩ := h.nests.focus claimed h.lo_le h.ordered h.le_hi
  exact seen_opening hrow hlo' h.ordered hhi' (hin.focus claimed e.span) hq

/-- A node below the new element that is watched was inside already. -/
theorem mem_inside_of_brood
    (hx : x ∈ (brood claimed e.span m (opened claimed e.span m s).1.inside).preorder)
    (hqx : q x.id = true) : x ∈ (opened claimed e.span m s).1.inside.preorder := by
  have hnot {pos : Nat} (hf : x ∈ (fetched claimed e.span m pos).preorder) : False := by
    have := seen_eq_nil_iff.mp (h.seen_fetched_rest hin hq pos) x hf
    rw [this] at hqx
    cases hqx
  simp only [brood, Forest.preorder_append, List.mem_append] at hx
  rcases hx with ((hx | hx) | hx) | hx
  · exact mem_keep hx
  · exact (hnot hx).elim
  · exact mem_keep hx
  · exact (hnot hx).elim

theorem seen_newRow :
    seen q (newRow e claimed m s (brood claimed e.span m (opened claimed e.span m s).1.inside)) =
      seen q (site claimed e.span m).row := by
  have hnew : q (opened claimed e.span m s).2.next = false := Bool.eq_false_iff.mpr fun hqn =>
    absurd next_le_opened (Nat.not_le.mpr (hq _ hqn).1)
  rw [newRow, seen_append, seen_node, h.seen_brood_rest hin hq, hnew,
    ← (h.opened_rest hin hq).1]
  rfl

/-- The others keep their order. -/
theorem seen_joined : seen q (joined e claimed m s) = seen q m := by
  have hrest : Interior q (m.without (strays claimed e.span m)) := hin.prune _
  obtain ⟨front, back, ha⟩ := hrest.around claimed (h.nests.prune _) h.ordered
  have hseen := ha.seen_eq
  rw [h.seen_rest hin hq, row_without, ← h.seen_newRow hin hq] at hseen
  rw [hseen, joined, seen, ha.plug, watched, List.map_append, List.map_append,
    List.filter_append, List.filter_append]
  rfl

/-- Everything from the new element on ends behind its start. -/
theorem joined_split : ∃ front back,
    (joined e claimed m s).preorder = front ++ ⟨e, (opened claimed e.span m s).2.next⟩ :: back ∧
      ∀ x ∈ back, q x.id = true → e.span.start < x.span.stop := by
  have hrest : Interior q (m.without (strays claimed e.span m)) := hin.prune _
  have hnests : Nests lo hi (m.without (strays claimed e.span m)) := h.nests.prune _
  obtain ⟨front, back, ha⟩ := hrest.around claimed hnests h.ordered
  obtain ⟨-, -, ⟨-, hinside⟩, -, hafter⟩ := h.opened_rest hin hq
  obtain ⟨lo', hi', hlo', hhi', hrow, -⟩ := h.nests.focus claimed h.lo_le h.ordered h.le_hi
  obtain ⟨-, hnin, hnafter⟩ := hrow.opening hlo' h.ordered hhi' claimed s
  refine ⟨front ++ (opened claimed e.span m s).1.before.preorder,
    (brood claimed e.span m (opened claimed e.span m s).1.inside).preorder ++
      (opened claimed e.span m s).1.after.preorder ++ back, ?_, fun x hx hqx => ?_⟩
  · rw [joined, ha.plug, newRow, Forest.preorder_append, Forest.preorder_node]
    simp only [List.append_assoc, List.cons_append]
  · rcases List.mem_append.mp hx with hx | hx
    · rcases List.mem_append.mp hx with hx | hx
      · have hx := h.mem_inside_of_brood hin hq hx hqx
        have hbounds := hnin.bounds hx
        have := hinside x hx hqx
        omega
      · have hbounds := hnafter.bounds hx
        have hle := h.ordered
        have := hafter x hx hqx
        omega
    · have := (ha.back x hx).2
      have hmem : x ∈ (m.without (strays claimed e.span m)).preorder := by
        rw [ha.self]
        exact List.mem_append_right _ hx
      have := hnests.bounds hmem
      omega

/-- The markers of the others, and the new element if it is one, lie inside all around them. -/
theorem interior_joined
    (hq' : ∀ x, q' x = true → q x = true ∨ x = (opened claimed e.span m s).2.next) :
    Interior q' (joined e claimed m s) := by
  obtain ⟨-, hibefore, ⟨hiinside, hinside⟩, hiafter, -⟩ := h.opened_rest hin hq
  obtain ⟨hbefore, hafter⟩ := h.next_not_mem_sides
  have hbrood := h.next_not_mem_brood
  have hold {f : Markup} (hf : (opened claimed e.span m s).2.next ∉ f.ids) :
      ∀ x ∈ f.ids, q' x = true → q x = true := fun x hx hqx =>
    (hq' x hqx).resolve_right fun heq => hf (heq ▸ hx)
  have hibrood :
      Interior q (brood claimed e.span m (opened claimed e.span m s).1.inside) :=
    interior_append.mpr ⟨interior_append.mpr ⟨interior_append.mpr ⟨hiinside.keep _,
      interior_of_unseen (h.seen_fetched_rest hin hq _)⟩, hiinside.keep _⟩,
      interior_of_unseen (h.seen_fetched_rest hin hq _)⟩
  have hwas {x : Node} (hx : x ∈ (opened claimed e.span m s).1.before.preorder ∨
      x ∈ (opened claimed e.span m s).1.inside.preorder ∨
      x ∈ (opened claimed e.span m s).1.after.preorder) (hxm : x.span.stop ≤ x.span.start) :
      x ∈ (site claimed e.span m).row.preorder := by
    have hcount := count_marker_opening hxm claimed e.span (site claimed e.span m).row s
    rw [← List.count_pos_iff, ← List.count_pos_iff, ← List.count_pos_iff, opened] at hx
    rw [← List.count_pos_iff]
    omega
  refine (hin.prune _).plug (interior_append.mpr ⟨hibefore.mono (hold hbefore),
      fun x hx hqx hxm => ?_, hibrood.mono (hold hbrood), hiafter.mono (hold hafter)⟩)
    (hold fun hnew => h.next_not_mem ((without_sublist _ _).subset hnew))
    fun x hx hqx hxm => ?_
  · have hqx := hold hbrood x.id (id_mem_ids hx) hqx
    exact (hinside x (h.mem_inside_of_brood hin hq hx hqx) hqx hxm).2
  · rw [show (site claimed e.span (m.prune _)).row = (site claimed e.span m).row from row_without]
    simp only [newRow, Forest.preorder_append, Forest.preorder_node, List.mem_append,
      List.mem_cons] at hx
    rcases hx with hx | rfl | hx | hx
    · exact .inl (hwas (.inl hx) hxm)
    · exact .inr ⟨hxm, rfl⟩
    · have hqx := hold hbrood x.id (id_mem_ids hx) hqx
      exact .inl (hwas (.inr (.inl (h.mem_inside_of_brood hin hq hx hqx))) hxm)
    · exact .inl (hwas (.inr (.inr hx)) hxm)

end Insertable

/-- A node that neither end of the new span lies in is left whole. -/
theorem Insertable.mem_joined (h : Insertable lo hi claimed e m s) (hn : n ∈ m.preorder)
    (hstart : ¬(n.span.start < e.span.start ∧ e.span.start < n.span.stop))
    (hstop : ¬(n.span.start < e.span.stop ∧ e.span.stop < n.span.stop)) :
    n ∈ (joined e claimed m s).preorder := by
  rw [joined, ← gather_placed h s, (h.perm_gather s).mem_iff, placed_markup]
  obtain ⟨front, back, hplug⟩ := Forest.preorder_plug (enters claimed e.span) m
  have hself := hplug (site claimed e.span m).row
  rw [show (m.focus (enters claimed e.span)).plug _ = m from plug_site m] at hself
  rw [site, hplug]
  rw [hself, List.mem_append, List.mem_append] at hn
  rcases hn with (hn | hn) | hn
  · exact List.mem_append_left _ (List.mem_append_left _ hn)
  · refine List.mem_append_left _ (List.mem_append_right _ ?_)
    simp only [newRow, Forest.preorder_append, Forest.preorder_node, List.mem_append,
      List.mem_cons]
    exact (mem_opening hn hstart hstop).imp_right fun h => .inr h
  · exact List.mem_append_right _ hn

/-- Below the new element stands its brood. -/
theorem Insertable.node?_joined (h : Insertable lo hi claimed e m s) :
    (joined e claimed m s).node? (opened claimed e.span m s).2.next =
      some ⟨⟨e, (opened claimed e.span m s).2.next⟩,
        brood claimed e.span m (opened claimed e.span m s).1.inside⟩ := by
  have hnew : (opened claimed e.span m s).2.next ∉ (m.without (strays claimed e.span m)).ids :=
    fun hx => h.next_not_mem ((without_sublist _ _).subset hx)
  rw [joined, node?_plug_new hnew, newRow, node?_append,
    node?_eq_none_iff.mpr h.next_not_mem_sides.1, node?_node, if_pos rfl]
  rfl

end Markup

end Standoff
