import Standoff.Proofs.Trails

/-! # The order of nodes that are watched

Some nodes are watched while others come in.  The place of a watched element among the others
follows from its span, but that of a marker does not: two markers at one position may stand either
way, and a marker at the boundary of an element in front of it, inside or behind.  What settles it
is that a watched marker lies inside every element around it, away from the boundaries.

* `Markup.Interior`: that property.
* `Markup.seen`: the watched numbers in document order.
* `Markup.seen_divide`, `Markup.Interior.divide`: a division keeps both.
* `Markup.seen_inside`, `Markup.seen_opening`: so does an opening, for claimed nodes and for others.
* `Markup.Interior.plug`: what may take the place of a row. -/

namespace Standoff

namespace Markup

/-- Every watched marker lies inside the elements around it. -/
def Interior (q : NodeId → Bool) : Markup → Prop
  | .nil => True
  | .node n kids rest =>
    (∀ x ∈ kids.preorder, q x.id = true → x.span.stop ≤ x.span.start →
      n.span.start < x.span.start ∧ x.span.start < n.span.stop) ∧
    Interior q kids ∧ Interior q rest

/-- The watched numbers of a list of nodes. -/
def watched (q : NodeId → Bool) (ns : List Node) : List NodeId := (ns.map (·.id)).filter q

/-- The watched numbers, in document order. -/
def seen (q : NodeId → Bool) (m : Markup) : List NodeId := watched q m.preorder

variable {q q' : NodeId → Bool} {lo hi pos : Nat} {m f g row kids rest : Markup} {n x : Node}
  {s : Supply} {e : Element} {claimed : List NodeId} {span : Span}

@[simp] theorem seen_nil : seen q .nil = [] := rfl

@[simp] theorem seen_append : seen q (f ++ g) = seen q f ++ seen q g := by
  rw [seen, watched, Forest.preorder_append, List.map_append, List.filter_append]
  rfl

theorem seen_node : seen q (.node n kids rest) =
    (if q n.id then [n.id] else []) ++ (seen q kids ++ seen q rest) := by
  rw [seen, watched, Forest.preorder_node, List.map_cons, List.map_append, List.filter_cons,
    List.filter_append]
  split <;> rfl

theorem seen_eq_nil_iff : seen q m = [] ↔ ∀ x ∈ m.preorder, q x.id = false := by
  rw [seen, watched, List.filter_eq_nil_iff, List.forall_mem_map]
  exact forall₂_congr fun x _ => by rw [Bool.not_eq_true]

theorem mem_seen {y : NodeId} : y ∈ seen q m ↔ y ∈ m.ids ∧ q y = true := List.mem_filter

/-! ## Markers away from boundaries -/

theorem interior_append : Interior q (f ++ g) ↔ Interior q f ∧ Interior q g := by
  induction f with
  | nil => exact (and_iff_right trivial).symm
  | node n kids rest _ ih => rw [Forest.node_append, Interior, Interior, ih, and_assoc, and_assoc]

theorem Interior.keep (h : Interior q m) (p : Node → Bool) : Interior q (m.keep p) := by
  induction m with
  | nil => trivial
  | node n kids rest _ ih =>
    obtain ⟨hn, hkids, hrest⟩ := h
    rw [Forest.keep]
    split
    · exact ⟨hn, hkids, ih hrest⟩
    · exact ih hrest

theorem Interior.prune (h : Interior q m) (p : Node → Bool) : Interior q (m.prune p) := by
  induction m with
  | nil => trivial
  | node n kids rest ihk ihr =>
    obtain ⟨hn, hkids, hrest⟩ := h
    rw [Forest.prune]
    split
    · exact ihr hrest
    · exact ⟨fun x hx => hn x ((Forest.preorder_prune_sublist p kids).subset hx), ihk hkids,
        ihr hrest⟩

/-- Fewer nodes may be watched. -/
theorem Interior.mono (h : Interior q m) (hq : ∀ x ∈ m.ids, q' x = true → q x = true) :
    Interior q' m := by
  induction m with
  | nil => trivial
  | node n kids rest ihk ihr =>
    obtain ⟨hn, hkids, hrest⟩ := h
    simp only [ids_node, List.mem_cons, List.mem_append] at hq
    exact ⟨fun x hx hqx => hn x hx (hq x.id (.inr (.inl (id_mem_ids hx))) hqx),
      ihk hkids fun x hx => hq x (.inr (.inl hx)), ihr hrest fun x hx => hq x (.inr (.inr hx))⟩

theorem interior_of_unseen (h : seen q m = []) : Interior q m := by
  induction m with
  | nil => trivial
  | node n kids rest ihk ihr =>
    have hall := seen_eq_nil_iff.mp h
    simp only [Forest.preorder_node, List.mem_cons, List.mem_append] at hall
    refine ⟨fun x hx hqx => ?_, ihk (seen_eq_nil_iff.mpr fun x hx => hall x (.inr (.inl hx))),
      ihr (seen_eq_nil_iff.mpr fun x hx => hall x (.inr (.inr hx)))⟩
    rw [hall x (.inr (.inl hx))] at hqx
    cases hqx

/-- Nothing below a marker is watched. -/
theorem Interior.below_marker (h : Interior q (.node n kids rest))
    (hkids : Nests n.span.start n.span.stop kids) (hn : n.span.stop ≤ n.span.start) :
    seen q kids = [] := by
  refine seen_eq_nil_iff.mpr fun x hx => Bool.eq_false_iff.mpr fun hqx => ?_
  have hbounds := hkids.bounds hx
  have := h.1 x hx hqx (by omega)
  omega

/-- A row of markers of which none is watched. -/
theorem Interior.seen_markers (h : Interior q m) (hm : Nests pos pos m)
    (hq : ∀ n ∈ m.labels, q n.id = false) : seen q m = [] := by
  induction m with
  | nil => rfl
  | node n kids rest _ ih =>
    obtain ⟨h₁, hkids, hrest⟩ := hm
    have hle := hkids.le
    have hle' := hrest.le
    obtain ⟨hn, hlabels⟩ := List.forall_mem_cons.mp hq
    have hstop : n.span.stop = pos := by omega
    rw [hstop] at hrest
    rw [seen_node, hn, h.below_marker hkids (by omega), ih h.2.2 hrest hlabels]
    rfl

/-- The trees of a row of markers that are not watched do not matter. -/
theorem Interior.seen_keep (h : Interior q m) (hm : Nests pos pos m) {p : Node → Bool}
    (hq : ∀ n ∈ m.labels, p n = false → q n.id = false) : seen q (m.keep p) = seen q m := by
  induction m with
  | nil => rfl
  | node n kids rest _ ih =>
    obtain ⟨h₁, hkids, hrest⟩ := hm
    have hle := hkids.le
    have hle' := hrest.le
    obtain ⟨hn, hlabels⟩ := List.forall_mem_cons.mp hq
    have hstop : n.span.stop = pos := by omega
    rw [hstop] at hrest
    rw [Forest.keep]
    split
    · rw [seen_node, seen_node, ih h.2.2 hrest hlabels]
    · next hp =>
      rw [seen_node, hn (by simpa using hp), h.below_marker hkids (by omega),
        ih h.2.2 hrest hlabels]
      rfl

/-! ## Divisions -/

/-- A division keeps the watched nodes in order. -/
theorem seen_divide (pos : Nat) (hm : Nests lo hi m) (hq : ∀ x, q x = true → x < s.next) :
    seen q (divide pos m s).left ++ (seen q (divide pos m s).lifted ++
      seen q (divide pos m s).right) = seen q m := by
  induction m generalizing lo hi s with
  | nil => rfl
  | node n kids rest ihk ihr =>
    obtain ⟨-, hkids, hrest⟩ := hm
    have hord := hkids.le
    rcases n.span.lies pos with hn | hn | hn | hn
    · have hnext := (s.le_cut n pos).next
      have hnew : q s.next = false := Bool.eq_false_iff.mpr fun hqs =>
        absurd (hq _ hqs) (Nat.lt_irrefl _)
      rw [divide_cut hn, divide_of_lt hrest hn.2, seen_node, seen_node, seen_append, seen_node,
        ← ihk hkids fun x hx => Nat.lt_of_lt_of_le (hq x hx) hnext]
      show (if q n.id then [n.id] else []) ++ _ ++ (_ ++ ((if q s.next then _ else []) ++ _)) = _
      rw [hnew]
      simp
    · have hstop : n.span.stop = pos := by omega
      rw [hstop] at hrest
      have hr := ihr hrest hq
      rw [divide_start hrest] at hr
      rw [divide_marker hn, divide_start hrest, seen_node, seen_node, ← hr]
      simp
    · have hr := ihr hrest hq
      rw [divide_of_lt hrest (by omega)] at hr
      rw [divide_right hn, divide_of_lt hrest (by omega)]
      rfl
    · rw [divide_left hn, seen_node, seen_node, ← ihr hrest hq]
      simp

/-- The markers of the parts were in the row. -/
theorem mem_of_divide (hx : x.span.stop ≤ x.span.start)
    (h : x ∈ (divide pos m s).left.preorder ∨ x ∈ (divide pos m s).lifted.preorder ∨
      x ∈ (divide pos m s).right.preorder) : x ∈ m.preorder := by
  have hcount := count_marker_divide hx pos m s
  rw [← List.count_pos_iff, ← List.count_pos_iff, ← List.count_pos_iff] at h
  rw [← List.count_pos_iff]
  omega

/-- The watched markers keep away from the boundaries of both halves: those at the position have
been lifted. -/
theorem Interior.divide (h : Interior q m) (hm : Nests lo hi m) (pos : Nat) (s : Supply) :
    (Interior q (divide pos m s).left ∧ ∀ x ∈ (divide pos m s).left.preorder, q x.id = true →
      x.span.stop ≤ x.span.start → x.span.start < pos) ∧
    Interior q (divide pos m s).lifted ∧
    (Interior q (divide pos m s).right ∧ ∀ x ∈ (divide pos m s).right.preorder, q x.id = true →
      x.span.stop ≤ x.span.start → pos < x.span.start) := by
  induction m generalizing lo hi s with
  | nil => exact ⟨⟨trivial, by simp⟩, trivial, trivial, by simp⟩
  | node n kids rest ihk ihr =>
    obtain ⟨hn₀, hikids, hirest⟩ := h
    obtain ⟨-, hkids, hrest⟩ := hm
    have hord := hkids.le
    rcases n.span.lies pos with hn | hn | hn | hn
    · obtain ⟨⟨hkl, hlt⟩, hkm, hkr, hgt⟩ := ihk hikids hkids (s.cut n pos)
      obtain ⟨⟨hrl, hlt'⟩, hrm, hrr, hgt'⟩ :=
        ihr hirest hrest (Markup.divide pos kids (s.cut n pos)).supply
      rw [divide_cut hn]
      refine ⟨⟨⟨fun x hx hqx hxm => ⟨?_, hlt x hx hqx hxm⟩, hkl, hrl⟩, fun x hx hqx hxm => ?_⟩,
        interior_append.mpr ⟨hkm, hrm⟩,
        ⟨fun x hx hqx hxm => ⟨hgt x hx hqx hxm, ?_⟩, hkr, hrr⟩, fun x hx hqx hxm => ?_⟩
      · exact (hn₀ x (mem_of_divide hxm (.inl hx)) hqx hxm).1
      · simp only [Forest.preorder_node, List.mem_cons, List.mem_append] at hx
        rcases hx with rfl | hx | hx
        · exact hn.1
        · exact hlt x hx hqx hxm
        · exact hlt' x hx hqx hxm
      · exact (hn₀ x (mem_of_divide hxm (.inr (.inr hx))) hqx hxm).2
      · simp only [Forest.preorder_node, List.mem_cons, List.mem_append] at hx
        rcases hx with rfl | hx | hx
        · exact absurd hn.2 (Nat.not_lt.mpr hxm)
        · exact hgt x hx hqx hxm
        · exact hgt' x hx hqx hxm
    · obtain ⟨hl, hm', hr⟩ := ihr hirest hrest s
      rw [divide_marker hn]
      exact ⟨hl, ⟨hn₀, hikids, hm'⟩, hr⟩
    · obtain ⟨hl, hm', hr, hgt⟩ := ihr hirest hrest s
      rw [divide_right hn]
      refine ⟨hl, hm', ⟨hn₀, hikids, hr⟩, fun x hx hqx hxm => ?_⟩
      simp only [Forest.preorder_node, List.mem_cons, List.mem_append] at hx
      rcases hx with rfl | hx | hx
      · omega
      · exact Nat.lt_of_le_of_lt hn.1 (hn₀ x hx hqx hxm).1
      · exact hgt x hx hqx hxm
    · obtain ⟨⟨hl, hlt⟩, hm', hr⟩ := ihr hirest hrest s
      rw [divide_left hn]
      refine ⟨⟨⟨hn₀, hikids, hl⟩, fun x hx hqx hxm => ?_⟩, hm', hr⟩
      simp only [Forest.preorder_node, List.mem_cons, List.mem_append] at hx
      rcases hx with rfl | hx | hx
      · exact hn.1
      · exact Nat.lt_of_lt_of_le (hn₀ x hx hqx hxm).2 hn.2
      · exact hlt x hx hqx hxm

/-- A node that the position does not lie in is left whole. -/
theorem mem_divide (hn : n ∈ m.preorder) (hwhole : ¬(n.span.start < pos ∧ pos < n.span.stop)) :
    n ∈ (divide pos m s).left.preorder ∨ n ∈ (divide pos m s).lifted.preorder ∨
      n ∈ (divide pos m s).right.preorder := by
  induction m generalizing s with
  | nil => exact absurd hn List.not_mem_nil
  | node a kids rest ihk ihr =>
    simp only [Forest.preorder_node, List.mem_cons, List.mem_append] at hn
    rcases a.span.lies pos with ha | ha | ha | ha
    · rw [divide_cut ha]
      simp only [Forest.preorder_node, Forest.preorder_append, List.mem_cons, List.mem_append]
      rcases hn with rfl | hn | hn
      · exact absurd ha hwhole
      · exact (ihk hn).imp (fun h => .inr (.inl h)) (Or.imp .inl fun h => .inr (.inl h))
      · exact (ihr hn).imp (fun h => .inr (.inr h)) (Or.imp .inr fun h => .inr (.inr h))
    · rw [divide_marker ha]
      simp only [Forest.preorder_node, List.mem_cons, List.mem_append]
      rcases hn with hn | hn | hn
      · exact .inr (.inl (.inl hn))
      · exact .inr (.inl (.inr (.inl hn)))
      · exact (ihr hn).imp_right (Or.imp_left fun h => .inr (.inr h))
    · rw [divide_right ha]
      simp only [Forest.preorder_node, List.mem_cons, List.mem_append]
      rcases hn with hn | hn | hn
      · exact .inr (.inr (.inl hn))
      · exact .inr (.inr (.inr (.inl hn)))
      · exact (ihr hn).imp_right (Or.imp_right fun h => .inr (.inr h))
    · rw [divide_left ha]
      simp only [Forest.preorder_node, List.mem_cons, List.mem_append]
      rcases hn with hn | hn | hn
      · exact .inl (.inl hn)
      · exact .inl (.inr (.inl hn))
      · exact (ihr hn).imp_left fun h => .inr (.inr h)

/-! ## Openings -/

section Openings

variable (hrow : Nests lo hi row) (hlo : lo ≤ span.start) (hab : span.start ≤ span.stop)
  (hhi : span.stop ≤ hi)
include hrow hlo hab hhi

/-- The claimed nodes of a row come together inside, in order. -/
theorem seen_inside (hin : Interior q row) (hq : ∀ x, q x = true → x < s.next ∧ x ∈ claimed)
    (hwithin : ∀ n ∈ row.preorder, q n.id = true →
      span.start ≤ n.span.start ∧ n.span.stop ≤ span.stop) :
    seen q (opening claimed span row s).1.inside = seen q row := by
  have hle := divide_le span.start row s
  obtain ⟨hleft, hlifted, hright⟩ := hrow.divide hlo (Nat.le_trans hab hhi) s
  obtain ⟨-, hlifted', hright'⟩ := hright.divide hab hhi (divide span.start row s).supply
  obtain ⟨⟨-, hlt⟩, himarkers, hiright, -⟩ := hin.divide hrow span.start s
  obtain ⟨-, himarkers', -, hgt⟩ :=
    hiright.divide hright span.stop (divide span.start row s).supply
  have hnone : seen q (divide span.start row s).left = [] :=
    seen_eq_nil_iff.mpr fun x hx => Bool.eq_false_iff.mpr fun hqx => by
      obtain ⟨a, ha, hrem⟩ := remains_divide (.inl hx) (hq _ hqx).1
      have := hwithin a ha (hrem.id ▸ hqx)
      have := hleft.bounds hx
      have := hrem.start
      have := hlt x hx hqx (by omega)
      omega
  have hnone' : seen q (divide span.stop (divide span.start row s).right
      (divide span.start row s).supply).right = [] :=
    seen_eq_nil_iff.mpr fun x hx => Bool.eq_false_iff.mpr fun hqx => by
      obtain ⟨b, hb, hrem'⟩ :=
        remains_divide (.inr (.inr hx)) (Nat.lt_of_lt_of_le (hq _ hqx).1 hle.next)
      obtain ⟨a, ha, hrem⟩ := remains_divide (.inr (.inr hb)) (hrem'.id ▸ (hq _ hqx).1)
      have := hwithin a ha ((hrem.trans hrem').id ▸ hqx)
      have := hright'.bounds hx
      have := (hrem.trans hrem').stop
      have := hgt x hx hqx (by omega)
      omega
  have hkeep {f : Markup} (hf : Interior q f) {pos : Nat} (hm : Nests pos pos f) :
      seen q (f.keep (isClaimed claimed)) = seen q f :=
    hf.seen_keep hm fun n _ hn => Bool.eq_false_iff.mpr fun hqn =>
      of_decide_eq_false hn (hq _ hqn).2
  have hfirst := seen_divide span.start hrow fun x hx => (hq x hx).1
  have hsecond := seen_divide span.stop hright fun x hx =>
    Nat.lt_of_lt_of_le (hq x hx).1 hle.next
  rw [hnone, List.nil_append] at hfirst
  rw [hnone', List.append_nil] at hsecond
  rw [opening, seen_append, seen_append, hkeep himarkers hlifted, hkeep himarkers' hlifted',
    List.append_assoc, hsecond, hfirst]

/-- The other nodes of a row keep their order, and the markers among them keep away from the ends
of the span. -/
theorem seen_opening (hin : Interior q row) (hq : ∀ x, q x = true → x < s.next ∧ x ∉ claimed) :
    seen q (opening claimed span row s).1.before ++
        (seen q (opening claimed span row s).1.inside ++
          seen q (opening claimed span row s).1.after) = seen q row ∧
      Interior q (opening claimed span row s).1.before ∧
      (Interior q (opening claimed span row s).1.inside ∧
        ∀ x ∈ (opening claimed span row s).1.inside.preorder, q x.id = true →
          x.span.stop ≤ x.span.start → x ∈ row.preorder ∧ span.start < x.span.start ∧
            x.span.start < span.stop) ∧
      (Interior q (opening claimed span row s).1.after ∧
        ∀ x ∈ (opening claimed span row s).1.after.preorder, q x.id = true →
          x.span.stop ≤ x.span.start → span.start < x.span.start) := by
  have hle := divide_le span.start row s
  obtain ⟨-, hlifted, hright⟩ := hrow.divide hlo (Nat.le_trans hab hhi) s
  obtain ⟨-, hlifted', -⟩ := hright.divide hab hhi (divide span.start row s).supply
  obtain ⟨⟨hileft, -⟩, himarkers, hiright, hgt⟩ := hin.divide hrow span.start s
  obtain ⟨⟨hileft', hlt⟩, himarkers', hiright', -⟩ :=
    hiright.divide hright span.stop (divide span.start row s).supply
  have hdrop {f : Markup} (hf : Interior q f) {pos : Nat} (hm : Nests pos pos f) :
      seen q (f.drop (isClaimed claimed)) = seen q f :=
    hf.seen_keep hm fun n _ hn => Bool.eq_false_iff.mpr fun hqn => by
      have hclaimed : isClaimed claimed n = true := by simpa using hn
      exact (hq _ hqn).2 (of_decide_eq_true hclaimed)
  have hkeep {f : Markup} (hf : Interior q f) {pos : Nat} (hm : Nests pos pos f) :
      seen q (f.keep (isClaimed claimed)) = [] := by
    refine (hf.keep _).seen_markers (hm.keep _) fun n hn => Bool.eq_false_iff.mpr fun hqn => ?_
    rw [Forest.labels_keep] at hn
    exact (hq _ hqn).2 (of_decide_eq_true (List.mem_filter.mp hn).2)
  have hfirst := seen_divide span.start hrow fun x hx => (hq x hx).1
  have hsecond := seen_divide span.stop hright fun x hx =>
    Nat.lt_of_lt_of_le (hq x hx).1 hle.next
  refine ⟨?_, interior_append.mpr ⟨hileft, himarkers.keep _⟩,
    ⟨interior_append.mpr ⟨interior_append.mpr ⟨himarkers.keep _, hileft'⟩, himarkers'.keep _⟩,
      fun x hx hqx hxm => ?_⟩,
    ⟨interior_append.mpr ⟨himarkers'.keep _, hiright'⟩, fun x hx hqx hxm => ?_⟩⟩
  · rw [opening, seen_append, seen_append, seen_append, seen_append, hdrop himarkers hlifted,
      hdrop himarkers' hlifted', hkeep himarkers hlifted, hkeep himarkers' hlifted', ← hfirst,
      ← hsecond]
    simp only [List.nil_append, List.append_nil, List.append_assoc]
  · simp only [opening, Forest.preorder_append, List.mem_append] at hx
    rcases hx with (hx | hx) | hx
    · have := seen_eq_nil_iff.mp (hkeep himarkers hlifted) x hx
      rw [this] at hqx
      cases hqx
    · have hmem := mem_of_divide hxm (.inl hx)
      exact ⟨mem_of_divide hxm (.inr (.inr hmem)), hgt x hmem hqx hxm, hlt x hx hqx hxm⟩
    · have := seen_eq_nil_iff.mp (hkeep himarkers' hlifted') x hx
      rw [this] at hqx
      cases hqx
  · simp only [opening, Forest.preorder_append, List.mem_append] at hx
    rcases hx with hx | hx
    · exact hgt x (mem_of_divide hxm (.inr (.inl (mem_keep hx)))) hqx hxm
    · exact hgt x (mem_of_divide hxm (.inr (.inr hx))) hqx hxm

end Openings

/-- A node that neither end of the span lies in is left whole. -/
theorem mem_opening (hn : n ∈ row.preorder)
    (hstart : ¬(n.span.start < span.start ∧ span.start < n.span.stop))
    (hstop : ¬(n.span.start < span.stop ∧ span.stop < n.span.stop)) :
    n ∈ (opening claimed span row s).1.before.preorder ∨
      n ∈ (opening claimed span row s).1.inside.preorder ∨
      n ∈ (opening claimed span row s).1.after.preorder := by
  have hmarkers (f : Markup) (hf : n ∈ f.preorder) :
      n ∈ (f.keep (isClaimed claimed)).preorder ∨ n ∈ (f.drop (isClaimed claimed)).preorder :=
    List.mem_append.mp ((perm_keep_drop (isClaimed claimed) f).mem_iff.mpr hf)
  simp only [opening, Forest.preorder_append, List.mem_append]
  rcases mem_divide (s := s) hn hstart with h | h | h
  · exact .inl (.inl h)
  · exact (hmarkers _ h).elim (fun h => .inr (.inl (.inl (.inl h)))) fun h => .inl (.inr h)
  · rcases mem_divide (s := (divide span.start row s).supply) h hstop with h | h | h
    · exact .inr (.inl (.inl (.inr h)))
    · exact (hmarkers _ h).elim (fun h => .inr (.inl (.inr h))) fun h => .inr (.inr (.inl h))
    · exact .inr (.inr (.inr h))

/-! ## Around the row -/

/-- The nodes in front of the focussed row and behind it.  Those in front end before the span unless
they hold the row; if a marker at the start of the span is among them, no watched one is in the row.
Those behind start behind the span. -/
structure Around (q : NodeId → Bool) (claimed : List NodeId) (span : Span) (m : Markup)
    (front back : List Node) : Prop where
  plug : ∀ g, ((site claimed span m).plug g).preorder = front ++ g.preorder ++ back
  front : ∀ n ∈ front, enters claimed span n = false → n.span.stop ≤ span.start ∧
    (span.start ≤ n.span.start → ∀ x ∈ (site claimed span m).row.preorder, q x.id = true →
      x.span.stop ≤ x.span.start → span.start < x.span.start)
  back : ∀ n ∈ back, span.stop ≤ n.span.start ∧ span.start < n.span.start

theorem Interior.around (claimed : List NodeId) (hin : Interior q m) (h : Nests lo hi m)
    (hab : span.start ≤ span.stop) : ∃ front back, Around q claimed span m front back := by
  induction m using Forest.focus_induction (enters claimed span) generalizing lo hi with
  | row f hf =>
    refine ⟨[], [], fun g => ?_, by simp, by simp⟩
    rw [site_of_none hf]
    exact (List.append_nil _).symm
  | inner f n kids rest hf hn ih =>
    obtain ⟨hfront, hkids, hrest⟩ := nests_around.mp h
    obtain ⟨-, hnode⟩ := interior_append.mp hin
    obtain ⟨front, back, hplug, hbefore, hbehind⟩ := ih hnode.2.1 hkids
    have hcover := covers_of_enters hab hn
    have hadmits := Span.admits_iff.mp (enters_iff.mp hn).2
    refine ⟨f.preorder ++ n :: front, back ++ rest.preorder, fun g => ?_, fun p hp hout => ?_,
      fun p hp => ?_⟩
    · rw [site_append_node hf hn]
      simp [hplug]
    · rw [site_append_node hf hn]
      rcases List.mem_append.mp hp with hp | hp
      · have hbounds := hfront.bounds hp
        refine ⟨Nat.le_trans hbounds.2.2 hcover.1, fun hstart x hx hqx hxm => ?_⟩
        have := (hnode.1 x (mem_row_of_site hx) hqx hxm).1
        omega
      · rcases List.mem_cons.mp hp with rfl | hp
        · rw [hn] at hout
          cases hout
        · exact hbefore p hp hout
    · rcases List.mem_append.mp hp with hp | hp
      · exact hbehind p hp
      · have := (hrest.bounds hp).1
        omega

theorem Around.self {front back : List Node} (h : Around q claimed span m front back) :
    m.preorder = front ++ (site claimed span m).row.preorder ++ back := by
  rw [← h.plug, plug_site]

theorem Around.seen_eq {front back : List Node} (h : Around q claimed span m front back) :
    seen q m = watched q front ++ seen q (site claimed span m).row ++ watched q back := by
  conv => lhs; rw [seen, h.self, watched, List.map_append, List.map_append, List.filter_append,
    List.filter_append]
  rfl

theorem Interior.focus (h : Interior q m) (claimed : List NodeId) (span : Span) :
    Interior q (site claimed span m).row := by
  induction m using Forest.focus_induction (enters claimed span) with
  | row f hf =>
    rw [site_of_none hf]
    exact h
  | inner f n kids rest hf hn ih =>
    rw [site_append_node hf hn]
    exact ih (interior_append.mp h).2.2.1

/-- A row may take the place of the focussed one if its watched markers were there before, or come
with an element without width. -/
theorem Interior.plug (hin : Interior q m) (hg : Interior q' g)
    (hold : ∀ x ∈ m.ids, q' x = true → q x = true)
    (hnew : ∀ x ∈ g.preorder, q' x.id = true → x.span.stop ≤ x.span.start →
      x ∈ (site claimed span m).row.preorder ∨
        (span.stop ≤ span.start ∧ x.span.start = span.start)) :
    Interior q' ((site claimed span m).plug g) := by
  induction m using Forest.focus_induction (enters claimed span) with
  | row f hf =>
    rw [site_of_none hf]
    exact hg
  | inner f n kids rest hf hn ih =>
    obtain ⟨hfront, hnode, hkids, hrest⟩ := interior_append.mp hin
    have hadmits := Span.admits_iff.mp (enters_iff.mp hn).2
    rw [site_append_node hf hn] at hnew ⊢
    simp only [ids_append, ids_node, List.mem_append, List.mem_cons] at hold
    refine interior_append.mpr ⟨hfront.mono fun x hx => hold x (.inl hx), fun x hx hqx hxm => ?_,
      ih hkids (fun x hx => hold x (.inr (.inr (.inl hx)))) hnew,
      hrest.mono fun x hx => hold x (.inr (.inr (.inr hx)))⟩
    have hkid (hx : x ∈ kids.preorder) : n.span.start < x.span.start ∧ x.span.start < n.span.stop :=
      hnode x hx (hold x.id (.inr (.inr (.inl (id_mem_ids hx)))) hqx) hxm
    obtain ⟨front, back, hplug⟩ := Forest.preorder_plug (enters claimed span) kids
    have hself : kids.preorder = front ++ (site claimed span kids).row.preorder ++ back := by
      rw [site, ← hplug, Forest.plug_focus]
    rw [site, hplug, List.mem_append, List.mem_append] at hx
    rcases hx with (hx | hx) | hx
    · exact hkid (by rw [hself]; exact List.mem_append_left _ (List.mem_append_left _ hx))
    · rcases hnew x hx hqx hxm with hrow | ⟨hempty, hstart⟩
      · exact hkid (mem_row_of_site hrow)
      · omega
    · exact hkid (by rw [hself]; exact List.mem_append_right _ hx)

/-- Markers that are not watched can be taken out with what is below them. -/
theorem Interior.seen_prune (hin : Interior q m) (hm : Nests lo hi m) {p : Node → Bool}
    (hp : ∀ n ∈ m.preorder, p n = true → n.span.stop ≤ n.span.start ∧ q n.id = false) :
    seen q (m.prune p) = seen q m := by
  induction m generalizing lo hi with
  | nil => rfl
  | node n kids rest ihk ihr =>
    obtain ⟨-, hkids, hrest⟩ := hm
    simp only [Forest.preorder_node, List.mem_cons, List.mem_append] at hp
    have hr := ihr hin.2.2 hrest fun x hx => hp x (.inr (.inr hx))
    rw [Forest.prune]
    split
    · next hn =>
      obtain ⟨hempty, hq⟩ := hp n (.inl rfl) hn
      rw [seen_node, hq, hin.below_marker hkids hempty, hr]
      rfl
    · rw [seen_node, seen_node, hr, ihk hin.2.1 hkids fun x hx => hp x (.inr (.inl hx))]

/-- Below a watched or unwatched marker that was looked up nothing is watched. -/
theorem Interior.below_node? (hin : Interior q m) (hm : Nests lo hi m) {t : Tree Node}
    {y : NodeId} (ht : m.node? y = some t) (hempty : t.label.span.stop ≤ t.label.span.start) :
    seen q t.children = [] := by
  induction m generalizing lo hi with
  | nil => cases ht
  | node n kids rest ihk ihr =>
    obtain ⟨-, hkids, hrest⟩ := hm
    rw [node?_node] at ht
    split at ht
    · cases ht
      exact hin.below_marker hkids hempty
    · rcases Option.or_eq_some_iff.mp ht with ht | ⟨-, ht⟩
      · exact ihk hin.2.1 hkids ht
      · exact ihr hin.2.2 hrest ht

/-- Of the trees that are fetched only the roots can be watched. -/
theorem Interior.seen_bared (hin : Interior q m) (hm : Nests lo hi m) {xs ys : List NodeId}
    (hys : ∀ y ∈ ys, ∃ t, m.node? y = some t ∧ t.label.span.stop ≤ t.label.span.start) :
    seen q (bared m xs ys) = ys.filter q := by
  induction ys with
  | nil => rfl
  | cons y ys ih =>
    obtain ⟨⟨t, ht, hempty⟩, hrest⟩ := List.forall_mem_cons.mp hys
    have hbelow : seen q (without xs t.children) = [] := by
      refine seen_eq_nil_iff.mpr fun x hx => ?_
      exact seen_eq_nil_iff.mp (hin.below_node? hm ht hempty) x
        ((Forest.preorder_prune_sublist _ _).subset hx)
    rw [bared, ht, seen_node, hbelow, ih hrest, (node?_spec ht).1, List.filter_cons]
    split <;> rfl

end Markup

end Standoff
