import Standoff.Proofs.Moves

/-! # Placement among existing elements

`Markup.place` finds a row, opens it for the new element and puts the element between the two
sides.  With `c` the focus of the search and `o` the opening of its row:

    placed markup = c.plug (o.before ++ node e (fill o.inside) o.after)

* `Markup.Nests.focus`: the row of the focus, and what may be plugged in its place.
* `Markup.outside_row`: what lies within the span and yet outside the row is a marker at one end.
* `Markup.place_eq`: the equation above. -/

namespace Standoff

namespace Markup

variable {lo hi : Nat} {m f g row kids rest : Markup} {n : Node} {s : Supply} {span : Span}
  {claimed xs : List NodeId} {e : Element} {balancing : Balancing} {x : NodeId}
  {fill : Markup → Supply → Except MergeConflict Growth}

/-! ## The search for a row -/

/-- The search for a row goes into the node. -/
def enters (claimed : List NodeId) (span : Span) (n : Node) : Bool :=
  decide (n.id ∉ claimed) && n.span.admits span

/-- The row that is opened for `span`, and the mark-up around it. -/
def site (claimed : List NodeId) (span : Span) (m : Markup) : Forest.Focus Node :=
  m.focus (enters claimed span)

theorem enters_iff : enters claimed span n = true ↔
    n.id ∉ claimed ∧ n.span.admits span = true := by
  simp [enters]

theorem not_enters_of_claimed (h : n.id ∈ claimed) : enters claimed span n = false := by
  simp [enters, h]

theorem admits_of_not_enters (h : enters claimed span n = false) (hn : n.id ∉ claimed) :
    n.span.admits span = false := by
  simpa [enters, hn] using h

/-- A node that is entered covers the span. -/
theorem covers_of_enters (hab : span.start ≤ span.stop) (h : enters claimed span n = true) :
    n.span.start ≤ span.start ∧ span.stop ≤ n.span.stop := by
  have := Span.admits_iff.mp (enters_iff.mp h).2
  omega

theorem site_of_none (h : ∀ n ∈ m.labels, enters claimed span n = false) :
    site claimed span m = ⟨m, id⟩ :=
  Forest.focus_of_none h

theorem site_append_node (hf : ∀ a ∈ f.labels, enters claimed span a = false)
    (hn : enters claimed span n = true) :
    site claimed span (f ++ .node n kids rest) =
      ⟨(site claimed span kids).row,
        fun g => f ++ .node n ((site claimed span kids).plug g) rest⟩ :=
  Forest.focus_append_node kids rest hf hn

/-- Rows that nest in the bounds of the focussed row can be plugged in its place. -/
theorem Nests.focus (claimed : List NodeId) (h : Nests lo hi m) (hlo : lo ≤ span.start)
    (hab : span.start ≤ span.stop) (hhi : span.stop ≤ hi) :
    ∃ lo' hi', lo' ≤ span.start ∧ span.stop ≤ hi' ∧
      Nests lo' hi' (site claimed span m).row ∧
      ∀ g, Nests lo' hi' g → Nests lo hi ((site claimed span m).plug g) := by
  induction m using Forest.focus_induction (enters claimed span) generalizing lo hi with
  | row m hm =>
    rw [site_of_none hm]
    exact ⟨lo, hi, hlo, hhi, h, fun g hg => hg⟩
  | inner f n kids rest hf hn ih =>
    obtain ⟨h₁, h₂, h₃⟩ := nests_around.mp h
    have hcover := covers_of_enters hab hn
    obtain ⟨lo', hi', hlo', hhi', hrow, hplug⟩ := ih h₂ hcover.1 hcover.2
    rw [site_append_node hf hn]
    exact ⟨lo', hi', hlo', hhi', hrow, fun g hg => nests_around.mpr ⟨h₁, hplug g hg, h₃⟩⟩

/-- A node within the span that the search does not enter is in the row, or else a marker at one
end of the span. -/
theorem outside_row (claimed : List NodeId) (h : Nests lo hi m) (hab : span.start ≤ span.stop)
    (hn : n ∈ m.preorder)
    (hout : enters claimed span n = false)
    (hin : span.start ≤ n.span.start ∧ n.span.stop ≤ span.stop) :
    n ∈ (site claimed span m).row.preorder ∨
      (span.start < span.stop ∧
        ((n.span.start = span.start ∧ n.span.stop = span.start) ∨
          (n.span.start = span.stop ∧ n.span.stop = span.stop))) := by
  induction m using Forest.focus_induction (enters claimed span) generalizing lo hi with
  | row m hm =>
    rw [site_of_none hm]
    exact Or.inl hn
  | inner f a kids rest hf ha ih =>
    obtain ⟨h₁, h₂, h₃⟩ := nests_around.mp h
    have hadmits := Span.admits_iff.mp (enters_iff.mp ha).2
    rw [Forest.preorder_append, Forest.preorder_node, List.mem_append, List.mem_cons,
      List.mem_append] at hn
    rw [site_append_node hf ha]
    rcases hn with hn | rfl | hn | hn
    · have := h₁.bounds hn
      omega
    · rw [ha] at hout
      cases hout
    · exact ih h₂ hn
    · have := h₃.bounds hn
      omega

/-! ## The mark-up around the row -/

theorem plug_site (m : Markup) : (site claimed span m).plug (site claimed span m).row = m :=
  Forest.plug_focus _ m

theorem mem_row_of_site (h : n ∈ (site claimed span m).row.preorder) : n ∈ m.preorder :=
  Forest.preorder_focus_row _ m h

theorem ids_of_site (h : x ∈ ids (site claimed span m).row) : x ∈ m.ids := by
  obtain ⟨n, hn, rfl⟩ := mem_ids.mp h
  exact id_mem_ids (mem_row_of_site hn)

/-- Another row in the place of the focussed one changes the count of nodes by as much as the
rows differ. -/
theorem count_plug (m g : Markup) (a : Node) :
    ((site claimed span m).plug g).preorder.count a + (site claimed span m).row.preorder.count a =
      m.preorder.count a + g.preorder.count a := by
  obtain ⟨before, after, h⟩ := Forest.preorder_plug (enters claimed span) m
  have hrow := h (site claimed span m).row
  rw [site, Forest.plug_focus] at hrow
  rw [site, h g, hrow]
  simp only [List.count_append]
  omega

theorem count_ids_plug (m g : Markup) (x : NodeId) :
    (ids ((site claimed span m).plug g)).count x + (ids (site claimed span m).row).count x =
      m.ids.count x + g.ids.count x := by
  obtain ⟨before, after, h⟩ := Forest.preorder_plug (enters claimed span) m
  have hrow := h (site claimed span m).row
  rw [site, Forest.plug_focus] at hrow
  rw [ids, ids, ids, site, h g, hrow]
  simp only [List.map_append, List.count_append, ids]
  omega

/-- Claimed nodes outside the row can be taken out around it. -/
theorem without_plug (hxs : xs ⊆ claimed) (hrow : ∀ x ∈ xs, x ∉ ids (site claimed span m).row)
    (hg : ∀ x ∈ xs, x ∉ g.ids) :
    without xs ((site claimed span m).plug g) = (site claimed span (m.without xs)).plug g ∧
      (site claimed span (m.without xs)).row = (site claimed span m).row := by
  induction m using Forest.focus_induction (enters claimed span) with
  | row m hm =>
    rw [site_of_none hm] at hrow ⊢
    rw [without_of_disjoint hrow, site_of_none hm]
    exact ⟨without_of_disjoint hg, rfl⟩
  | inner f n kids rest hf hn ih =>
    have hnx : n.id ∉ xs := fun h => (enters_iff.mp hn).1 (hxs h)
    have hf' : ∀ a ∈ (without xs f).labels, enters claimed span a = false := by
      intro a ha
      by_cases hax : a.id ∈ claimed
      · exact not_enters_of_claimed hax
      · refine hf a ?_
        clear ih hrow hf
        induction f with
        | nil => cases ha
        | node b bkids brest _ ihf =>
          rw [without_node] at ha
          rw [Forest.labels_node, List.mem_cons]
          split at ha
          · exact Or.inr (ihf ha)
          · exact (List.mem_cons.mp ha).imp_right ihf
    rw [site_append_node hf hn] at hrow ⊢
    obtain ⟨ih₁, ih₂⟩ := ih hrow
    rw [without_append, without_append, without_node, without_node, if_neg hnx, if_neg hnx, ih₁,
      site_append_node hf' hn]
    exact ⟨rfl, ih₂⟩

/-- An adoption in the row takes place there. -/
theorem adopting_plug {P : NodeId} (hP : P ∉ m.ids) (kids : Markup) :
    adopting P kids ((site claimed span m).plug g) =
      (site claimed span m).plug (adopting P kids g) := by
  induction m using Forest.focus_induction (enters claimed span) with
  | row m hm =>
    rw [site_of_none hm]
    rfl
  | inner f n nkids rest hf hn ih =>
    rw [ids_append, ids_node, List.mem_append, List.mem_cons, List.mem_append] at hP
    have hPf : P ∉ ids f := fun h => hP (Or.inl h)
    have hPn : n.id ≠ P := fun h => hP (Or.inr (Or.inl h.symm))
    have hPk : P ∉ ids nkids := fun h => hP (Or.inr (Or.inr (Or.inl h)))
    have hPr : P ∉ ids rest := fun h => hP (Or.inr (Or.inr (Or.inr h)))
    rw [site_append_node hf hn, adopting_append, adopting_of_not_mem hPf, adopting_node,
      if_neg hPn, ih hPk, adopting_of_not_mem hPr]

/-- A claimed node outside the row is found as before. -/
theorem node?_plug (hx : x ∈ claimed) (hrow : x ∉ ids (site claimed span m).row)
    (hg : x ∉ g.ids) : node? ((site claimed span m).plug g) x = m.node? x := by
  induction m using Forest.focus_induction (enters claimed span) with
  | row m hm =>
    rw [site_of_none hm] at hrow ⊢
    exact (node?_eq_none_iff.mpr hg).trans (node?_eq_none_iff.mpr hrow).symm
  | inner f n kids rest hf hn ih =>
    have hnx : n.id ≠ x := fun h => (enters_iff.mp hn).1 (h ▸ hx)
    rw [site_append_node hf hn] at hrow ⊢
    rw [node?_append, node?_append, node?_node, node?_node, if_neg hnx, if_neg hnx, ih hrow]

/-- What is not outside the row is found in it. -/
theorem node?_plug_new (hx : x ∉ m.ids) : node? ((site claimed span m).plug g) x = g.node? x := by
  induction m using Forest.focus_induction (enters claimed span) with
  | row m hm =>
    rw [site_of_none hm]
    rfl
  | inner f n kids rest hf hn ih =>
    rw [ids_append, ids_node, List.mem_append, List.mem_cons, List.mem_append, not_or, not_or,
      not_or] at hx
    obtain ⟨hxf, hxn, hxk, hxr⟩ := hx
    rw [site_append_node hf hn, node?_append, node?_node, if_neg fun h => hxn h.symm, ih hxk,
      node?_eq_none_iff.mpr hxf, node?_eq_none_iff.mpr hxr, Option.none_or, Option.or_none]

/-- The tree of a claimed node outside the row shares no node with the row. -/
theorem treeIds_outside {t : Tree Node} (hm : m.ids.Nodup) (hx : x ∈ claimed)
    (hrow : x ∉ ids (site claimed span m).row) (ht : m.node? x = some t) {y : NodeId}
    (hy : y ∈ treeIds t) : y ∉ ids (site claimed span m).row := by
  induction m using Forest.focus_induction (enters claimed span) with
  | row m hm' =>
    rw [site_of_none hm'] at hrow
    exact absurd (mem_of_node? ht) hrow
  | inner f n kids rest hf hn ih =>
    have hnx : n.id ≠ x := fun h => (enters_iff.mp hn).1 (h ▸ hx)
    rw [ids_append, List.nodup_append] at hm
    obtain ⟨-, hnode, hdisj⟩ := hm
    obtain ⟨-, -, hk, -, hkr⟩ := nodup_node.mp hnode
    have hsub : ∀ z ∈ ids (site claimed span kids).row, z ∈ ids kids := fun z hz => ids_of_site hz
    rw [site_append_node hf hn] at hrow ⊢
    rw [node?_append, node?_node, if_neg hnx] at ht
    rcases Option.or_eq_some_iff.mp ht with ht | ⟨-, ht⟩
    · intro hz
      refine hdisj y (treeIds_subset ht hy) y ?_ rfl
      rw [ids_node]
      exact List.mem_cons_of_mem _ (List.mem_append_left _ (hsub y hz))
    · rcases Option.or_eq_some_iff.mp ht with ht | ⟨-, ht⟩
      · exact ih hk hrow ht
      · exact fun hz => hkr y (hsub y hz) (treeIds_subset ht hy)

/-- Nodes of the row can be taken out there. -/
theorem without_plug_row (hm : m.ids.Nodup)
    (hxs : ∀ x ∈ xs, x ∈ ids (site claimed span m).row ∨ x ∉ m.ids) :
    without xs ((site claimed span m).plug g) = (site claimed span m).plug (g.without xs) := by
  induction m using Forest.focus_induction (enters claimed span) with
  | row m hm' =>
    rw [site_of_none hm']
    rfl
  | inner f n kids rest hf hn ih =>
    rw [ids_append, List.nodup_append] at hm
    obtain ⟨-, hnode, hdisj⟩ := hm
    obtain ⟨hnk, -, hk, -, hkr⟩ := nodup_node.mp hnode
    rw [site_append_node hf hn] at hxs ⊢
    have hxk : ∀ x ∈ xs, x ∈ ids (site claimed span kids).row ∨ x ∉ ids kids := by
      refine fun x hx => (hxs x hx).imp_right fun h hxk => h ?_
      rw [ids_append, ids_node]
      exact List.mem_append_right _ (List.mem_cons_of_mem _ (List.mem_append_left _ hxk))
    have hout : ∀ x ∈ xs, x ∉ ids f ∧ x ≠ n.id ∧ x ∉ ids rest := by
      intro x hx
      rcases hxs x hx with hrow | hnot
      · have hxk := ids_of_site hrow
        refine ⟨fun h => hdisj x h x ?_ rfl, fun h => hnk (h ▸ hxk), hkr x hxk⟩
        rw [ids_node]
        exact List.mem_cons_of_mem _ (List.mem_append_left _ hxk)
      · rw [ids_append, ids_node, List.mem_append, List.mem_cons, List.mem_append, not_or, not_or,
          not_or] at hnot
        exact ⟨hnot.1, hnot.2.1, hnot.2.2.2⟩
    rw [without_append, without_node, if_neg fun h => (hout n.id h).2.1 rfl, ih hk hxk,
      without_of_disjoint fun x hx => (hout x hx).1, without_of_disjoint fun x hx => (hout x hx).2.2]

/-! ## Openings -/

/-- The parts of an opening nest on their sides of the span. -/
theorem Nests.opening (h : Nests lo hi row) (hlo : lo ≤ span.start)
    (hab : span.start ≤ span.stop) (hhi : span.stop ≤ hi) (claimed : List NodeId) (s : Supply) :
    Nests lo span.start (opening claimed span row s).1.before ∧
      Nests span.start span.stop (opening claimed span row s).1.inside ∧
      Nests span.stop hi (opening claimed span row s).1.after := by
  obtain ⟨h₁, h₂, h₃⟩ := h.divide hlo (Nat.le_trans hab hhi) s
  obtain ⟨h₄, h₅, h₆⟩ := h₃.divide hab hhi (Markup.divide span.start row s).supply
  exact ⟨h₁.append (h₂.keep _), ((h₂.keep _).append h₄).append (h₅.keep _), (h₅.keep _).append h₆⟩

theorem count_keep_drop {α : Type} [DecidableEq α] (p : α → Bool) (f : Forest α) (a : α) :
    (f.keep p).preorder.count a + (f.drop p).preorder.count a = f.preorder.count a := by
  induction f with
  | nil => rfl
  | node b kids rest _ ih =>
    rw [Forest.drop] at ih ⊢
    rw [Forest.keep, Forest.keep]
    cases p b with
    | true =>
      simp only [Bool.not_true, if_true, Bool.false_eq_true, if_false, Forest.preorder_node,
        List.count_cons, List.count_append]
      omega
    | false =>
      simp only [Bool.not_false, if_true, Bool.false_eq_true, if_false, Forest.preorder_node,
        List.count_cons, List.count_append]
      omega

theorem perm_keep_drop {α : Type} [DecidableEq α] (p : α → Bool) (f : Forest α) :
    ((f.keep p).preorder ++ (f.drop p).preorder).Perm f.preorder :=
  List.perm_iff_count.mpr fun a => by rw [List.count_append]; exact count_keep_drop p f a

theorem count_ids_keep_drop (p : Node → Bool) (f : Markup) (x : NodeId) :
    (ids (f.keep p)).count x + (ids (f.drop p)).count x = f.ids.count x := by
  rw [← List.count_append, ids, ids, ids, ← List.map_append]
  exact ((perm_keep_drop p f).map _).count_eq x

theorem opening_le (claimed : List NodeId) (span : Span) (row : Markup) (s : Supply) :
    s.Le (opening claimed span row s).2 :=
  (divide_le span.start row s).trans (divide_le span.stop _ _)

/-- An opening keeps every number and uses each new one once. -/
theorem count_ids_opening (claimed : List NodeId) (span : Span) (row : Markup) (s : Supply)
    (x : NodeId) :
    (opening claimed span row s).1.before.ids.count x +
        (opening claimed span row s).1.inside.ids.count x +
        (opening claimed span row s).1.after.ids.count x =
      row.ids.count x + s.taken (opening claimed span row s).2 x := by
  have h₁ := count_ids_divide span.start row s x
  have h₂ := count_ids_divide span.stop (divide span.start row s).right
    (divide span.start row s).supply x
  have h₃ := Supply.taken_add (divide_le span.start row s)
    (divide_le span.stop (divide span.start row s).right (divide span.start row s).supply) x
  have h₄ := count_ids_keep_drop (isClaimed claimed) (divide span.start row s).lifted x
  have h₅ := count_ids_keep_drop (isClaimed claimed)
    (divide span.stop (divide span.start row s).right (divide span.start row s).supply).lifted x
  simp only [Division.row, ids_append, List.count_append] at h₁ h₂
  simp only [opening, ids_append, List.count_append]
  omega

/-! ## Placement -/

/-- Every claimed node is there and lies within the span. -/
structure Claims (claimed : List NodeId) (span : Span) (m : Markup) : Prop where
  present : ∀ c ∈ claimed, c ∈ m.ids
  within : ∀ n ∈ m.preorder, n.id ∈ claimed →
    span.start ≤ n.span.start ∧ n.span.stop ≤ span.stop

theorem claims_nil : Claims [] span m :=
  ⟨fun _ h => absurd h (List.not_mem_nil), fun _ _ h => absurd h (List.not_mem_nil)⟩

/-- The opening of the row for an element. -/
def opened (claimed : List NodeId) (span : Span) (m : Markup) (s : Supply) : Deal × Supply :=
  opening claimed span (site claimed span m).row s

/-- Claimed nodes outside the row that is opened. -/
def strays (claimed : List NodeId) (span : Span) (m : Markup) : List NodeId :=
  claimed.filter fun c => c ∉ ids (site claimed span m).row

/-- The placement with `inside` below the new element. -/
def placed (e : Element) (claimed : List NodeId) (m : Markup) (s : Supply) (inside : Growth) :
    Placement :=
  let o := opened claimed e.span m s
  { markup := (site claimed e.span m).plug
      (o.1.before ++ .node ⟨e, o.2.next⟩ inside.markup o.1.after)
    supply := inside.supply
    id := o.2.next
    strays := strays claimed e.span m }

/-- An existing element crosses the new one in the row that is opened. -/
def crossing? (claimed : List NodeId) (span : Span) (m : Markup) : Option Node :=
  firstCrossing claimed span (site claimed span m).row

theorem place_of_row (e : Element) (claimed : List NodeId) (balancing : Balancing)
    (fill : Markup → Supply → Except MergeConflict Growth) (m : Markup) (s : Supply) :
    m.place e claimed balancing fill s =
      (placeInRow e claimed balancing fill (site claimed e.span m).row s).map fun p =>
        { p with markup := (site claimed e.span m).plug p.markup } := by
  unfold place
  dsimp only
  split
  · next conflict hrow =>
    change placeInRow e claimed balancing fill (site claimed e.span m).row s = _ at hrow
    rw [hrow]
    rfl
  · next p hrow =>
    change placeInRow e claimed balancing fill (site claimed e.span m).row s = _ at hrow
    rw [hrow]
    rfl

theorem place_strict_of_crossing (h : crossing? claimed e.span m = some n) :
    m.place e claimed .strict fill s = .error ⟨e.name, e.span, .crossing n.name n.span⟩ := by
  have hrow : firstCrossing claimed e.span (site claimed e.span m).row = some n := h
  have hplace : placeInRow e claimed .strict fill (site claimed e.span m).row s =
      .error ⟨e.name, e.span, .crossing n.name n.span⟩ := by
    unfold placeInRow
    rw [hrow]
  rw [place_of_row, hplace]
  rfl

/-- The scan of the row that the search finds opens it. -/
theorem scan_eq (h : Nests lo hi m) (hlo : lo ≤ span.start) (hab : span.start ≤ span.stop)
    (hhi : span.stop ≤ hi) (hclaims : Claims claimed span m) (hfresh : ∀ c ∈ claimed, c < s.next) :
    (deal claimed span false (cutCrossing claimed span (site claimed span m).row s).markup,
      (cutCrossing claimed span (site claimed span m).row s).supply) = opened claimed span m s := by
  obtain ⟨lo', hi', hlo', hhi', hrow, hplug⟩ := h.focus claimed hlo hab hhi
  exact deal_cutCrossing claimed s hab hrow
    (fun a ha hac => admits_of_not_enters (Forest.focus_row_not_entered _ m a ha) hac)
    (fun a ha => hclaims.within a (mem_row_of_site (Forest.labels_subset_preorder ha))) hfresh

/-- A row that nothing crosses is opened without a cut. -/
theorem opened_supply (h : Nests lo hi m) (hlo : lo ≤ span.start) (hab : span.start ≤ span.stop)
    (hhi : span.stop ≤ hi) (hclaims : Claims claimed span m) (hfresh : ∀ c ∈ claimed, c < s.next)
    (hnone : crossing? claimed span m = none) : (opened claimed span m s).2 = s := by
  rw [← scan_eq h hlo hab hhi hclaims hfresh]
  exact congrArg Growth.supply (cutCrossing_of_firstCrossing hnone)

/-- A row that something crosses is cut. -/
theorem opened_lt (h : Nests lo hi m) (hlo : lo ≤ span.start) (hab : span.start ≤ span.stop)
    (hhi : span.stop ≤ hi) (hclaims : Claims claimed span m) (hfresh : ∀ c ∈ claimed, c < s.next)
    (hsome : crossing? claimed span m = some n) : s.next < (opened claimed span m s).2.next := by
  rw [← scan_eq h hlo hab hhi hclaims hfresh]
  exact cutCrossing_lt hsome

/-- The search and the scan come down to the focus and the opening. -/
theorem place_eq (h : Nests lo hi m) (hlo : lo ≤ e.span.start)
    (hab : e.span.start ≤ e.span.stop) (hhi : e.span.stop ≤ hi) (hclaims : Claims claimed e.span m)
    (hfresh : ∀ c ∈ claimed, c < s.next)
    (hstrict : balancing = .strict → crossing? claimed e.span m = none) :
    m.place e claimed balancing fill s =
      (fill (opened claimed e.span m s).1.inside (opened claimed e.span m s).2.take).map
        (placed e claimed m s) := by
  have hdeal := scan_eq h hlo hab hhi hclaims hfresh
  obtain ⟨hd, hs⟩ := Prod.ext_iff.mp hdeal
  have hplace : placeInRow e claimed balancing fill (site claimed e.span m).row s =
      (fill (opened claimed e.span m s).1.inside (opened claimed e.span m s).2.take).map
        fun inside =>
          { markup := (opened claimed e.span m s).1.before ++
              .node ⟨e, (opened claimed e.span m s).2.next⟩ inside.markup
                (opened claimed e.span m s).1.after
            supply := inside.supply
            id := (opened claimed e.span m s).2.next
            strays := strays claimed e.span m } := by
    rw [← hd, ← hs]
    unfold placeInRow
    split
    · next n hcross =>
      have hnone : firstCrossing claimed e.span (site claimed e.span m).row = none := hstrict rfl
      rw [hnone] at hcross
      cases hcross
    · dsimp only
      split
      · next conflict hfill =>
        rw [hfill]
        rfl
      · next inside hfill =>
        rw [hfill, Element.rebuilt_eq]
        rfl
  rw [place_of_row, hplace]
  cases fill (opened claimed e.span m s).1.inside (opened claimed e.span m s).2.take with
  | error conflict => rfl
  | ok inside => rfl

end Markup

end Standoff
