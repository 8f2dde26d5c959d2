import Standoff.Proofs.Growth

/-! # Paths through mark-up

The path at a character leads from the outermost element over it to the innermost one.  Placements
cut elements, put others around them and move markers, but of the elements that were there they
leave every path as it was: only the halves of a cut share what was one element.

* `Markup.pathAt`: the path at a character.
* `Markup.trail`: where the nodes of a path come from, with their names and attributes.
* `Markup.Preserves`: every trail and every marker is as before, the invariant of all that follows.
* `Markup.preserves_mergeRow`, `Markup.Insertable.preserves`: merges and insertions. -/

namespace Standoff

namespace Markup

/-! ## Paths -/

/-- The node covers the character at `i`. -/
def covers (i : Nat) (n : Node) : Bool := decide (n.span.start ≤ i) && decide (i < n.span.stop)

/-- The nodes over a character, the outermost first. -/
def pathAt (i : Nat) : Markup → List Node
  | .nil => []
  | .node n kids rest => if covers i n then n :: pathAt i kids else pathAt i rest

/-- A name and attributes, and the node that they come from. -/
abbrev Mark := NodeId × String × Attributes

/-- What a node shows if `ρ` tells where its number comes from. -/
def mark? (ρ : NodeId → Option NodeId) (n : Node) : Option Mark :=
  (ρ n.id).map fun source => (source, n.name, n.attributes)

/-- What the nodes over a character show, in document order. -/
def trail (ρ : NodeId → Option NodeId) (i : Nat) (m : Markup) : List Mark :=
  (m.preorder.filter (covers i)).filterMap (mark? ρ)

variable {ρ σ : NodeId → Option NodeId} {i lo hi pos : Nat} {m f g row kids rest m' : Markup}
  {n : Node} {s t : Supply} {e : Element} {claimed : List NodeId} {balancing : Balancing}

theorem covers_iff : covers i n = true ↔ n.span.start ≤ i ∧ i < n.span.stop := by
  simp [covers]

theorem covers_eq_false (h : i < n.span.start ∨ n.span.stop ≤ i) : covers i n = false := by
  cases hc : covers i n with
  | false => rfl
  | true =>
    have := covers_iff.mp hc
    omega

@[simp] theorem trail_nil : trail ρ i .nil = [] := rfl

@[simp] theorem trail_append : trail ρ i (f ++ g) = trail ρ i f ++ trail ρ i g := by
  simp [trail]

theorem trail_node : trail ρ i (.node n kids rest) =
    (if covers i n then (mark? ρ n).toList else []) ++ (trail ρ i kids ++ trail ρ i rest) := by
  rw [trail, Forest.preorder_node, List.filter_cons, List.filter_append]
  split
  · rw [List.filterMap_cons, List.filterMap_append]
    cases mark? ρ n <;> rfl
  · rw [List.filterMap_append]
    rfl

/-- A row that does not reach a character has no node over it. -/
theorem Nests.filter_covers (h : Nests lo hi m) (hi' : i < lo ∨ hi ≤ i) :
    m.preorder.filter (covers i) = [] := by
  refine List.filter_eq_nil_iff.mpr fun n hn hc => ?_
  have hbounds := h.bounds hn
  have := covers_iff.mp hc
  omega

theorem Nests.trail_eq_nil (h : Nests lo hi m) (hi' : i < lo ∨ hi ≤ i) : trail ρ i m = [] := by
  rw [trail, h.filter_covers hi']
  rfl

/-- Markers do not cover anything. -/
theorem Nests.trail_marker (h : Nests pos pos m) : trail ρ i m = [] :=
  h.trail_eq_nil (Nat.lt_or_ge i pos)

/-- The nodes over a character stand on one path. -/
theorem Nests.pathAt_eq (h : Nests lo hi m) (i : Nat) :
    m.pathAt i = m.preorder.filter (covers i) := by
  induction m generalizing lo hi with
  | nil => rfl
  | node n kids rest ihk ihr =>
    obtain ⟨-, hkids, hrest⟩ := h
    rw [pathAt, Forest.preorder_node, List.filter_cons, List.filter_append, ihk hkids, ihr hrest]
    cases hc : covers i n with
    | true =>
      have hin := covers_iff.mp hc
      rw [hrest.filter_covers (.inl hin.2), List.append_nil]
      rfl
    | false =>
      have hout : i < n.span.start ∨ n.span.stop ≤ i := by
        rcases Nat.lt_or_ge i n.span.start with hlt | hge
        · exact .inl hlt
        · refine .inr (Nat.le_of_not_lt fun hlt => ?_)
          rw [covers_iff.mpr ⟨hge, hlt⟩] at hc
          cases hc
      rw [hkids.filter_covers hout]
      rfl

/-- Only the sources of the numbers count. -/
theorem trail_congr (h : ∀ x ∈ m.ids, ρ x = σ x) (i : Nat) : trail ρ i m = trail σ i m := by
  refine List.filterMap_congr fun n hn => ?_
  rw [mark?, mark?, h n.id (id_mem_ids (List.mem_filter.mp hn).1)]

/-! ## Trails through divisions -/

/-- The halves of a node cover what it covers on their sides. -/
theorem covers_leftHalf (hpos : pos < n.span.stop) (h : i < pos) :
    covers i (n.leftHalf pos) = covers i n := by
  rw [Bool.eq_iff_iff, covers_iff, covers_iff]
  show _ ∧ i < pos ↔ _
  exact and_congr_right fun _ => iff_of_true h (Nat.lt_trans h hpos)

theorem covers_rightHalf {x : NodeId} (hpos : n.span.start < pos) (h : pos ≤ i) :
    covers i (n.rightHalf pos x) = covers i n := by
  rw [Bool.eq_iff_iff, covers_iff, covers_iff]
  show pos ≤ i ∧ _ ↔ _
  exact and_congr_left fun _ => iff_of_true h (Nat.le_trans (Nat.le_of_lt hpos) h)

/-- A division leaves the trails of the characters on its two sides. -/
theorem trail_divide (h : Nests lo hi m)
    (hρ : ∀ c ∈ (divide pos m s).supply.cuts, ρ c.right = ρ c.left) (i : Nat) :
    (i < pos → trail ρ i (divide pos m s).left = trail ρ i m) ∧
      (pos ≤ i → trail ρ i (divide pos m s).right = trail ρ i m) := by
  induction m generalizing lo hi s with
  | nil => exact ⟨fun _ => rfl, fun _ => rfl⟩
  | node n kids rest ihk ihr =>
    obtain ⟨-, hkids, hrest⟩ := h
    have hord := hkids.le
    rcases n.span.lies pos with hn | hn | hn | hn
    · rw [divide_cut hn] at hρ ⊢
      have hinner : ∀ c ∈ (divide pos kids (s.cut n pos)).supply.cuts, ρ c.right = ρ c.left :=
        fun c hc => hρ c ((divide_le _ _ _).subset hc)
      have hhalf : ρ s.next = ρ n.id :=
        hinner _ ((divide_le pos kids (s.cut n pos)).subset (List.mem_cons_self ..))
      obtain ⟨hk₁, hk₂⟩ := ihk hkids hinner
      obtain ⟨hr₁, hr₂⟩ := ihr hrest hρ
      constructor
      · intro hlt
        rw [trail_node, trail_node, covers_leftHalf hn.2 hlt, hk₁ hlt, hr₁ hlt]
        rfl
      · intro hge
        have hmark : mark? ρ (n.rightHalf pos s.next) = mark? ρ n := by
          show (ρ s.next).map _ = (ρ n.id).map _
          rw [hhalf]
          rfl
        rw [trail_node, trail_node, covers_rightHalf hn.1 hge, hmark, hk₂ hge, hr₂ hge]
    · rw [divide_marker hn] at hρ ⊢
      have hnone : trail ρ i (.node n kids rest) = trail ρ i rest := by
        rw [trail_node, covers_eq_false (by omega), hkids.trail_eq_nil (by omega)]
        rfl
      rw [hnone]
      exact ihr hrest hρ
    · rw [divide_right hn] at hρ ⊢
      obtain ⟨hr₁, hr₂⟩ := ihr hrest hρ
      refine ⟨fun hlt => ?_, fun hge => ?_⟩
      · rw [trail_node, covers_eq_false (by omega), hkids.trail_eq_nil (by omega), hr₁ hlt]
        rfl
      · rw [trail_node, trail_node, hr₂ hge]
    · rw [divide_left hn] at hρ ⊢
      obtain ⟨hr₁, hr₂⟩ := ihr hrest hρ
      refine ⟨fun hlt => ?_, fun hge => ?_⟩
      · rw [trail_node, trail_node, hr₁ hlt]
      · rw [trail_node, covers_eq_false (by omega), hkids.trail_eq_nil (by omega), hr₂ hge]
        rfl

/-- The parts of a division have the trails of the row together. -/
theorem trail_parts (h : Nests lo hi m) (hlo : lo ≤ pos) (hhi : pos ≤ hi)
    (hρ : ∀ c ∈ (divide pos m s).supply.cuts, ρ c.right = ρ c.left) (i : Nat) :
    trail ρ i (divide pos m s).left ++ trail ρ i (divide pos m s).right = trail ρ i m := by
  obtain ⟨hleft, -, hright⟩ := h.divide hlo hhi s
  obtain ⟨h₁, h₂⟩ := trail_divide h hρ i
  rcases Nat.lt_or_ge i pos with hlt | hge
  · rw [hright.trail_eq_nil (.inl hlt), List.append_nil, h₁ hlt]
  · rw [hleft.trail_eq_nil (.inr hge), List.nil_append, h₂ hge]

/-- A division keeps every marker once. -/
theorem count_marker_divide {a : Node} (ha : a.span.stop ≤ a.span.start) (pos : Nat) (m : Markup)
    (s : Supply) :
    (divide pos m s).left.preorder.count a + (divide pos m s).lifted.preorder.count a +
      (divide pos m s).right.preorder.count a = m.preorder.count a := by
  induction m generalizing s with
  | nil => rfl
  | node n kids rest ihk ihr =>
    rcases n.span.lies pos with hn | hn | hn | hn
    · have hk := ihk (s.cut n pos)
      have hr := ihr (divide pos kids (s.cut n pos)).supply
      have h₁ : n ≠ a := by
        rintro rfl
        omega
      have h₂ : n.leftHalf pos ≠ a := by
        rintro rfl
        exact Nat.not_le.mpr hn.1 ha
      have h₃ : n.rightHalf pos s.next ≠ a := by
        rintro rfl
        exact Nat.not_le.mpr hn.2 ha
      rw [divide_cut hn]
      simp only [Forest.preorder_node, Forest.preorder_append, List.count_append,
        List.count_cons_of_ne h₁, List.count_cons_of_ne h₂, List.count_cons_of_ne h₃]
      omega
    · have hr := ihr s
      rw [divide_marker hn]
      simp only [Forest.preorder_node, List.count_cons, List.count_append]
      omega
    · have hr := ihr s
      rw [divide_right hn]
      simp only [Forest.preorder_node, List.count_cons, List.count_append]
      omega
    · have hr := ihr s
      rw [divide_left hn]
      simp only [Forest.preorder_node, List.count_cons, List.count_append]
      omega

/-! ## What is kept -/

/-- The trails are the same, and every marker with a source is there as often. -/
structure Preserves (ρ : NodeId → Option NodeId) (m m' : Markup) : Prop where
  trail : ∀ i, m'.trail ρ i = m.trail ρ i
  marker : ∀ a : Node, a.span.stop ≤ a.span.start → ρ a.id ≠ none →
    m'.preorder.count a = m.preorder.count a

theorem Preserves.refl (ρ : NodeId → Option NodeId) (m : Markup) : Preserves ρ m m :=
  ⟨fun _ => rfl, fun _ _ _ => rfl⟩

theorem Preserves.trans {m'' : Markup} (h : Preserves ρ m m') (h' : Preserves ρ m' m'') : Preserves ρ m m'' :=
  ⟨fun i => (h'.trail i).trans (h.trail i), fun a ha hρ => (h'.marker a ha hρ).trans (h.marker a ha hρ)⟩

/-- Only the sources of numbers that are there count. -/
theorem Preserves.congr (h : Preserves ρ m m') (hρ : ∀ x, x ∈ m.ids ∨ x ∈ m'.ids → ρ x = σ x) :
    Preserves σ m m' where
  trail i := by
    rw [← trail_congr fun x hx => hρ x (.inl hx), ← trail_congr fun x hx => hρ x (.inr hx)]
    exact h.trail i
  marker a ha hσ := by
    by_cases hmem : a.id ∈ m.ids ∨ a.id ∈ m'.ids
    · exact h.marker a ha (by rwa [hρ a.id hmem])
    · have hm : a ∉ m.preorder := fun ha => hmem (.inl (id_mem_ids ha))
      have hm' : a ∉ m'.preorder := fun ha => hmem (.inr (id_mem_ids ha))
      rw [List.count_eq_zero_of_not_mem hm, List.count_eq_zero_of_not_mem hm']

/-- Both halves of a cut have one source, and other nodes made between two supplies have none. -/
structure Sources (ρ : NodeId → Option NodeId) (s t : Supply) : Prop where
  settled : s.Settled
  cut : ∀ c ∈ t.cuts, ρ c.right = ρ c.left
  plain : ∀ x, s.Plain t x → ρ x = none

theorem Sources.between {s' t' : Supply} (h : Sources ρ s t) (hs : s.Le s') (ht : t'.Le t) :
    Sources ρ s' t' where
  settled := hs.settled h.settled
  cut c hc := h.cut c (ht.subset hc)
  plain x hx := h.plain x (hx.widen hs ht)

/-! ## Openings and placements -/

theorem trail_opening {span : Span} (h : Nests lo hi row) (hlo : lo ≤ span.start)
    (hab : span.start ≤ span.stop) (hhi : span.stop ≤ hi)
    (hρ : ∀ c ∈ (opening claimed span row s).2.cuts, ρ c.right = ρ c.left) (i : Nat) :
    trail ρ i (opening claimed span row s).1.before ++
      (trail ρ i (opening claimed span row s).1.inside ++
        trail ρ i (opening claimed span row s).1.after) = trail ρ i row := by
  have hle := divide_le span.stop (divide span.start row s).right (divide span.start row s).supply
  obtain ⟨-, hlifted, hright⟩ := h.divide hlo (Nat.le_trans hab hhi) s
  obtain ⟨-, hlifted', -⟩ := hright.divide hab hhi (divide span.start row s).supply
  have hfirst := trail_parts h hlo (Nat.le_trans hab hhi) (fun c hc => hρ c (hle.subset hc)) i
  have hsecond := trail_parts hright hab hhi hρ i
  have hmarkers (p : Node → Bool) := (hlifted.keep p).trail_marker (ρ := ρ) (i := i)
  have hmarkers' (p : Node → Bool) := (hlifted'.keep p).trail_marker (ρ := ρ) (i := i)
  simp only [opening, Forest.drop, trail_append, hmarkers, hmarkers', List.append_nil,
    List.nil_append]
  rw [hsecond, hfirst]

theorem count_marker_opening {a : Node} (ha : a.span.stop ≤ a.span.start)
    (claimed : List NodeId) (span : Span) (row : Markup) (s : Supply) :
    (opening claimed span row s).1.before.preorder.count a +
        (opening claimed span row s).1.inside.preorder.count a +
        (opening claimed span row s).1.after.preorder.count a = row.preorder.count a := by
  have h₁ := count_marker_divide ha span.start row s
  have h₂ := count_marker_divide ha span.stop (divide span.start row s).right
    (divide span.start row s).supply
  have h₃ := count_keep_drop (isClaimed claimed) (divide span.start row s).lifted a
  have h₄ := count_keep_drop (isClaimed claimed)
    (divide span.stop (divide span.start row s).right (divide span.start row s).supply).lifted a
  simp only [opening, Forest.preorder_append, List.count_append]
  omega

/-- Around the focussed row trails do not change. -/
theorem trail_plug {span : Span} (h : trail ρ i g = trail ρ i (site claimed span m).row) :
    trail ρ i ((site claimed span m).plug g) = trail ρ i m := by
  obtain ⟨before, after, hplug⟩ := Forest.preorder_plug (enters claimed span) m
  have heq (r : Markup) : trail ρ i ((site claimed span m).plug r) =
      (before.filter (covers i)).filterMap (mark? ρ) ++ trail ρ i r ++
        (after.filter (covers i)).filterMap (mark? ρ) := by
    rw [trail, site, hplug, List.filter_append, List.filter_append, List.filterMap_append,
      List.filterMap_append]
    rfl
  rw [heq, h, ← heq, plug_site]

/-- The row of a placement has the trails that it had before, apart from what is filled in. -/
theorem trail_newRow (hm : Nests lo hi m) (hlo : lo ≤ e.span.start)
    (hab : e.span.start ≤ e.span.stop) (hhi : e.span.stop ≤ hi)
    (hρ : ∀ c ∈ (opened claimed e.span m s).2.cuts, ρ c.right = ρ c.left)
    (hnew : ρ (opened claimed e.span m s).2.next = none)
    (hkids : trail ρ i kids = trail ρ i (opened claimed e.span m s).1.inside) :
    trail ρ i (newRow e claimed m s kids) = trail ρ i (site claimed e.span m).row := by
  obtain ⟨lo', hi', hlo', hhi', hrow, -⟩ := hm.focus claimed hlo hab hhi
  have hmark : mark? ρ ⟨e, (opened claimed e.span m s).2.next⟩ = none := by
    rw [mark?, hnew]
    rfl
  rw [← trail_opening hrow hlo' hab hhi' hρ i, newRow, trail_append, trail_node, hmark, hkids,
    Option.toList_none, ite_self, List.nil_append]
  rfl

/-- A placement keeps all trails and markers if what fills the new element does. -/
theorem preserves_placed (inside : Growth) (hm : Nests lo hi m) (hlo : lo ≤ e.span.start)
    (hab : e.span.start ≤ e.span.stop) (hhi : e.span.stop ≤ hi)
    (hρ : ∀ c ∈ (opened claimed e.span m s).2.cuts, ρ c.right = ρ c.left)
    (hnew : ρ (opened claimed e.span m s).2.next = none)
    (hinside : Preserves ρ (opened claimed e.span m s).1.inside inside.markup) :
    Preserves ρ m (placed e claimed m s inside).markup := by
  refine ⟨fun i => ?_, fun a ha hsource => ?_⟩
  · rw [placed_markup]
    exact trail_plug (trail_newRow hm hlo hab hhi hρ hnew (hinside.trail i))
  · have hne : (⟨e, (opened claimed e.span m s).2.next⟩ : Node) ≠ a := by
      rintro rfl
      exact hsource hnew
    have hplug : ((site claimed e.span m).plug (newRow e claimed m s inside.markup)).preorder.count
        a + _ = _ := count_plug m (newRow e claimed m s inside.markup) a
    have hopen := count_marker_opening ha claimed e.span (site claimed e.span m).row s
    have hin := hinside.marker a ha hsource
    rw [placed_markup]
    simp only [newRow, Forest.preorder_append, Forest.preorder_node, List.count_append,
      List.count_cons_of_ne hne] at hplug ⊢
    simp only [opened] at hplug hin ⊢
    omega

/-! ## Merges -/

/-- A merge keeps all trails and markers. -/
theorem preserves_mergeRow {fs : Forest Element} {g : Growth} (hm : Nests lo hi m)
    (hfs : misfit? ⟨lo, hi⟩ fs = none) (h : mergeRow balancing fs m s = .ok g)
    (hsources : Sources ρ s g.supply) : Preserves ρ m g.markup := by
  induction fs generalizing lo hi m s g with
  | nil =>
    cases h
    exact .refl ρ m
  | node f kids rest ihk ihr =>
    obtain ⟨⟨hord, hlo, hhi⟩, hkids, hrest⟩ := misfit?_eq_none hfs
    obtain ⟨p, hp, hg⟩ := mergeRow_node h
    obtain ⟨inside, hin, rfl⟩ := place_ok hm hlo hord hhi claims_nil
      (fun c hc => absurd hc List.not_mem_nil) hp
    obtain ⟨lo', hi', hlo', hhi', hrow, -⟩ := hm.focus [] hlo hord hhi
    have hnest := (hrow.opening hlo' hord hhi' [] s).2.1
    -- the supplies, one after another
    have hopen : s.Le (opened [] f.span m s).2 := opening_le _ _ _ _
    have htake := (opened [] f.span m s).2.le_take
    have hinside := grows_mergeRow hnest hkids hin
    have hplaced := grows_placed hm hlo hord hhi hinside
    have hlast := (grows_mergeRow hplaced.nests hrest hg).le
    have hfirst := hsources.between (.refl s) (htake.trans (hinside.le.trans hlast))
    have hnew := hsources.plain _
      (Supply.plain_next hsources.settled hopen (hinside.le.trans hlast))
    exact (preserves_placed inside hm hlo hord hhi hfirst.cut hnew
      (ihk hnest hkids hin (hsources.between (hopen.trans htake) hlast))).trans
      (ihr hplaced.nests hrest hg (hsources.between hplaced.le (.refl _)))

/-! ## Insertions -/

/-- Markers can be taken out with all below them. -/
theorem trail_prune (h : Nests lo hi m) {p : Node → Bool}
    (hp : ∀ n ∈ m.preorder, p n = true → n.span.stop ≤ n.span.start) (i : Nat) :
    trail ρ i (m.prune p) = trail ρ i m := by
  induction m generalizing lo hi with
  | nil => rfl
  | node n kids rest ihk ihr =>
    obtain ⟨-, hkids, hrest⟩ := h
    simp only [Forest.preorder_node, List.mem_cons, List.mem_append] at hp
    have hr := ihr hrest fun x hx => hp x (.inr (.inr hx))
    rw [Forest.prune]
    split
    · next hn =>
      have hempty := hp n (.inl rfl) hn
      rw [trail_node, covers_eq_false (by omega), hkids.trail_eq_nil (by omega), hr]
      rfl
    · rw [trail_node, trail_node, hr, ihk hkids fun x hx => hp x (.inr (.inl hx))]

namespace Insertable

variable (h : Insertable lo hi claimed e m s)
include h

theorem trail_without_strays (i : Nat) :
    trail ρ i (m.without (strays claimed e.span m)) = trail ρ i m := by
  refine trail_prune h.nests (fun n hn hstray => ?_) i
  obtain ⟨t, ht, -, hspan, -⟩ := h.stray (of_decide_eq_true hstray)
  obtain ⟨hid, hmem⟩ := node?_spec ht
  have hlabel : n = t.label :=
    eq_of_id h.nodup hn (hmem t.label (List.mem_cons_self ..)) hid.symm
  rw [hlabel]
  rcases hspan with hspan | hspan <;> rw [hspan] <;> exact Nat.le_refl _

theorem trail_brood (i : Nat) :
    trail ρ i (brood claimed e.span m (opened claimed e.span m s).1.inside) =
      trail ρ i (opened claimed e.span m s).1.inside := by
  have hin := h.nests_inside
  have hkeep := (nests_keep_markerAt (a := e.span.start) hin).trail_marker (ρ := ρ) (i := i)
  rw [brood, trail_append, trail_append, trail_append, (h.nests_fetched _).trail_marker,
    (h.nests_fetched _).trail_marker, hkeep, List.append_nil]
  conv => rhs; rw [← keep_append_drop_markerAt hin]
  rw [trail_append, hkeep]
  rfl

/-- An insertion keeps all trails and markers. -/
theorem preserves (hsources : Sources ρ s (opened claimed e.span m s).2.take) :
    Preserves ρ m
      ((placed e claimed m s ⟨(opened claimed e.span m s).1.inside,
          (opened claimed e.span m s).2.take⟩).markup.gather
        (opened claimed e.span m s).2.next (strays claimed e.span m)) := by
  have hopen : s.Le (opened claimed e.span m s).2 := opening_le _ _ _ _
  have hρ := (hsources.between (.refl s) (Supply.le_take _)).cut
  have hnew := hsources.plain _ (Supply.plain_next hsources.settled hopen (.refl _))
  have hplaced := preserves_placed ⟨(opened claimed e.span m s).1.inside,
    (opened claimed e.span m s).2.take⟩ h.nests h.lo_le h.ordered h.le_hi hρ hnew (.refl ρ _)
  refine ⟨fun i => ?_, fun a ha hsource => ?_⟩
  · have hrow := trail_newRow h.nests h.lo_le h.ordered h.le_hi hρ hnew (h.trail_brood i)
    rw [← row_without] at hrow
    rw [gather_placed h, trail_plug hrow, h.trail_without_strays]
  · rw [(h.perm_gather _).count_eq]
    exact hplaced.marker a ha hsource

end Insertable

end Markup

end Standoff
