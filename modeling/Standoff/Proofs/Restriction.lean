import Standoff.Proofs.Sessions

/-! # What a merge embeds

A merge puts every element of a tree among existing mark-up, cuts what crosses it, and goes on
with the children inside.  If the siblings of the tree follow one another, nothing that the merge
made is cut or moved again: with the other nodes spliced out, what is left is the tree.

* `Forest.restrict`: a forest with some nodes spliced out.
* `Markup.Past`: the selected nodes lie to the left of a position, so that it can be opened
  without a change to them; the invariant from one sibling to the next.
* `Markup.selected_mergeRow`: a row of trees that is merged appears behind what was there.
* `Document.WellFormed.merge_embeds`: the merge of a tree into a document. -/

namespace Standoff

namespace Forest

variable {α β : Type}

/-- The forest of the labels that pass `p`; what lies below the others takes their places. -/
def restrict (p : α → Bool) : Forest α → Forest α
  | nil => nil
  | node a kids rest =>
    if p a then node a (kids.restrict p) (rest.restrict p)
    else kids.restrict p ++ rest.restrict p

theorem restrict_node_pos {p : α → Bool} {a : α} (h : p a = true) (kids rest : Forest α) :
    (node a kids rest).restrict p = node a (kids.restrict p) (rest.restrict p) := if_pos h

theorem restrict_node_neg {p : α → Bool} {a : α} (h : p a = false) (kids rest : Forest α) :
    (node a kids rest).restrict p = kids.restrict p ++ rest.restrict p := by
  rw [restrict, h]
  rfl

@[simp] theorem restrict_append (p : α → Bool) (f g : Forest α) :
    (f ++ g).restrict p = f.restrict p ++ g.restrict p := by
  induction f with
  | nil => rfl
  | node a kids rest _ ih =>
    rw [node_append]
    cases h : p a with
    | true => rw [restrict_node_pos h, restrict_node_pos h, ih, node_append]
    | false => rw [restrict_node_neg h, restrict_node_neg h, ih, append_assoc]

theorem restrict_of_none {p : α → Bool} {f : Forest α} (h : ∀ a ∈ f.preorder, p a = false) :
    f.restrict p = nil := by
  induction f with
  | nil => rfl
  | node a kids rest ihk ihr =>
    simp only [preorder_node, List.mem_cons, List.mem_append] at h
    rw [restrict_node_neg (h a (.inl rfl)), ihk fun b hb => h b (.inr (.inl hb)),
      ihr fun b hb => h b (.inr (.inr hb))]
    rfl

end Forest

/-! ## The left side of a position -/

namespace Markup

/-- The nodes with selected numbers; what lies below the others takes their places. -/
def selected (p : NodeId → Bool) (m : Markup) : Markup := m.restrict fun n => p n.id

/-- No number is selected. -/
def Free (p : NodeId → Bool) (m : Markup) : Prop := ∀ x ∈ m.ids, p x = false

/-- A division at `pos` leaves every selected node whole, and none of them goes to the right. -/
def Past (p : NodeId → Bool) (pos : Nat) : Markup → Prop
  | .nil => True
  | .node n kids rest =>
    (pos < n.span.stop → p n.id = false ∧ (n.span.start < pos → Past p pos kids) ∧
      (pos ≤ n.span.start → Free p kids)) ∧
    Past p pos rest

variable {p : NodeId → Bool} {lo hi pos : Nat} {m f g kids rest : Markup} {n : Node} {s t u : Supply}
  {e : Element} {balancing : Balancing}

@[simp] theorem selected_nil : selected p .nil = .nil := rfl

@[simp] theorem selected_append : (f ++ g).selected p = f.selected p ++ g.selected p :=
  Forest.restrict_append _ f g

theorem selected_node_pos (h : p n.id = true) :
    selected p (.node n kids rest) = .node n (kids.selected p) (rest.selected p) :=
  Forest.restrict_node_pos (p := fun n : Node => p n.id) h kids rest

theorem selected_node_neg (h : p n.id = false) :
    selected p (.node n kids rest) = kids.selected p ++ rest.selected p :=
  Forest.restrict_node_neg (p := fun n : Node => p n.id) h kids rest

theorem free_nil : Free p .nil := fun _ hx => absurd hx List.not_mem_nil

theorem free_node : Free p (.node n kids rest) ↔ p n.id = false ∧ Free p kids ∧ Free p rest := by
  simp [Free, or_imp, forall_and]

theorem free_append : Free p (f ++ g) ↔ Free p f ∧ Free p g := by
  simp [Free, or_imp, forall_and]

theorem Free.selected_eq_nil (h : Free p m) : m.selected p = .nil :=
  Forest.restrict_of_none fun _ hn => h _ (id_mem_ids hn)

theorem Free.past (h : Free p m) (pos : Nat) : Past p pos m := by
  induction m with
  | nil => trivial
  | node n kids rest ihk ihr =>
    obtain ⟨hn, hkids, hrest⟩ := free_node.mp h
    exact ⟨fun _ => ⟨hn, fun _ => ihk hkids, fun _ => hkids⟩, ihr hrest⟩

theorem past_append : Past p pos (f ++ g) ↔ Past p pos f ∧ Past p pos g := by
  induction f with
  | nil => exact (and_iff_right trivial).symm
  | node n kids rest _ ih =>
    rw [Forest.node_append, Past, Past, ih, and_assoc]

/-- Rows that end at the position hold nothing that a division would cut. -/
theorem past_of_le (h : ∀ n ∈ m.labels, n.span.stop ≤ pos) : Past p pos m := by
  induction m with
  | nil => trivial
  | node n kids rest _ ih =>
    obtain ⟨hn, hrest⟩ := List.forall_mem_cons.mp h
    exact ⟨fun hlt => absurd hlt (Nat.not_lt.mpr hn), ih hrest⟩

/-- What lies behind the position has no selected node. -/
theorem Past.free (h : Past p pos m) (hm : Nests lo hi m) (hlt : pos < lo) : Free p m := by
  induction m generalizing lo with
  | nil => exact free_nil
  | node n kids rest _ ih =>
    obtain ⟨hlo, hkids, hrest⟩ := hm
    have hord := hkids.le
    obtain ⟨hn, -, hfree⟩ := h.1 (by omega)
    exact free_node.mpr ⟨hn, hfree (by omega), ih h.2 hrest (by omega)⟩

/-- A later position is passed as well. -/
theorem Past.mono {pos' : Nat} (h : Past p pos m) (hle : pos ≤ pos') : Past p pos' m := by
  induction m with
  | nil => trivial
  | node n kids rest ihk ihr =>
    refine ⟨fun hlt => ?_, ihr h.2⟩
    obtain ⟨hn, hcut, hfree⟩ := h.1 (by omega)
    refine ⟨hn, fun _ => ?_, fun hstart => hfree (by omega)⟩
    rcases Nat.lt_or_ge n.span.start pos with hlt' | hge
    · exact ihk (hcut hlt')
    · exact (hfree hge).past pos'

/-! ## Divisions and openings -/

/-- Of the numbers that were taken between two supplies, all are selected but those of right
halves. -/
structure Selects (p : NodeId → Bool) (s t : Supply) : Prop where
  settled : s.Settled
  right : ∀ c ∈ t.cuts, p c.right = false
  plain : ∀ x, s.Plain t x → p x = true

theorem Selects.between {s' t' : Supply} (h : Selects p s t) (hs : s.Le s') (ht : t'.Le t) :
    Selects p s' t' where
  settled := hs.settled h.settled
  right c hc := h.right c (ht.subset hc)
  plain x hx := h.plain x (hx.widen hs ht)

/-- A division of mark-up without selected nodes makes none. -/
theorem Free.divide (h : Free p m)
    (hright : ∀ c ∈ (divide pos m s).supply.cuts, p c.right = false) :
    Free p (Markup.divide pos m s).left ∧ Free p (Markup.divide pos m s).lifted ∧
      Free p (Markup.divide pos m s).right := by
  induction m generalizing s with
  | nil => exact ⟨free_nil, free_nil, free_nil⟩
  | node n kids rest ihk ihr =>
    obtain ⟨hp, hkids, hrest⟩ := free_node.mp h
    rcases n.span.lies pos with hn | hn | hn | hn
    · rw [divide_cut hn] at hright ⊢
      have hinner : ∀ c ∈ (Markup.divide pos kids (s.cut n pos)).supply.cuts, p c.right = false :=
        fun c hc => hright c ((divide_le _ _ _).subset hc)
      have hnew : p s.next = false :=
        hinner _ ((divide_le _ _ _).subset (List.mem_cons_self ..))
      obtain ⟨hk₁, hk₂, hk₃⟩ := ihk hkids hinner
      obtain ⟨hr₁, hr₂, hr₃⟩ := ihr hrest hright
      exact ⟨free_node.mpr ⟨hp, hk₁, hr₁⟩, free_append.mpr ⟨hk₂, hr₂⟩,
        free_node.mpr ⟨hnew, hk₃, hr₃⟩⟩
    · rw [divide_marker hn] at hright ⊢
      obtain ⟨hr₁, hr₂, hr₃⟩ := ihr hrest hright
      exact ⟨hr₁, free_node.mpr ⟨hp, hkids, hr₂⟩, hr₃⟩
    · rw [divide_right hn] at hright ⊢
      obtain ⟨hr₁, hr₂, hr₃⟩ := ihr hrest hright
      exact ⟨hr₁, hr₂, free_node.mpr ⟨hp, hkids, hr₃⟩⟩
    · rw [divide_left hn] at hright ⊢
      obtain ⟨hr₁, hr₂, hr₃⟩ := ihr hrest hright
      exact ⟨free_node.mpr ⟨hp, hkids, hr₁⟩, hr₂, hr₃⟩

/-- A division keeps the selected nodes as they are on its left side. -/
theorem Past.divide (h : Past p pos m) (hm : Nests lo hi m)
    (hright : ∀ c ∈ (divide pos m s).supply.cuts, p c.right = false) :
    (divide pos m s).left.selected p ++ (divide pos m s).lifted.selected p = m.selected p ∧
      Free p (divide pos m s).right := by
  induction m generalizing lo hi s with
  | nil => exact ⟨rfl, free_nil⟩
  | node n kids rest ihk ihr =>
    obtain ⟨-, hkids, hrest⟩ := hm
    have hord := hkids.le
    rcases n.span.lies pos with hn | hn | hn | hn
    · obtain ⟨hp, hcut, -⟩ := h.1 hn.2
      have hfree := h.2.free hrest hn.2
      rw [divide_cut hn, divide_of_lt hrest hn.2] at hright ⊢
      have hnew : p s.next = false :=
        hright _ ((divide_le pos kids (s.cut n pos)).subset (List.mem_cons_self ..))
      obtain ⟨ihl, ihf⟩ := ihk (hcut hn.1) hkids hright
      refine ⟨?_, free_node.mpr ⟨hnew, ihf, hfree⟩⟩
      rw [selected_node_neg hp, selected_node_neg (n := n.leftHalf pos) hp, hfree.selected_eq_nil,
        Forest.append_nil, selected_nil, Forest.append_nil, Forest.append_nil]
      exact ihl
    · rw [divide_marker hn] at hright ⊢
      have hstop : n.span.stop = pos := by omega
      rw [hstop] at hrest
      obtain ⟨ihl, ihf⟩ := ihr h.2 hrest hright
      rw [divide_start hrest] at ihl ihf ⊢
      refine ⟨?_, ihf⟩
      rw [selected_nil, Forest.nil_append] at ihl ⊢
      show selected p (.node n kids .nil ++ _) = selected p (.node n kids .nil ++ rest)
      rw [selected_append, selected_append, ihl]
    · rw [divide_right hn] at hright ⊢
      obtain ⟨hp, -, hfree⟩ := h.1 (by omega)
      obtain ⟨ihl, ihf⟩ := ihr h.2 hrest hright
      refine ⟨?_, free_node.mpr ⟨hp, hfree hn.1, ihf⟩⟩
      rw [selected_node_neg hp, (hfree hn.1).selected_eq_nil]
      exact ihl
    · rw [divide_left hn] at hright ⊢
      obtain ⟨ihl, ihf⟩ := ihr h.2 hrest hright
      refine ⟨?_, ihf⟩
      show selected p (.node n kids .nil ++ _) ++ _ = selected p (.node n kids .nil ++ rest)
      rw [selected_append, selected_append, Forest.append_assoc, ihl]

/-- A division cuts no selected node. -/
theorem Past.divide_cuts (h : Past p pos m) (hm : Nests lo hi m)
    (hs : ∀ c ∈ s.cuts, p c.left = false) :
    ∀ c ∈ (Markup.divide pos m s).supply.cuts, p c.left = false := by
  induction m generalizing lo hi s with
  | nil => exact hs
  | node n kids rest ihk ihr =>
    obtain ⟨-, hkids, hrest⟩ := hm
    rcases n.span.lies pos with hn | hn | hn | hn
    · obtain ⟨hp, hcut, -⟩ := h.1 hn.2
      rw [divide_cut hn]
      exact ihr h.2 hrest (ihk (hcut hn.1) hkids (List.forall_mem_cons.mpr ⟨hp, hs⟩))
    · rw [divide_marker hn]
      exact ihr h.2 hrest hs
    · rw [divide_right hn]
      exact ihr h.2 hrest hs
    · rw [divide_left hn]
      exact ihr h.2 hrest hs

/-! ## Placement without claims -/

theorem opening_nil (span : Span) (row : Markup) (s : Supply) :
    opening [] span row s =
      let atStart := divide span.start row s
      let atStop := divide span.stop atStart.right atStart.supply
      (⟨atStart.left ++ atStart.lifted, atStop.left, atStop.lifted ++ atStop.right⟩,
        atStop.supply) := by
  have hnone (f : Markup) : f.keep (isClaimed []) = .nil := Forest.keep_of_none fun _ _ => rfl
  have hall (f : Markup) : f.drop (isClaimed []) = f := Forest.keep_of_all fun _ _ => rfl
  simp only [opening, hnone, hall, Forest.nil_append, Forest.append_nil]

/-- An opening where everything selected has been passed: it is in front of the new element. -/
theorem Past.opening (h : Past p e.span.start m) (hm : Nests lo hi m) (hlo : lo ≤ e.span.start)
    (hab : e.span.start ≤ e.span.stop) (hhi : e.span.stop ≤ hi)
    (hright : ∀ c ∈ (opening [] e.span m s).2.cuts, p c.right = false) :
    (opening [] e.span m s).1.before.selected p = m.selected p ∧
      Past p e.span.stop (opening [] e.span m s).1.before ∧
      Free p (opening [] e.span m s).1.inside ∧ Free p (opening [] e.span m s).1.after := by
  rw [opening_nil] at hright ⊢
  obtain ⟨hleft, hlifted, hrow⟩ := hm.divide hlo (Nat.le_trans hab hhi) s
  obtain ⟨heq, hfree⟩ := h.divide hm fun c hc => hright c ((divide_le _ _ _).subset hc)
  obtain ⟨hin, hmarkers, hbehind⟩ := hfree.divide hright
  refine ⟨by rw [selected_append, heq], past_of_le fun n hn => ?_, hin,
    free_append.mpr ⟨hmarkers, hbehind⟩⟩
  have hbefore := (hleft.append hlifted).bounds (Forest.labels_subset_preorder hn)
  exact Nat.le_trans hbefore.2.2 hab

/-- An opening where everything selected has been passed cuts nothing selected. -/
theorem Past.opening_cuts (h : Past p e.span.start m) (hm : Nests lo hi m)
    (hlo : lo ≤ e.span.start) (hab : e.span.start ≤ e.span.stop) (hhi : e.span.stop ≤ hi)
    (hright : ∀ c ∈ (Markup.opening [] e.span m s).2.cuts, p c.right = false)
    (hs : ∀ c ∈ s.cuts, p c.left = false) :
    ∀ c ∈ (Markup.opening [] e.span m s).2.cuts, p c.left = false := by
  rw [opening_nil] at hright ⊢
  have hrow := (hm.divide hlo (Nat.le_trans hab hhi) s).2.2
  have hfree := (h.divide hm fun c hc => hright c ((divide_le _ _ _).subset hc)).2
  exact (hfree.past e.span.stop).divide_cuts hrow (h.divide_cuts hm hs)

/-- A position that is passed is passed in the row of the search as well; and what that row gets
in addition, the whole gets, too. -/
theorem Past.site (h : Past p e.span.start m) (hm : Nests lo hi m)
    (hab : e.span.start ≤ e.span.stop) :
    Past p e.span.start (site [] e.span m).row ∧
      ∀ g new : Markup, g.selected p = selected p (Markup.site [] e.span m).row ++ new →
        Past p e.span.stop g →
        selected p ((Markup.site [] e.span m).plug g) = m.selected p ++ new ∧
          Past p e.span.stop ((Markup.site [] e.span m).plug g) := by
  induction m using Forest.focus_induction (enters [] e.span) generalizing lo hi with
  | row f hf =>
    rw [site_of_none hf]
    exact ⟨h, fun g new hg hpassed => ⟨hg, hpassed⟩⟩
  | inner f n kids rest hf hn ih =>
    obtain ⟨-, hkids, hrest⟩ := nests_around.mp hm
    obtain ⟨hpf, hpn, hprest⟩ := past_append.mp h
    have hadmits := Span.admits_iff.mp (enters_iff.mp hn).2
    obtain ⟨hp, hcut, hfree⟩ := hpn (by omega)
    have hbehind := hprest.free hrest (by omega)
    have hpkids : Past p e.span.start kids := by
      rcases Nat.lt_or_ge n.span.start e.span.start with hlt | hge
      · exact hcut hlt
      · exact (hfree hge).past _
    obtain ⟨hrow, hplug⟩ := ih hpkids hkids
    rw [site_append_node hf hn]
    refine ⟨hrow, fun g new hg hpassed => ?_⟩
    obtain ⟨honly, hpassed'⟩ := hplug g new hg hpassed
    constructor
    · rw [selected_append, selected_append, selected_node_neg hp, selected_node_neg hp, honly,
        hbehind.selected_eq_nil, Forest.append_nil, Forest.append_nil, Forest.append_assoc]
    · refine past_append.mpr ⟨hpf.mono hab, fun _ => ⟨hp, fun _ => hpassed', fun hge => ?_⟩,
        hbehind.past _⟩
      omega

/-- A placement behind everything selected adds the new element, with what is selected inside. -/
theorem selected_placed (inside : Growth) (h : Past p e.span.start m) (hm : Nests lo hi m)
    (hlo : lo ≤ e.span.start) (hab : e.span.start ≤ e.span.stop) (hhi : e.span.stop ≤ hi)
    (hright : ∀ c ∈ (opened [] e.span m s).2.cuts, p c.right = false)
    (hnew : p (opened [] e.span m s).2.next = true) :
    selected p (placed e [] m s inside).markup =
        m.selected p ++ .node ⟨e, (opened [] e.span m s).2.next⟩ (inside.markup.selected p) .nil ∧
      Past p e.span.stop (placed e [] m s inside).markup := by
  obtain ⟨lo', hi', hlo', hhi', hrow, -⟩ := hm.focus [] hlo hab hhi
  obtain ⟨hpassed, hplug⟩ := h.site hm hab
  obtain ⟨hbefore, hstop, -, hafter⟩ := hpassed.opening hrow hlo' hab hhi' hright
  refine hplug _ _ ?_ (past_append.mpr ⟨hstop, fun hlt => ?_, hafter.past _⟩)
  · rw [← hbefore, selected_append, selected_node_pos (n := ⟨e, _⟩) hnew]
    exact congrArg _ (congrArg _ hafter.selected_eq_nil)
  · exact absurd hlt (Nat.lt_irrefl _)

/-! ## Merges -/

/-- Every tree of a row ends before the next one starts, on all levels. -/
def InOrder : Forest Element → Prop
  | .nil => True
  | .node e kids rest =>
    InOrder kids ∧ (∀ f ∈ rest.labels.head?, e.span.stop ≤ f.span.start) ∧ InOrder rest

instance decidableInOrder : (fs : Forest Element) → Decidable (InOrder fs)
  | .nil => inferInstanceAs (Decidable True)
  | .node e kids rest =>
    have := decidableInOrder kids
    have := decidableInOrder rest
    inferInstanceAs (Decidable (InOrder kids ∧
      (∀ f ∈ rest.labels.head?, e.span.stop ≤ f.span.start) ∧ InOrder rest))

/-- The merge of one tree that fits makes mark-up grow. -/
theorem grows_place {kids : Forest Element} {pl : Placement} (hm : Nests lo hi m)
    (hlo : lo ≤ e.span.start) (hab : e.span.start ≤ e.span.stop) (hhi : e.span.stop ≤ hi)
    (hkids : misfit? e.span kids = none)
    (hplace : m.place e [] balancing (fun inside s => mergeRow balancing kids inside s) s =
      .ok pl) : Grows lo hi m s pl.markup pl.supply := by
  obtain ⟨g, hin, rfl⟩ := place_ok hm hlo hab hhi claims_nil
    (fun c hc => absurd hc List.not_mem_nil) hplace
  obtain ⟨lo', hi', hlo', hhi', hrow, -⟩ := hm.focus [] hlo hab hhi
  exact grows_placed hm hlo hab hhi
    (grows_mergeRow ((hrow.opening hlo' hab hhi' [] s).2.1) hkids hin)

/-- The merge of one tree behind everything selected: below the new element its children are
merged into mark-up where nothing is selected. -/
theorem selected_place {kids : Forest Element} {pl : Placement} (hm : Nests lo hi m)
    (hlo : lo ≤ e.span.start) (hab : e.span.start ≤ e.span.stop) (hhi : e.span.stop ≤ hi)
    (hkids : misfit? e.span kids = none) (hpassed : Past p e.span.start m)
    (hplace : m.place e [] balancing (fun inside s => mergeRow balancing kids inside s) s = .ok pl)
    (hsel : Selects p s u) (hle : pl.supply.Le u) (hcuts : ∀ c ∈ s.cuts, p c.left = false) :
    Past p e.span.stop pl.markup ∧
      ∃ (inside : Markup) (s' : Supply) (g : Growth),
        Nests e.span.start e.span.stop inside ∧ Free p inside ∧
        mergeRow balancing kids inside s' = .ok g ∧ g.supply = pl.supply ∧
        Selects p s' g.supply ∧ (∀ c ∈ s'.cuts, p c.left = false) ∧
        selected p pl.markup = m.selected p ++ .node ⟨e, pl.id⟩ (g.markup.selected p) .nil := by
  obtain ⟨g, hin, rfl⟩ := place_ok hm hlo hab hhi claims_nil
    (fun c hc => absurd hc List.not_mem_nil) hplace
  obtain ⟨lo', hi', hlo', hhi', hrow, -⟩ := hm.focus [] hlo hab hhi
  have hinside := (hrow.opening hlo' hab hhi' [] s).2.1
  -- the supplies, one after another
  have hopen : s.Le (opened [] e.span m s).2 := opening_le _ _ _ _
  have htake := (opened [] e.span m s).2.le_take
  have hgrows := grows_mergeRow hinside hkids hin
  have hright : ∀ c ∈ (opened [] e.span m s).2.cuts, p c.right = false := fun c hc =>
    hsel.right c (((htake.trans hgrows.le).trans hle).subset hc)
  have hnew : p (opened [] e.span m s).2.next = true :=
    hsel.plain _ (Supply.plain_next hsel.settled hopen (hgrows.le.trans hle))
  obtain ⟨hput, hstop⟩ := selected_placed g hpassed hm hlo hab hhi hright hnew
  have hstart := (hpassed.site hm hab).1
  exact ⟨hstop, _, _, g, hinside, (hstart.opening hrow hlo' hab hhi' hright).2.2.1, hin, rfl,
    hsel.between (hopen.trans htake) hle,
    hstart.opening_cuts hrow hlo' hab hhi' hright hcuts, hput⟩

/-- A row of trees that is merged behind everything selected appears behind it as it is, and none
of its elements is cut. -/
theorem selected_mergeRow {fs : Forest Element} {g : Growth} (hm : Nests lo hi m)
    (hfs : misfit? ⟨lo, hi⟩ fs = none) (horder : InOrder fs)
    (hpassed : ∀ f ∈ fs.labels.head?, Past p f.span.start m)
    (h : mergeRow balancing fs m s = .ok g) (hsel : Selects p s g.supply)
    (hcuts : ∀ c ∈ s.cuts, p c.left = false) :
    (∃ new, selected p g.markup = m.selected p ++ new ∧ new.elements = fs) ∧
      ∀ c ∈ g.supply.cuts, p c.left = false := by
  induction fs generalizing lo hi m s g with
  | nil =>
    cases h
    exact ⟨⟨.nil, (Forest.append_nil _).symm, rfl⟩, hcuts⟩
  | node e kids rest ihk ihr =>
    obtain ⟨⟨hord, hlo, hhi⟩, hkids, hrest⟩ := misfit?_eq_none hfs
    obtain ⟨hokids, hnext, horest⟩ := horder
    obtain ⟨pl, hplace, hg⟩ := mergeRow_node h
    have hgrows := grows_place hm hlo hord hhi hkids hplace
    have hlast := (grows_mergeRow hgrows.nests hrest hg).le
    obtain ⟨hstop, inside, s', g', hinside, hfree, hin, hsupply, hsel', hcuts', hput⟩ :=
      selected_place hm hlo hord hhi hkids (hpassed e rfl) hplace hsel hlast hcuts
    obtain ⟨⟨new, honly, helements⟩, hcutsIn⟩ :=
      ihk hinside hkids hokids (fun f _ => hfree.past _) hin hsel' hcuts'
    rw [hsupply] at hcutsIn
    obtain ⟨⟨new', honly', helements'⟩, hcutsOut⟩ := ihr hgrows.nests hrest horest
      (fun f hf => hstop.mono (hnext f hf)) hg (hsel.between hgrows.le (.refl _)) hcutsIn
    refine ⟨⟨.node ⟨e, pl.id⟩ new new', ?_, ?_⟩, hcutsOut⟩
    · rw [honly', hput, honly, hfree.selected_eq_nil, Forest.append_assoc]
      rfl
    · rw [elements, Forest.map_node]
      exact congrArg₂ (Forest.node e) helements helements'

end Markup

/-! ## Documents -/

namespace Document

open Markup

/-- The node was made for an element that was added, and not by a cut. -/
def created (doc : Document) (a : Addition) (x : NodeId) : Bool :=
  decide (doc.next ≤ x ∧ ∀ c ∈ a.cuts, c.right ≠ x)

variable {doc : Document} {a : Addition} {t : Tree Element} {balancing : Balancing}

/-- A merge of a tree whose siblings follow one another embeds it: the nodes made for its elements
form the tree, attributes included, since an element that is made anew has those that it had; the
answer is the number of its root, and none of them has been cut. -/
theorem WellFormed.merge_embeds (h : doc.WellFormed) (horder : InOrder (.ofTree t))
    (ha : doc.merge t balancing = .ok a) :
    (a.document.markup.selected (doc.created a)).elements = .ofTree t ∧
      (a.document.markup.selected (doc.created a)).rootIds = [a.id] ∧
      ∀ c ∈ a.cuts, doc.created a c.left = false := by
  obtain ⟨⟨hord, hstop⟩, hkids, pl, hpl, rfl⟩ := merge_ok ha
  have hfree : Free (doc.created (doc.grown (Forest.ofTree t).preorder pl)) doc.markup :=
    fun x hx => decide_eq_false fun hnew =>
      Nat.not_le.mpr (h.mem_ids_iff.mp hx).2 hnew.1
  have hsel : Selects (doc.created (doc.grown (Forest.ofTree t).preorder pl)) ⟨doc.next, []⟩
      pl.supply :=
    { settled := fun c hc => absurd hc List.not_mem_nil
      right := fun c hc => decide_eq_false fun hnew => hnew.2 c (List.mem_reverse.mpr hc) rfl
      plain := fun x hx =>
        decide_eq_true ⟨hx.1, fun c hc => hx.2.2 c (List.mem_reverse.mp hc)⟩ }
  obtain ⟨-, inside, s', g, hinside, hfree', hin, hsupply, hsel', hcuts, hput⟩ :=
    selected_place h.nests (Nat.zero_le _) hord hstop hkids (hfree.past _) hpl hsel (.refl _)
      (fun c hc => absurd hc List.not_mem_nil)
  obtain ⟨⟨new, honly, helements⟩, hcuts'⟩ :=
    selected_mergeRow hinside hkids horder.1 (fun f _ => hfree'.past _) hin hsel' hcuts
  rw [hfree'.selected_eq_nil, Forest.nil_append] at honly
  rw [hfree.selected_eq_nil, Forest.nil_append, honly] at hput
  have hgather : pl.markup.gather pl.id pl.strays = pl.markup := by
    obtain ⟨g, -, rfl⟩ := place_ok h.nests (Nat.zero_le _) hord hstop claims_nil
      (fun c hc => absurd hc List.not_mem_nil) hpl
    rfl
  have hmarkup : (doc.grown (Forest.ofTree t).preorder pl).document.markup = pl.markup := hgather
  rw [hmarkup, hput]
  refine ⟨?_, rfl, fun c hc => hcuts' c (hsupply ▸ List.mem_reverse.mp hc)⟩
  rw [elements, Forest.map_node]
  exact congrArg (Forest.node t.label · .nil) helements

/-- A tree over two elements that cross it, one in the other, with a marker where they are cut. -/
theorem WellFormed.merge_embeds_crossing :
    let host := Session.apply (ofText "abcdefgh") [.addSpan "a" ⟨0, 5⟩, .addSpan "b" ⟨2, 5⟩]
    let t : Tree Element := ⟨⟨"p", ⟨1, 7⟩, .setAll [("k", "u"), ("l", "w"), ("k", "v")] {}⟩,
      .node ⟨"q", ⟨1, 3⟩, {}⟩ .nil
        (.node ⟨"m", ⟨3, 3⟩, {}⟩ .nil (.node ⟨"r", ⟨3, 7⟩, {}⟩ .nil .nil))⟩
    host.WellFormed ∧ InOrder (.ofTree t) ∧ ∃ a, host.merge t .inner = .ok a ∧ a.cuts.length = 3 ∧
      (a.document.markup.selected (host.created a)).elements = .ofTree t := by
  intro host t
  have h : host.WellFormed :=
    (Session.wellFormed_apply (wellFormed_ofText "abcdefgh") (by decide +kernel)).1
  have horder : InOrder (.ofTree t) := by decide
  have hcuts : (host.merge t .inner).map (·.cuts.length) = .ok 3 := by decide +kernel
  cases ha : host.merge t .inner with
  | error conflict =>
    rw [ha] at hcuts
    cases hcuts
  | ok a =>
    rw [ha] at hcuts
    exact ⟨h, horder, a, rfl, Except.ok.inj hcuts, (h.merge_embeds horder ha).1⟩

end Document

end Standoff
