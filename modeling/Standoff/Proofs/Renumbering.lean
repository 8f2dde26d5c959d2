import Standoff.Proofs.Enclosures
import Standoff.Proofs.Growth

/-! # Operations on mark-up whose numbers are forgotten

Merging and inserting are grafting and enclosing if the numbers of right halves become 0, of new
nodes of a merge too, and claimed nodes keep theirs.

* `Markup.graft_renumber`: a graft of renumbered trees.
* `Markup.mergeRow_renumber`: a merge is a graft.
* `Markup.gather_renumber`: an insertion is an enclosure. -/

namespace Standoff

namespace Markup

/-- Trees with number 0 throughout. -/
def blank (es : Forest Element) : Markup := es.map fun e => ⟨e, 0⟩

/-- The claimed nodes keep their numbers, and no other node gets one of them. -/
def Keeps (claimed : List NodeId) (ρ : NodeId → NodeId) : Prop :=
  ∀ x, (x ∈ claimed → ρ x = x) ∧ (ρ x ∈ claimed → x ∈ claimed)

variable {lo hi pos : Nat} {m f g k row kids rest : Markup} {n : Node} {span : Span} {s : Supply}
  {e : Element} {claimed xs ys : List NodeId} {x : NodeId} {ρ : NodeId → NodeId}

theorem Keeps.mem_iff (h : Keeps claimed ρ) : ρ x ∈ claimed ↔ x ∈ claimed := by
  constructor
  · exact (h x).2
  · intro hx
    rw [(h x).1 hx]
    exact hx

theorem keeps_nil : Keeps [] ρ := fun _ =>
  ⟨fun hx => absurd hx (List.not_mem_nil), fun hx => absurd hx (List.not_mem_nil)⟩

/-- Numbers that are a part of the claimed ones are kept too. -/
theorem Keeps.sublist (h : Keeps claimed ρ) (hxs : xs ⊆ claimed) : Keeps xs ρ := by
  intro x
  refine ⟨fun hx => (h x).1 (hxs hx), fun hx => ?_⟩
  rw [(h x).1 ((h x).2 (hxs hx))] at hx
  exact hx

/-! ## Grafts -/

theorem site_renumber (h : Keeps claimed ρ) (span : Span) (m : Markup) :
    (site claimed span (m.renumber ρ)).row = renumber ρ (site claimed span m).row ∧
      ∀ g, (site claimed span (m.renumber ρ)).plug (renumber ρ g) =
        renumber ρ ((site claimed span m).plug g) := by
  refine Forest.focus_map (fun n => ?_) m
  rw [enters, enters]
  simp only [h.mem_iff]

theorem part_renumber (h0 : ρ 0 = 0) (pos : Nat) (m : Markup) :
    part pos (m.renumber ρ) =
      ⟨renumber ρ (part pos m).left, renumber ρ (part pos m).lifted,
        renumber ρ (part pos m).right⟩ := by
  induction m with
  | nil => rfl
  | node n kids rest ihk ihr =>
    rw [renumber_node]
    rcases n.span.lies pos with h | h | h | h
    · rw [part_cut h, part_cut (n := { n with id := ρ n.id }) h, ihk, ihr]
      simp [Node.leftHalf, Node.rightHalf, h0]
    · rw [part_marker h, part_marker (n := { n with id := ρ n.id }) h, ihr]
      rfl
    · rw [part_right h, part_right (n := { n with id := ρ n.id }) h, ihr]
      rfl
    · rw [part_left h, part_left (n := { n with id := ρ n.id }) h, ihr]
      rfl

theorem nest_renumber (h0 : ρ 0 = 0) {fill fill' : Markup → Markup}
    (hfill : ∀ g, fill' (renumber ρ g) = renumber ρ (fill g)) (n : Node) (m : Markup) :
    nest { n with id := ρ n.id } fill' (m.renumber ρ) = renumber ρ (nest n fill m) := by
  obtain ⟨hrow, hplug⟩ := site_renumber (ρ := ρ) keeps_nil n.span m
  unfold nest
  rw [hrow, ← hplug]
  unfold nestRow
  simp only [part_renumber h0, hfill, renumber_append, renumber_node]

theorem graft_renumber (h0 : ρ 0 = 0) (k m : Markup) :
    graft (k.renumber ρ) (m.renumber ρ) = renumber ρ (graft k m) := by
  induction k generalizing m with
  | nil => rfl
  | node n kids rest ihk ihr =>
    rw [renumber_node, graft_node, graft_node, nest_renumber h0 ihk, ihr]

/-! ## Openings -/

theorem keep_renumber {p : Node → Bool} (hp : ∀ n : Node, p { n with id := ρ n.id } = p n)
    (m : Markup) : (m.renumber ρ).keep p = renumber ρ (m.keep p) := by
  rw [renumber, Forest.keep_map, renumber]
  exact congrArg _ (Forest.keep_congr fun n _ => hp n)

theorem opening_renumber (h : Keeps claimed ρ)
    (hcuts : ∀ c ∈ (opening claimed span row s).2.cuts, ρ c.right = 0) :
    parted claimed span (row.renumber ρ) =
      ⟨renumber ρ (opening claimed span row s).1.before,
        renumber ρ (opening claimed span row s).1.inside,
        renumber ρ (opening claimed span row s).1.after⟩ := by
  have hle := divide_le span.stop (divide span.start row s).right (divide span.start row s).supply
  have hstart := divide_renumber (m := row) (s := s) fun c hc => hcuts c (hle.subset hc)
  have hcuts : ∀ c ∈ (divide span.stop (divide span.start row s).right
      (divide span.start row s).supply).supply.cuts, ρ c.right = 0 := hcuts
  have hstop := divide_renumber hcuts
  have hkeep (m : Markup) : (m.renumber ρ).keep (isClaimed claimed) =
      renumber ρ (m.keep (isClaimed claimed)) :=
    keep_renumber (fun n => by simp only [isClaimed, h.mem_iff]) m
  have hdrop (m : Markup) : (m.renumber ρ).drop (isClaimed claimed) =
      renumber ρ (m.drop (isClaimed claimed)) :=
    keep_renumber (fun n => by simp only [isClaimed, h.mem_iff]) m
  unfold parted opening
  simp only [hstart, hstop, hkeep, hdrop, renumber_append]

theorem parted_nil (span : Span) (row : Markup) :
    parted [] span row =
      ⟨(part span.start row).left ++ (part span.start row).lifted,
        (part span.stop (part span.start row).right).left,
        (part span.stop (part span.start row).right).lifted ++
          (part span.stop (part span.start row).right).right⟩ := by
  have hnone (n : Node) : isClaimed [] n = false := by simp [isClaimed]
  have hkeep (m : Markup) : m.keep (isClaimed []) = .nil := Forest.keep_of_none fun n _ => hnone n
  have hdrop (m : Markup) : m.drop (isClaimed []) = m :=
    Forest.keep_of_all fun n _ => by rw [hnone n]; rfl
  unfold parted
  simp only [hkeep, hdrop, Forest.nil_append, Forest.append_nil]

/-- A placement without claims is a node in the innermost row with room for it. -/
theorem placed_renumber {g : Growth} {fill : Markup → Markup}
    (hcuts : ∀ c ∈ (opened [] e.span m s).2.cuts, ρ c.right = 0)
    (hfill : fill (renumber ρ (opened [] e.span m s).1.inside) = g.markup.renumber ρ) :
    (placed e [] m s g).markup.renumber ρ =
      nest ⟨e, ρ (opened [] e.span m s).2.next⟩ fill (m.renumber ρ) := by
  obtain ⟨hrow, hplug⟩ := site_renumber (ρ := ρ) keeps_nil e.span m
  have hopen := opening_renumber (ρ := ρ) keeps_nil hcuts
  rw [parted_nil] at hopen
  injection hopen with hbefore hinside hafter
  rw [placed_markup, ← hplug, nest, hrow, nestRow]
  simp only [hbefore, hinside, hafter]
  unfold opened at hfill
  rw [hfill, newRow, renumber_append, renumber_node]
  rfl

/-! ## Merges -/

@[simp] theorem blank_node (e : Element) (kids rest : Forest Element) :
    blank (.node e kids rest) = .node ⟨e, 0⟩ (blank kids) (blank rest) := rfl

@[simp] theorem blank_append (f g : Forest Element) : blank (f ++ g) = blank f ++ blank g := by
  simp [blank]

/-- Merging trees is grafting them, apart from numbers. -/
theorem mergeRow_renumber {balancing : Balancing} {fs : Forest Element} {g : Growth}
    (hm : Nests lo hi m) (hfs : misfit? ⟨lo, hi⟩ fs = none)
    (h : mergeRow balancing fs m s = .ok g) :
    g.markup.renumber (fun _ => 0) = graft (blank fs) (m.renumber fun _ => 0) := by
  induction fs generalizing lo hi m s g with
  | nil =>
    cases h
    rfl
  | node f kids rest ihk ihr =>
    obtain ⟨⟨hord, hlo, hhi⟩, hkids, hrest⟩ := misfit?_eq_none hfs
    obtain ⟨p, hp, hg⟩ := mergeRow_node h
    obtain ⟨inside, hin, rfl⟩ := place_ok hm hlo hord hhi claims_nil
      (fun c hc => absurd hc (List.not_mem_nil)) hp
    obtain ⟨lo', hi', hlo', hhi', hrow, -⟩ := hm.focus [] hlo hord hhi
    have hnest := (hrow.opening hlo' hord hhi' [] s).2.1
    have hplaced := grows_placed hm hlo hord hhi (grows_mergeRow hnest hkids hin)
    rw [ihr hplaced.nests hrest hg, blank_node, graft_node,
      placed_renumber (fun _ _ => rfl) (ihk hnest hkids hin).symm]

theorem mergeTree_renumber {balancing : Balancing} {t : Tree Element} {p : Placement}
    (hm : Nests lo hi m) (hlo : lo ≤ t.label.span.start)
    (hord : t.label.span.start ≤ t.label.span.stop) (hhi : t.label.span.stop ≤ hi)
    (hkids : misfit? t.label.span t.children = none)
    (h : mergeTree balancing t m s = .ok p) :
    (p.markup.gather p.id p.strays).renumber (fun _ => 0) =
      graft (blank (Forest.ofTree t)) (m.renumber fun _ => 0) := by
  obtain ⟨inside, hin, rfl⟩ := place_ok hm hlo hord hhi claims_nil
    (fun c hc => absurd hc (List.not_mem_nil)) h
  obtain ⟨lo', hi', hlo', hhi', hrow, -⟩ := hm.focus [] hlo hord hhi
  have hnest := (hrow.opening hlo' hord hhi' [] s).2.1
  have hstrays : (placed t.label [] m s inside).strays = [] := rfl
  rw [hstrays, gather_nil, placed_renumber (fun _ _ => rfl)
    (mergeRow_renumber hnest hkids hin).symm]
  rfl

/-! ## Insertions -/

theorem ids_renumber (ρ : NodeId → NodeId) (m : Markup) : (m.renumber ρ).ids = m.ids.map ρ := by
  rw [ids, ids, renumber, Forest.preorder_map, List.map_map, List.map_map]
  rfl

/-- Claimed nodes are found where they were. -/
theorem node?_renumber (h : Keeps claimed ρ) (hx : x ∈ claimed) (m : Markup) :
    (m.renumber ρ).node? x = (m.node? x).map fun t =>
      ⟨{ t.label with id := ρ t.label.id }, renumber ρ t.children⟩ := by
  induction m with
  | nil => rfl
  | node n kids rest ihk ihr =>
    have hid : ρ n.id = x ↔ n.id = x := by
      constructor
      · intro heq
        rw [← (h n.id).1 ((h n.id).2 (heq ▸ hx))]
        exact heq
      · rintro rfl
        exact (h n.id).1 hx
    rw [renumber_node, node?_node, node?_node, ihk, ihr]
    by_cases hn : n.id = x
    · rw [if_pos hn, if_pos (hid.mpr hn)]
      rfl
    · rw [if_neg hn, if_neg fun heq => hn (hid.mp heq), Option.map_or]

theorem without_renumber (h : Keeps xs ρ) (m : Markup) :
    without xs (m.renumber ρ) = renumber ρ (without xs m) := by
  induction m with
  | nil => rfl
  | node n kids rest ihk ihr =>
    rw [renumber_node, without_node, without_node]
    simp only [h.mem_iff]
    by_cases hn : n.id ∈ xs
    · rw [if_pos hn, if_pos hn, ihr]
    · rw [if_neg hn, if_neg hn, ihk, ihr]
      rfl

theorem bared_renumber (h : Keeps claimed ρ) (hxs : xs ⊆ claimed) (hys : ys ⊆ claimed)
    (m : Markup) : bared (m.renumber ρ) xs ys = renumber ρ (bared m xs ys) := by
  induction ys with
  | nil => rfl
  | cons y ys ih =>
    have ih := ih fun x hx => hys (List.mem_cons_of_mem _ hx)
    rw [bared, bared, node?_renumber h (hys (List.mem_cons_self ..))]
    cases m.node? y with
    | none => exact ih
    | some t =>
      simp only [Option.map_some, ih, without_renumber (h.sublist hxs)]
      rfl

theorem strays_renumber (h : Keeps claimed ρ) (span : Span) (m : Markup) :
    strays claimed span (m.renumber ρ) = strays claimed span m := by
  refine List.filter_congr fun x hx => ?_
  rw [(site_renumber h span m).1, ids_renumber, decide_eq_decide, List.mem_map, not_iff_not]
  constructor
  · rintro ⟨y, hy, rfl⟩
    rw [(h y).1 ((h y).2 hx)]
    exact hy
  · intro hmem
    exact ⟨x, hmem, (h x).1 hx⟩

theorem fetched_renumber (h : Keeps claimed ρ) (span : Span) (m : Markup) (pos : Nat) :
    fetched claimed span (m.renumber ρ) pos = renumber ρ (fetched claimed span m pos) := by
  have hsub : strays claimed span m ⊆ claimed := List.filter_subset_self _
  have hfilter : (strays claimed span m).filter (standsAt (m.renumber ρ) pos) =
      (strays claimed span m).filter (standsAt m pos) := by
    refine List.filter_congr fun x hx => ?_
    rw [standsAt, standsAt, node?_renumber h (hsub hx)]
    cases m.node? x <;> rfl
  rw [fetched, fetched, strays_renumber h, hfilter]
  exact bared_renumber h hsub (fun x hx =>
    hsub (List.filter_subset_self _ (List.dedup_subset _ hx))) m

/-- An insertion is an enclosure, apart from the numbers of right halves. -/
theorem gather_renumber (h : Insertable lo hi claimed e m s) (hk : Keeps claimed ρ)
    (hcuts : ∀ c ∈ (opened claimed e.span m s).2.cuts, ρ c.right = 0) (s' : Supply) :
    ((placed e claimed m s ⟨(opened claimed e.span m s).1.inside, s'⟩).markup.gather
        (opened claimed e.span m s).2.next (strays claimed e.span m)).renumber ρ =
      enclose claimed ⟨e, ρ (opened claimed e.span m s).2.next⟩ (m.renumber ρ) := by
  have hstrays : Keeps (strays claimed e.span m) ρ := hk.sublist (List.filter_subset_self _)
  have hopen := opening_renumber hk hcuts
  have hmarker (m : Markup) :
      (m.renumber ρ).keep (markerAt e.span.start) = renumber ρ (m.keep (markerAt e.span.start)) ∧
      (m.renumber ρ).drop (markerAt e.span.start) = renumber ρ (m.drop (markerAt e.span.start)) :=
    ⟨keep_renumber (fun _ => rfl) m, keep_renumber (fun _ => rfl) m⟩
  rw [gather_placed h s', enclose]
  simp only
  rw [strays_renumber hk, without_renumber hstrays, (site_renumber hk e.span m).1, hopen,
    ← (site_renumber hk e.span _).2]
  simp only [newRow, brood, renumber_append, renumber_node, fetched_renumber hk, hmarker]
  rfl

end Markup

end Standoff
