import Standoff.Proofs.Grafts

/-! # Enclosing trees that were grafted before

Over nodes that it claims, a new node comes to stand where it would stand if the claimed trees had
not been there, and around them: enclosing a graft is grafting the enclosure,

    enclose k.rootIds n (graft k m) = nest n (graft k) m

Claimed markers at the ends of the new span may lie outside the row that is opened.  They are the
strays; `Markup.Spread` says which of them there are.

* `Markup.Tagged`: a row whose trees can be claimed.
* `Markup.spread`: where the search for a row finds the claimed trees.
* `Markup.enclose_graft`: the equation above. -/

namespace Standoff

namespace Markup

/-- Roots have distinct numbers, and below them every number is 0. -/
def Tagged : Markup → Prop
  | .nil => True
  | .node n kids rest => n.id ≠ 0 ∧ (∀ x ∈ ids kids, x = 0) ∧ n.id ∉ rootIds rest ∧ Tagged rest

/-- A row opened for a span as `opening` does, with number 0 for right halves. -/
def parted (claimed : List NodeId) (span : Span) (row : Markup) : Deal :=
  let p := part span.start row
  let q := part span.stop p.right
  { before := p.left ++ p.lifted.drop (isClaimed claimed)
    inside := p.lifted.keep (isClaimed claimed) ++ q.left ++ q.lifted.keep (isClaimed claimed)
    after := q.lifted.drop (isClaimed claimed) ++ q.right }

/-- A node over claimed ones, as an insertion leaves it. -/
def enclose (claimed : List NodeId) (n : Node) (m : Markup) : Markup :=
  let d := parted claimed n.span (site claimed n.span m).row
  (site claimed n.span (m.without (strays claimed n.span m))).plug
    (d.before ++ .node n (brood claimed n.span m d.inside) d.after)

variable {lo hi a b pos : Nat} {m f g k l row kids rest : Markup} {n : Node} {span : Span}
  {fill : Markup → Markup} {x : NodeId} {c : List NodeId}

/-! ## Numbers of a graft -/

/-- A division keeps every number except that of right halves. -/
theorem count_ids_part (hx : x ≠ 0) (pos : Nat) (m : Markup) :
    (part pos m).left.ids.count x + (part pos m).lifted.ids.count x +
      (part pos m).right.ids.count x = m.ids.count x := by
  induction m with
  | nil => rfl
  | node n kids rest ihk ihr =>
    rcases n.span.lies pos with h | h | h | h
    · rw [part_cut h]
      simp only [ids_node, ids_append, List.count_cons, List.count_append, Node.leftHalf,
        Node.rightHalf, beq_iff_eq, if_neg (Ne.symm hx)]
      omega
    · rw [part_marker h]
      simp only [ids_node, List.count_cons, List.count_append]
      omega
    · rw [part_right h]
      simp only [ids_node, List.count_cons, List.count_append]
      omega
    · rw [part_left h]
      simp only [ids_node, List.count_cons, List.count_append]
      omega

theorem count_ids_nest (hx : x ≠ 0)
    (hfill : ∀ g, (fill g).ids.count x = kids.ids.count x + g.ids.count x) (m : Markup) :
    (nest n fill m).ids.count x =
      (ids (.node n kids .nil)).count x + m.ids.count x := by
  have h₁ := @count_ids_plug n.span [] m (nestRow n fill (site [] n.span m).row) x
  have h₂ := count_ids_part hx n.span.start (site [] n.span m).row
  have h₃ := count_ids_part hx n.span.stop (part n.span.start (site [] n.span m).row).right
  have h₄ := hfill (part n.span.stop (part n.span.start (site [] n.span m).row).right).left
  rw [nest]
  simp only [nestRow, ids_append, ids_node, ids_nil, List.count_append, List.count_cons,
    List.count_nil] at h₁ ⊢
  omega

theorem count_ids_graft (hx : x ≠ 0) (k m : Markup) :
    (graft k m).ids.count x = k.ids.count x + m.ids.count x := by
  induction k generalizing m with
  | nil => simp
  | node n kids rest ihk ihr =>
    have hn := count_ids_nest (n := n) hx ihk m
    rw [graft_node, ihr, hn]
    simp only [ids_node, ids_nil, List.append_nil, List.count_cons, List.count_append]
    omega

theorem mem_ids_graft (hx : x ≠ 0) : x ∈ (graft k m).ids ↔ x ∈ k.ids ∨ x ∈ m.ids := by
  have h := count_ids_graft hx k m
  rw [← List.count_pos_iff, ← List.count_pos_iff, ← List.count_pos_iff]
  omega

/-! ## Tagged rows -/

theorem tagged_append : Tagged (f ++ g) ↔
    Tagged f ∧ Tagged g ∧ ∀ x ∈ rootIds f, x ∉ rootIds g := by
  induction f with
  | nil => simp [Tagged, rootIds]
  | node n kids rest _ ih =>
    have hroots : rootIds (rest ++ g) = rootIds rest ++ rootIds g := by
      simp [rootIds]
    simp only [Forest.node_append, Tagged, ih, hroots, List.mem_append, not_or]
    constructor
    · rintro ⟨h₁, h₂, ⟨h₃, h₄⟩, h₅, h₆, h₇⟩
      refine ⟨⟨h₁, h₂, h₃, h₅⟩, h₆, fun x hx => ?_⟩
      rcases List.mem_cons.mp hx with rfl | hx
      · exact h₄
      · exact h₇ x hx
    · rintro ⟨⟨h₁, h₂, h₃, h₅⟩, h₆, h₇⟩
      exact ⟨h₁, h₂, ⟨h₃, h₇ _ (List.mem_cons_self ..)⟩, h₅, h₆,
        fun x hx => h₇ x (List.mem_cons_of_mem _ hx)⟩

theorem Tagged.mem_ids (h : Tagged k) (hx : x ∈ k.ids) : x = 0 ∨ x ∈ k.rootIds := by
  induction k with
  | nil => cases hx
  | node n kids rest _ ih =>
    obtain ⟨-, h₂, -, h₄⟩ := h
    rw [ids_node, List.mem_cons, List.mem_append] at hx
    rcases hx with rfl | hx | hx
    · exact Or.inr (List.mem_cons_self ..)
    · exact Or.inl (h₂ x hx)
    · exact (ih h₄ hx).imp_right (List.mem_cons_of_mem _)

theorem Tagged.ne_zero (h : Tagged k) (hx : x ∈ k.rootIds) : x ≠ 0 := by
  induction k with
  | nil => cases hx
  | node n kids rest _ ih =>
    obtain ⟨h₁, -, -, h₄⟩ := h
    rcases List.mem_cons.mp hx with rfl | hx
    · exact h₁
    · exact ih h₄ hx

theorem Tagged.nodup (h : Tagged k) : k.rootIds.Nodup := by
  induction k with
  | nil => exact List.nodup_nil
  | node n kids rest _ ih =>
    obtain ⟨-, -, h₃, h₄⟩ := h
    exact List.nodup_cons.mpr ⟨h₃, ih h₄⟩

/-- Claimed trees are found as they are. -/
theorem Tagged.bared_roots (h : Tagged k) {xs : List NodeId} (hxs : 0 ∉ xs)
    (hfound : ∀ x ∈ k.rootIds, m.node? x = k.node? x) : bared m xs k.rootIds = k := by
  induction k with
  | nil => rfl
  | node n kids rest _ ih =>
    obtain ⟨h₁, h₂, h₃, h₄⟩ := h
    have hroots : rootIds (.node n kids rest) = n.id :: rootIds rest := rfl
    have hnode : m.node? n.id = some ⟨n, kids⟩ := by
      rw [hfound n.id (List.mem_cons_self ..), node?_node, if_pos rfl]
    have hkids : without xs kids = kids :=
      without_of_disjoint fun x hx hk => hxs (h₂ x hk ▸ hx)
    have hrest : bared m xs (rootIds rest) = rest := by
      refine ih h₄ fun x hx => ?_
      have hne : n.id ≠ x := by
        rintro rfl
        exact h₃ hx
      have hnot : x ∉ ids kids := fun hk => Tagged.ne_zero h₄ hx (h₂ x hk)
      rw [hfound x (List.mem_cons_of_mem _ hx), node?_node, if_neg hne,
        node?_eq_none_iff.mpr hnot, Option.none_or]
    rw [hroots, bared, hnode, hrest]
    simp only [hkids]

/-! ## Where grafted trees go -/

/-- Trees that a node has room for go into it. -/
theorem graft_inner (hf : Nests lo n.span.start f)
    (hk : ∀ x ∈ k.labels, n.span.start ≤ x.span.start ∧ n.span.admits x.span = true)
    (kids rest : Markup) :
    graft k (f ++ .node n kids rest) = f ++ .node n (graft k kids) rest := by
  induction k generalizing kids with
  | nil => rfl
  | node x xkids xrest _ ih =>
    obtain ⟨hstart, hadmits⟩ := hk x (List.mem_cons_self ..)
    have hclosed : Closed x.span f := closed_of_stop (hf.mono (Nat.le_refl _) hstart)
    have henters : enters [] x.span n = true := enters_nil.trans hadmits
    rw [graft_node, nest_inner hclosed henters, ih fun y hy => hk y (List.mem_cons_of_mem _ hy)]
    rfl

/-- A row of which no node is cut at a position is its parts. -/
theorem parts_of_closed (hm : Nests lo hi m) (hclosed : Closed (.emptyAt pos) m) :
    (part pos m).left ++ (part pos m).lifted ++ (part pos m).right = m := by
  induction m generalizing lo with
  | nil => rfl
  | node n kids rest _ ih =>
    obtain ⟨h₁, h₂, h₃⟩ := hm
    have hord := h₂.le
    have hn := hclosed n (List.mem_cons_self ..)
    rw [enters_nil, ← Bool.not_eq_true, Span.admits_iff] at hn
    simp only [Span.emptyAt] at hn
    have ih := ih h₃ fun x hx => hclosed x (List.mem_cons_of_mem _ hx)
    rcases n.span.lies pos with h | h | h | h
    · omega
    · have hstop : n.span.stop = pos := by omega
      rw [hstop] at h₃
      obtain ⟨hleft, hrow⟩ := part_start h₃
      rw [part_marker h, hleft]
      simp [hrow]
    · rw [part_right h, part_of_lt h₃ (by omega)]
      rfl
    · rw [part_left h]
      simp [ih]

/-- Markers at a position inside no node of the row join those that are there. -/
theorem graft_markers (hm : Nests lo hi m) (hlo : lo ≤ pos) (hhi : pos ≤ hi)
    (hclosed : Closed (.emptyAt pos) m) (hk : Nests pos pos k) :
    graft k m = (part pos m).left ++ (part pos m).lifted ++ k ++ (part pos m).right := by
  induction k generalizing m with
  | nil => rw [graft_nil, Forest.append_nil, parts_of_closed hm hclosed]
  | node n kids rest _ ih =>
    obtain ⟨h₁, h₂, h₃⟩ := hk
    have hord := h₂.le
    have hle := h₃.le
    have hstart : n.span.start = pos := by omega
    have hstop : n.span.stop = pos := by omega
    have hspan : n.span = .emptyAt pos := eq_emptyAt_iff.mpr ⟨hstart, hstop⟩
    have hnest : nest n (graft kids) m = (part pos m).left ++
        ((part pos m).lifted ++ .node n kids .nil) ++ (part pos m).right := by
      rw [nest_row (hspan ▸ hclosed), nestRow, hstart, hstop, part_part_right]
      simp only [Forest.nil_append, graft_into_nil h₂]
      simp [Forest.append_assoc]
    have hnests : Nests lo hi (nest n (graft kids) m) :=
      nests_nest hm (by omega) hord (by omega) fun g hg =>
        nests_graft hg h₂ (Nat.le_refl _) (Nat.le_refl _)
    have hclosed' : Closed (.emptyAt pos) (nest n (graft kids) m) := by
      have hempty : (Span.emptyAt pos).start ≤ (Span.emptyAt pos).stop := Nat.le_refl _
      rw [hnest, closed_append, closed_append]
      refine ⟨⟨Closed.left hempty hclosed, closed_of_stop (Nests.append (hm.part hlo hhi).2.1 ?_)⟩,
        Closed.right hempty hclosed⟩
      exact ⟨h₁, h₂, nests_nil.mpr hle⟩
    rw [graft_node, ih hnests hclosed' (h₃.mono (by omega) (Nat.le_refl _)),
      part_nest_marker hstart hstop hm, graft_into_nil h₂]
    simp [Forest.append_assoc]

/-- Markers where a node starts go in front of it. -/
theorem graft_front (hm : Nests lo hi (f ++ .node n kids rest))
    (hne : n.span.start < n.span.stop) (hk : Nests n.span.start n.span.start k) :
    graft k (f ++ .node n kids rest) = f ++ k ++ .node n kids rest := by
  obtain ⟨h₁, h₂, h₃⟩ := nests_around.mp hm
  have hle := h₁.le
  have hhi := h₃.le
  have hnode : Nests n.span.start hi (.node n kids rest) := ⟨Nat.le_refl _, h₂, h₃⟩
  have hclosed : Closed (.emptyAt n.span.start) (f ++ .node n kids rest) :=
    closed_append.mpr ⟨closed_of_stop h₁, closed_of_start (Nat.le_refl _) hnode⟩
  obtain ⟨hright, hleft⟩ := part_stop h₁
  rw [graft_markers hm hle (by omega) hclosed hk, part_append,
    part_right ⟨Nat.le_refl _, Or.inr hne⟩, part_of_lt h₃ hne, hright]
  simp only [Forest.append_nil, Forest.nil_append]
  rw [hleft]

/-- Markers where a node ends go behind it, and behind markers that are there. -/
theorem graft_back (hm : Nests lo hi (f ++ .node n kids rest))
    (hne : n.span.start < n.span.stop) (hk : Nests n.span.stop n.span.stop k) :
    ∃ r r', rest = r ++ r' ∧
      graft k (f ++ .node n kids rest) = f ++ .node n kids (r ++ k ++ r') := by
  obtain ⟨h₁, h₂, h₃⟩ := nests_around.mp hm
  have hle := h₁.le
  have hhi := h₃.le
  have hbefore : Nests lo n.span.stop (f ++ .node n kids .nil) :=
    h₁.append ⟨Nat.le_refl _, h₂, nests_nil.mpr (Nat.le_refl _)⟩
  have hclosed : Closed (.emptyAt n.span.stop) (f ++ .node n kids rest) := by
    have hsplit : f ++ .node n kids rest = f ++ .node n kids .nil ++ rest := by
      rw [Forest.append_assoc]
      rfl
    rw [hsplit]
    exact closed_append.mpr ⟨closed_of_stop hbefore, closed_of_start (Nat.le_refl _) h₃⟩
  obtain ⟨hleft, hrow⟩ := part_start h₃
  refine ⟨(part n.span.stop rest).lifted, (part n.span.stop rest).right, hrow.symm, ?_⟩
  rw [graft_markers hm (by omega) hhi hclosed hk, part_append, part_of_gt h₁ hne,
    part_left ⟨hne, Nat.le_refl _⟩, hleft]
  simp [Forest.append_assoc]

/-! ## Rows of a graft that are not entered -/

/-- A node that the search passes by: it is claimed, or has no room for the span. -/
def Passed (c : List NodeId) (span : Span) (x : Node) : Prop :=
  (x.id ∈ c ∧ span.start ≤ x.span.start ∧ x.span.stop ≤ span.stop) ∨ enters [] span x = false

theorem Passed.not_entered (h : Passed c span n) : enters c span n = false := by
  rcases h with ⟨hc, -⟩ | h
  · exact not_enters_of_claimed hc
  · rw [enters_nil] at h
    rw [enters, h, Bool.and_false]

theorem passed_marker (h : n.span.stop ≤ n.span.start) : Passed c span n := by
  right
  rw [enters_nil, ← Bool.not_eq_true, Span.admits_iff]
  omega

theorem passed_left (hord : span.start ≤ span.stop) (h : ∀ y ∈ m.labels, Passed c span y)
    (hn : n ∈ (part pos m).left.labels) : Passed c span n := by
  obtain ⟨y, hy, hid, hstart, hstop⟩ := left_label hn
  rcases h y hy with ⟨hc, h₁, h₂⟩ | hno
  · exact Or.inl ⟨hid ▸ hc, by omega, by omega⟩
  · right
    rw [enters_nil, ← Bool.not_eq_true] at hno ⊢
    exact fun hadmits => hno (admits_within hord (Nat.le_of_eq hstart) hstop hadmits)

theorem passed_right (hord : span.start ≤ span.stop) (h : ∀ y ∈ m.labels, Passed c span y)
    (hn : n ∈ (part pos m).right.labels) : Passed c span n := by
  obtain ⟨y, hy, hsame, hstart, hstop⟩ := right_label hn
  rcases hsame with rfl | hlt
  · exact h n hy
  · right
    rcases h y hy with ⟨-, h₁, h₂⟩ | hno
    · rw [enters_nil, ← Bool.not_eq_true, Span.admits_iff]
      omega
    · rw [enters_nil, ← Bool.not_eq_true] at hno ⊢
      exact fun hadmits => hno (admits_within hord hstart (Nat.le_of_eq hstop.symm) hadmits)

theorem passed_nest (hord : span.start ≤ span.stop) (h : ∀ y ∈ m.labels, Passed c span y)
    (hn : Passed c span n) : ∀ y ∈ (nest n fill m).labels, Passed c span y := by
  induction m using Forest.focus_induction (enters [] n.span) with
  | row m hm =>
    intro y hy
    rw [nest_row hm, nestRow] at hy
    simp only [Forest.labels_append, Forest.labels_node, List.mem_append, List.mem_cons] at hy
    rcases hy with (hy | hy) | rfl | hy | hy
    · exact passed_left hord h hy
    · exact passed_marker (lifted_of_part _ hy).1
    · exact hn
    · exact passed_marker (lifted_of_part _ hy).1
    · exact passed_right hord (fun z hz => passed_right hord h hz) hy
  | inner f x kids rest hf hx _ =>
    intro y hy
    rw [nest_inner hf hx] at hy
    refine h y ?_
    simpa using hy

/-- In a graft of claimed trees the search passes all that it passed before. -/
theorem passed_graft (hord : span.start ≤ span.stop) (hm : ∀ y ∈ m.labels, Passed c span y)
    (hk : ∀ y ∈ k.labels, Passed c span y) : ∀ y ∈ (graft k m).labels, Passed c span y := by
  induction k generalizing m with
  | nil => exact hm
  | node n kids rest _ ih =>
    rw [graft_node]
    exact ih (passed_nest hord hm (hk n (List.mem_cons_self ..)))
      fun y hy => hk y (List.mem_cons_of_mem _ hy)

/-! ## Strays of a graft -/

/-- Trees within a span: markers where it starts, trees between the ends, markers where it
ends. -/
structure Pieces (span : Span) (f g l : Markup) : Prop where
  front : Nests span.start span.start f
  middle : Nests span.start span.stop g
  back : Nests span.stop span.stop l
  inside : ∀ x ∈ g.labels, span.start < x.span.stop ∧ x.span.start < span.stop
  apart : span.start < span.stop ∨ l = .nil

theorem exists_pieces (hk : Nests span.start span.stop k) :
    ∃ f g l, k = f ++ g ++ l ∧ Pieces span f g l := by
  have hord := hk.le
  obtain ⟨-, hfront, hright⟩ := hk.part (Nat.le_refl _) hord
  obtain ⟨hmiddle, hback, -⟩ := hright.part hord (Nat.le_refl _)
  obtain ⟨-, hstart⟩ := part_start hk
  obtain ⟨-, hstop⟩ := part_stop hright
  refine ⟨_, _, _, ?_, hfront, hmiddle, hback, ?_, ?_⟩
  · rw [Forest.append_assoc, hstop, hstart]
  · intro x hx
    have hleft := left_of_part _ hx
    have hx' : x ∈ (part span.start k).right.labels := by
      rw [← hstop, Forest.labels_append]
      exact List.mem_append_left _ hx
    have hr := right_of_part _ hx'
    have hb := hright.bounds (Forest.labels_subset_preorder hx')
    omega
  · rcases Nat.lt_or_eq_of_le hord with hlt | heq
    · exact Or.inl hlt
    · right
      rw [← heq, part_part_right]

/-- How trees within a span are spread when they have been grafted: `f₂` and `l₂` have stayed
outside the row that the search for the span opens. -/
structure Spread (c : List NodeId) (span : Span) (f g l m f₁ f₂ l₁ l₂ : Markup) : Prop where
  front : (f₁ = f ∧ f₂ = .nil) ∨ (f₁ = .nil ∧ f₂ = f)
  back : (l₁ = l ∧ l₂ = .nil) ∨ (l₁ = .nil ∧ l₂ = l)
  proper : span.start < span.stop ∨ (f₂ = .nil ∧ l₂ = .nil)
  site : site c span (graft (f₁ ++ g ++ l₁) m) =
    ⟨graft (f₁ ++ g ++ l₁) (site [] span m).row, (site [] span m).plug⟩
  row : (Markup.site c span (graft (f ++ g ++ l) m)).row =
    graft (f₁ ++ g ++ l₁) (Markup.site [] span m).row
  foundFront : ∀ x ∈ f₂.rootIds, (graft (f ++ g ++ l) m).node? x = f₂.node? x
  foundBack : ∀ x ∈ l₂.rootIds, (graft (f ++ g ++ l) m).node? x = l₂.node? x
  without : ∀ xs, (∀ x ∈ f₂.rootIds ++ l₂.rootIds, x ∈ xs) →
    (∀ x ∈ xs, x ≠ 0 ∧ x ∉ m.ids ∧ x ∉ ids (f₁ ++ g ++ l₁)) →
    Markup.without xs (graft (f ++ g ++ l) m) = graft (f₁ ++ g ++ l₁) m

theorem rootIds_append (f g : Markup) : rootIds (f ++ g) = rootIds f ++ rootIds g := by
  simp [rootIds]

/-- The trees of `f` all go one way. -/
def OneWay (f f₁ f₂ : Markup) : Prop := (f₁ = f ∧ f₂ = .nil) ∨ (f₁ = .nil ∧ f₂ = f)

namespace OneWay

variable {f₁ f₂ f₃ : Markup}

/-- Those that went the first way take another decision. -/
theorem trans (h : OneWay f f₁ f₃) (h' : OneWay f₁ g f₂) : OneWay f g (f₃ ++ f₂) := by
  rcases h with ⟨rfl, rfl⟩ | ⟨rfl, rfl⟩
  · exact h'
  · obtain ⟨rfl, rfl⟩ : g = .nil ∧ f₂ = .nil := h'.elim id id
    exact Or.inr ⟨rfl, Forest.append_nil _⟩

theorem nests (h : OneWay f f₁ f₂) (hf : Nests pos pos f) : Nests pos pos f₁ := by
  rcases h with ⟨rfl, -⟩ | ⟨rfl, -⟩
  · exact hf
  · exact nests_nil.mpr (Nat.le_refl _)

theorem tagged (h : OneWay f f₁ f₂) (hf : Tagged f) : Tagged f₁ := by
  rcases h with ⟨rfl, -⟩ | ⟨rfl, -⟩
  · exact hf
  · trivial

theorem labels_subset (h : OneWay f f₁ f₂) : f₁.labels ⊆ f.labels := by
  rcases h with ⟨rfl, -⟩ | ⟨rfl, -⟩
  · exact List.Subset.refl _
  · exact List.nil_subset _

theorem rootIds_subset (h : OneWay f f₁ f₂) : f₁.rootIds ⊆ f.rootIds :=
  List.map_subset _ h.labels_subset

end OneWay

/-- Of trees within a span those in the middle, and those at the ends that go with them. -/
theorem Pieces.within {f₁ f₂ l₁ l₂ : Markup} (h : Pieces span f g l) (hf : OneWay f f₁ f₂)
    (hl : OneWay l l₁ l₂) : Pieces span f₁ g l₁ where
  front := hf.nests h.front
  middle := h.middle
  back := hl.nests h.back
  inside := h.inside
  apart := by
    rcases hl with ⟨rfl, -⟩ | ⟨rfl, -⟩
    · exact h.apart
    · exact Or.inr rfl

theorem Tagged.within {f₁ f₂ l₁ l₂ : Markup} (h : Tagged (f ++ g ++ l)) (hf : OneWay f f₁ f₂)
    (hl : OneWay l l₁ l₂) : Tagged (f₁ ++ g ++ l₁) := by
  obtain ⟨⟨htf, htg, hfg⟩, htl, hfgl⟩ := (tagged_append.mp h).imp_left tagged_append.mp
  refine tagged_append.mpr ⟨tagged_append.mpr ⟨hf.tagged htf, htg, fun x hx =>
    hfg x (hf.rootIds_subset hx)⟩, hl.tagged htl, fun x hx hx' =>
      hfgl x ?_ (hl.rootIds_subset hx')⟩
  rw [rootIds_append, List.mem_append] at hx ⊢
  exact hx.imp_left fun hx => hf.rootIds_subset hx

/-- Markers at the start of a span go into a node that has room for it, or in front of it. -/
theorem graft_around_front {y : Node} (hm : Nests lo hi (row ++ .node y kids rest))
    (hy : y.span.admits span = true) (hord : span.start ≤ span.stop) (h : Pieces span f g l) :
    ∃ f₁ f₂, OneWay f f₁ f₂ ∧ (span.start < span.stop ∨ f₂ = .nil) ∧
      Nests lo y.span.start (row ++ f₂) ∧
      (∀ x ∈ f₁.labels, y.span.start ≤ x.span.start ∧ y.span.admits x.span = true) ∧
      graft f (row ++ .node y kids rest) = row ++ f₂ ++ .node y (graft f₁ kids) rest := by
  have hadmits := Span.admits_iff.mp hy
  obtain ⟨hrow, -, -⟩ := nests_around.mp hm
  by_cases hstart : y.span.start < span.start
  · have hin : ∀ x ∈ f.labels, y.span.start ≤ x.span.start ∧ y.span.admits x.span = true := by
      intro x hx
      have hb := h.front.bounds (Forest.labels_subset_preorder hx)
      rw [Span.admits_iff]
      omega
    refine ⟨f, .nil, Or.inl ⟨rfl, rfl⟩, Or.inr rfl, ?_, hin, ?_⟩
    · rwa [Forest.append_nil]
    · rw [Forest.append_nil, graft_inner hrow hin]
  · have hspan : span.start = y.span.start := by omega
    refine ⟨.nil, f, Or.inr ⟨rfl, rfl⟩, Or.inl (by omega), ?_, ?_, ?_⟩
    · exact hrow.append (hspan ▸ h.front)
    · exact fun x hx => absurd hx (List.not_mem_nil)
    · rw [graft_front hm (by omega) (hspan ▸ h.front), graft_nil]

/-- Markers at the end of a span go into a node that has room for it, or behind it. -/
theorem graft_around_back {y : Node} (hm : Nests lo hi (row ++ .node y kids rest))
    (hy : y.span.admits span = true) (hord : span.start ≤ span.stop) (h : Pieces span f g l) :
    ∃ l₁ l₂ r r', OneWay l l₁ l₂ ∧ (span.start < span.stop ∨ l₂ = .nil) ∧ rest = r ++ r' ∧
      (∀ x ∈ l₁.labels, y.span.start ≤ x.span.start ∧ y.span.admits x.span = true) ∧
      graft l (row ++ .node y kids rest) = row ++ .node y (graft l₁ kids) (r ++ l₂ ++ r') := by
  have hadmits := Span.admits_iff.mp hy
  obtain ⟨hrow, -, -⟩ := nests_around.mp hm
  by_cases hstop : span.stop < y.span.stop
  · have hin : ∀ x ∈ l.labels, y.span.start ≤ x.span.start ∧ y.span.admits x.span = true := by
      intro x hx
      have hb := h.back.bounds (Forest.labels_subset_preorder hx)
      rw [Span.admits_iff]
      omega
    refine ⟨l, .nil, .nil, rest, Or.inl ⟨rfl, rfl⟩, Or.inr rfl, rfl, hin, ?_⟩
    rw [graft_inner hrow hin]
    rfl
  · have hspan : span.stop = y.span.stop := by omega
    obtain ⟨r, r', hr, hgraft⟩ := graft_back hm (by omega) (hspan ▸ h.back)
    refine ⟨.nil, l, r, r', Or.inr ⟨rfl, rfl⟩, Or.inl (by omega), hr, ?_, hgraft⟩
    exact fun x hx => absurd hx (List.not_mem_nil)

/-- The trees around a node that has room for their span: those that go into it, and markers that
stay at its ends. -/
theorem graft_around {y : Node} (hm : Nests lo hi (row ++ .node y kids rest))
    (hy : y.span.admits span = true) (hord : span.start ≤ span.stop) (h : Pieces span f g l) :
    ∃ f₁ f₂ l₁ l₂ r r', ((f₁ = f ∧ f₂ = .nil) ∨ (f₁ = .nil ∧ f₂ = f)) ∧
      ((l₁ = l ∧ l₂ = .nil) ∨ (l₁ = .nil ∧ l₂ = l)) ∧
      (span.start < span.stop ∨ (f₂ = .nil ∧ l₂ = .nil)) ∧ rest = r ++ r' ∧
      (∀ x ∈ f₁.labels ++ g.labels ++ l₁.labels,
        y.span.start ≤ x.span.start ∧ y.span.admits x.span = true) ∧
      graft (f ++ g ++ l) (row ++ .node y kids rest) =
        row ++ f₂ ++ .node y (graft (f₁ ++ g ++ l₁) kids) (r ++ l₂ ++ r') := by
  have hadmits := Span.admits_iff.mp hy
  obtain ⟨hrow, hkids, hrest⟩ := nests_around.mp hm
  have hg : ∀ x ∈ g.labels, y.span.start ≤ x.span.start ∧ y.span.admits x.span = true := by
    intro x hx
    have hb := h.middle.bounds (Forest.labels_subset_preorder hx)
    have hi := h.inside x hx
    rw [Span.admits_iff]
    omega
  obtain ⟨f₁, f₂, hf, hprop, hrow₂, hin₁, hgraft₁⟩ := graft_around_front hm hy hord h
  have hkids₁ : Nests y.span.start y.span.stop (graft g (graft f₁ kids)) := by
    have hle := h.middle.le
    exact nests_graft (nests_graft hkids (hf.nests h.front) (by omega) (by omega)) h.middle
      (by omega) (by omega)
  obtain ⟨l₁, l₂, r, r', hl, hprop', hr, hin₂, hgraft₂⟩ :=
    graft_around_back (nests_around.mpr ⟨hrow₂, hkids₁, hrest⟩) hy hord h
  refine ⟨f₁, f₂, l₁, l₂, r, r', hf, hl, ?_, hr, fun x hx => ?_, ?_⟩
  · rcases hprop with hprop | hprop
    · exact Or.inl hprop
    · exact hprop'.imp_right fun hl₂ => ⟨hprop, hl₂⟩
  · rw [List.mem_append, List.mem_append] at hx
    rcases hx with (hx | hx) | hx
    · exact hin₁ x hx
    · exact hg x hx
    · exact hin₂ x hx
  · rw [graft_append, graft_append, hgraft₁, graft_inner hrow₂ hg, hgraft₂, graft_append,
      graft_append]

/-- In a row that no tree of a graft goes into deeper, the search finds them all. -/
theorem spread_row (hclosed : ∀ y ∈ m.labels, enters [] span y = false)
    (hord : span.start ≤ span.stop) (h : Pieces span f g l)
    (hc : ∀ x ∈ rootIds (f ++ g ++ l), x ∈ c) : Spread c span f g l m f .nil l .nil := by
  have hpassed : ∀ y ∈ (graft (f ++ g ++ l) m).labels, Passed c span y := by
    refine passed_graft hord (fun y hy => Or.inr (hclosed y hy)) fun y hy => ?_
    have hid : y.id ∈ rootIds (f ++ g ++ l) := List.mem_map_of_mem hy
    have hnest : Nests span.start span.stop (f ++ g ++ l) :=
      (h.front.append h.middle).append h.back
    have hb := hnest.bounds (Forest.labels_subset_preorder hy)
    exact Or.inl ⟨hc _ hid, hb.1, hb.2.2⟩
  have hsite : site c span (graft (f ++ g ++ l) m) = ⟨graft (f ++ g ++ l) m, id⟩ :=
    site_of_none fun y hy => (hpassed y hy).not_entered
  have hsite₀ : site [] span m = ⟨m, id⟩ := site_of_none hclosed
  refine ⟨Or.inl ⟨rfl, rfl⟩, Or.inl ⟨rfl, rfl⟩, Or.inr ⟨rfl, rfl⟩, ?_, ?_,
    fun x hx => absurd hx (List.not_mem_nil), fun x hx => absurd hx (List.not_mem_nil),
    fun xs _ hxs => ?_⟩
  · rw [hsite, hsite₀]
  · rw [hsite, hsite₀]
  · refine without_of_disjoint fun x hx hmem => ?_
    obtain ⟨h0, hnot, hnot'⟩ := hxs x hx
    exact ((mem_ids_graft h0).mp hmem).elim hnot' hnot

section Inward

/-! A row with a node `y` that the trees `f₀`, `g` and `l₀` of a graft go into, while `f₃` and `l₃`
stay in front of it and behind it. -/

variable {y : Node} {r r' f₀ f₁ f₂ f₃ l₀ l₁ l₂ l₃ : Markup}
  (hgraft : graft (f ++ g ++ l) (row ++ .node y kids (r ++ r')) =
    row ++ f₃ ++ .node y (graft (f₀ ++ g ++ l₀) kids) (r ++ l₃ ++ r'))
  (hf : OneWay f f₀ f₃) (hl : OneWay l l₀ l₃) (ht : Tagged (f ++ g ++ l))
  (hc : ∀ x ∈ rootIds (f ++ g ++ l), x ∈ c)
  (hout : ∀ x ∈ c, x ∉ ids (row ++ .node y kids (r ++ r')))
  (S : Spread c span f₀ g l₀ kids f₁ f₂ l₁ l₂)

include hgraft hout in
/-- Claimed trees are in the node or at its ends. -/
theorem node?_inward (hx : x ∈ c) :
    (graft (f ++ g ++ l) (row ++ .node y kids (r ++ r'))).node? x =
      (f₃.node? x).or (((graft (f₀ ++ g ++ l₀) kids).node? x).or (l₃.node? x)) := by
  have hx := hout x hx
  simp only [ids_append, ids_node, List.mem_append, List.mem_cons, not_or] at hx
  obtain ⟨hrow, hne, -, hr, hr'⟩ := hx
  rw [hgraft]
  simp only [node?_append, node?_node, if_neg (Ne.symm hne), node?_eq_none_iff.mpr hrow,
    node?_eq_none_iff.mpr hr, node?_eq_none_iff.mpr hr', Option.none_or, Option.or_none]

include hgraft hf hc hout S in
theorem foundFront_inward (hx : x ∈ rootIds (f₃ ++ f₂)) :
    (graft (f ++ g ++ l) (row ++ .node y kids (r ++ r'))).node? x = (f₃ ++ f₂).node? x := by
  have hcf : ∀ x ∈ rootIds f, x ∈ c := fun x hx => hc x (by
    rw [rootIds_append, rootIds_append]
    exact List.mem_append_left _ (List.mem_append_left _ hx))
  obtain ⟨t, hfound⟩ := exists_node? (mem_ids_of_rootIds hx)
  rcases hf with ⟨rfl, rfl⟩ | ⟨rfl, rfl⟩
  · have hxf : x ∈ rootIds f₀ := by
      rcases S.front with ⟨-, rfl⟩ | ⟨-, rfl⟩
      · cases hx
      · exact hx
    rw [Forest.nil_append] at hx hfound
    rw [node?_inward hgraft hout (hcf x hxf), S.foundFront x hx, Forest.nil_append, hfound]
    rfl
  · obtain rfl : f₂ = .nil := S.front.elim (·.2) (·.2)
    rw [Forest.append_nil] at hx hfound
    rw [node?_inward hgraft hout (hcf x hx), Forest.append_nil, hfound]
    rfl

include hgraft hf hl ht hc hout S in
theorem foundBack_inward (hx : x ∈ rootIds (l₃ ++ l₂)) :
    (graft (f ++ g ++ l) (row ++ .node y kids (r ++ r'))).node? x = (l₃ ++ l₂).node? x := by
  obtain ⟨htfg, htl, hfgl⟩ := tagged_append.mp ht
  have hxl : x ∈ rootIds l := by
    rcases hl.trans S.back with ⟨-, hnil⟩ | ⟨-, hall⟩
    · rw [hnil] at hx
      cases hx
    · rwa [hall] at hx
  have hxc : x ∈ c := hc x (by
    rw [rootIds_append]
    exact List.mem_append_right _ hxl)
  have hne := Tagged.ne_zero htl hxl
  have hnot : x ∉ ids (f ++ g) := fun hmem =>
    (Tagged.mem_ids htfg hmem).elim hne fun hroot => hfgl x hroot hxl
  rw [ids_append, List.mem_append, not_or] at hnot
  have hf₃ : f₃.node? x = none := by
    rcases hf with ⟨-, rfl⟩ | ⟨-, rfl⟩
    · rfl
    · exact node?_eq_none_iff.mpr hnot.1
  rw [node?_inward hgraft hout hxc, hf₃, Option.none_or]
  rcases hl with ⟨rfl, rfl⟩ | ⟨rfl, rfl⟩
  · rw [Forest.nil_append] at hx
    rw [S.foundBack x hx, Forest.nil_append, node?_nil, Option.or_none]
  · obtain rfl : l₂ = .nil := S.back.elim (·.2) (·.2)
    have hf₀ : x ∉ f₀.ids := by
      rcases hf with ⟨rfl, -⟩ | ⟨rfl, -⟩
      · exact hnot.1
      · exact List.not_mem_nil
    have hkids : (graft (f₀ ++ g ++ .nil) kids).node? x = none := by
      rw [node?_eq_none_iff, mem_ids_graft hne, Forest.append_nil, ids_append, List.mem_append]
      rintro ((hmem | hmem) | hmem)
      · exact hf₀ hmem
      · exact hnot.2 hmem
      · exact hout x hxc (by simp [hmem])
    rw [hkids, Option.none_or, Forest.append_nil]

include hgraft S in
/-- Without what stays outside, the node is all that the graft has changed. -/
theorem without_inward {xs : List NodeId}
    (hxs : ∀ x ∈ rootIds (f₃ ++ f₂) ++ rootIds (l₃ ++ l₂), x ∈ xs)
    (hdisj : ∀ x ∈ xs, x ≠ 0 ∧ x ∉ ids (row ++ .node y kids (r ++ r')) ∧
      x ∉ ids (f₁ ++ g ++ l₁)) :
    without xs (graft (f ++ g ++ l) (row ++ .node y kids (r ++ r'))) =
      row ++ .node y (graft (f₁ ++ g ++ l₁) kids) (r ++ r') := by
  simp only [rootIds_append, List.mem_append] at hxs
  have hrootf : without xs f₃ = .nil :=
    without_roots f₃ fun x hx => hxs x (Or.inl (Or.inl hx))
  have hrootl : without xs l₃ = .nil :=
    without_roots l₃ fun x hx => hxs x (Or.inr (Or.inl hx))
  have hyxs : y.id ∉ xs := fun hmem => (hdisj _ hmem).2.1 (by simp)
  have hsame (w : Markup) (hw : ∀ x ∈ ids w, x ∈ ids (row ++ .node y kids (r ++ r'))) :
      without xs w = w :=
    without_of_disjoint fun x hx hmem => (hdisj x hx).2.1 (hw x hmem)
  have hkids : without xs (graft (f₀ ++ g ++ l₀) kids) = graft (f₁ ++ g ++ l₁) kids := by
    refine S.without xs (fun x hx => hxs x ?_) fun x hx => ?_
    · exact (List.mem_append.mp hx).imp Or.inr Or.inr
    · obtain ⟨h0, hnot, hnot'⟩ := hdisj x hx
      exact ⟨h0, fun hmem => hnot (by simp [hmem]), hnot'⟩
  rw [hgraft, without_append, without_append, without_node, if_neg hyxs, hkids, hrootf,
    without_append, without_append, hrootl, hsame row fun x hx => by simp [hx],
    hsame r fun x hx => by simp [hx], hsame r' fun x hx => by simp [hx], Forest.append_nil,
    Forest.append_nil]

end Inward

/-- The search for a span after trees within it have been grafted. -/
theorem spread (hm : Nests lo hi m) (hord : span.start ≤ span.stop) (h : Pieces span f g l)
    (ht : Tagged (f ++ g ++ l)) (hc : ∀ x ∈ rootIds (f ++ g ++ l), x ∈ c)
    (hout : ∀ x ∈ c, x ∉ m.ids) :
    ∃ f₁ f₂ l₁ l₂, Spread c span f g l m f₁ f₂ l₁ l₂ := by
  induction m using Forest.focus_induction (enters [] span) generalizing lo hi f l with
  | row m hclosed => exact ⟨f, .nil, l, .nil, spread_row hclosed hord h hc⟩
  | inner row y kids rest hrow hy ih =>
    have hadmits : y.span.admits span = true := enters_nil.symm.trans hy
    obtain ⟨hnrow, hnkids, -⟩ := nests_around.mp hm
    obtain ⟨f₀, f₃, l₀, l₃, r, r', hf, hl, hprop, rfl, hin, hgraft⟩ :=
      graft_around hm hadmits hord h
    have hyc : y.id ∉ c := fun hmem => hout _ hmem (by simp)
    have hyenters : enters c span y = true := enters_iff.mpr ⟨hyc, hadmits⟩
    have hrow' : ∀ b ∈ row.labels, enters c span b = false :=
      fun b hb => Passed.not_entered (Or.inr (hrow b hb))
    -- the trees that go into the node, for the induction hypothesis
    have hsub : rootIds (f₀ ++ g ++ l₀) ⊆ rootIds (f ++ g ++ l) := by
      intro x
      simp only [rootIds_append, List.mem_append]
      exact Or.imp (Or.imp_left fun hx => OneWay.rootIds_subset hf hx) fun hx =>
        OneWay.rootIds_subset hl hx
    obtain ⟨f₁, f₂, l₁, l₂, S⟩ := ih hnkids (h.within hf hl) (ht.within hf hl)
      (fun x hx => hc x (hsub hx)) fun x hx hmem => hout x hx (by simp [hmem])
    have hinner : graft (f₁ ++ g ++ l₁) (row ++ .node y kids (r ++ r')) =
        row ++ .node y (graft (f₁ ++ g ++ l₁) kids) (r ++ r') := by
      refine graft_inner hnrow (fun x hx => hin x ?_) kids (r ++ r')
      simp only [Forest.labels_append, List.mem_append] at hx ⊢
      exact hx.imp (Or.imp_left fun hx => OneWay.labels_subset S.front hx) fun hx =>
        OneWay.labels_subset S.back hx
    refine ⟨f₁, f₃ ++ f₂, l₁, l₃ ++ l₂, OneWay.trans hf S.front, OneWay.trans hl S.back, ?_, ?_, ?_,
      fun x hx => foundFront_inward hgraft hf hc hout S hx,
      fun x hx => foundBack_inward hgraft hf hl ht hc hout S hx,
      fun xs hxs hdisj => hinner ▸ without_inward hgraft S hxs hdisj⟩
    · rcases hprop with hprop | ⟨rfl, rfl⟩
      · exact Or.inl hprop
      · exact S.proper
    · rw [hinner, site_append_node hrow' hyenters, site_append_node hrow hy, S.site]
    · have hrow₃ : ∀ b ∈ (row ++ f₃).labels, enters c span b = false := by
        intro b hb
        rw [Forest.labels_append, List.mem_append] at hb
        rcases hb with hb | hb
        · exact hrow' b hb
        · rcases hf with ⟨-, rfl⟩ | ⟨-, rfl⟩
          · cases hb
          · have := h.front.bounds (Forest.labels_subset_preorder hb)
            exact Passed.not_entered (passed_marker (by omega))
      rw [hgraft, site_append_node hrow₃ hyenters, site_append_node hrow hy]
      exact S.row

/-! ## The enclosure of a graft -/

theorem mem_ids_part (hx : x ≠ 0)
    (h : x ∈ (part pos m).lifted.ids ∨ x ∈ (part pos m).right.ids) : x ∈ m.ids := by
  have hcount := count_ids_part hx pos m
  rw [← List.count_pos_iff, ← List.count_pos_iff] at h
  rw [← List.count_pos_iff]
  omega

/-- Of markers that were there and claimed trees behind them, the claimed ones are kept. -/
theorem keep_claimed_append (hm : ∀ x ∈ c, x ∉ m.ids) (hk : ∀ x ∈ k.rootIds, x ∈ c) :
    (m ++ k).keep (isClaimed c) = k ∧ (m ++ k).drop (isClaimed c) = m := by
  have hno : ∀ y ∈ m.labels, isClaimed c y = false := by
    intro y hy
    rw [isClaimed, decide_eq_false_iff_not]
    exact fun hmem => hm _ hmem (id_mem_ids (Forest.labels_subset_preorder hy))
  have hall : ∀ y ∈ k.labels, isClaimed c y = true := by
    intro y hy
    rw [isClaimed, decide_eq_true_eq]
    exact hk _ (List.mem_map_of_mem hy)
  unfold Forest.drop
  rw [Forest.keep_append, Forest.keep_append, Forest.keep_of_none hno, Forest.keep_of_all hall,
    Forest.keep_of_all fun y hy => by rw [hno y hy]; rfl,
    Forest.keep_of_none fun y hy => by rw [hall y hy]; rfl]
  exact ⟨rfl, Forest.append_nil m⟩

/-- Where the trees of a span go at its start. -/
theorem part_graft_start (hrow : Nests lo hi row) (hlo : lo ≤ span.start)
    (hord : span.start ≤ span.stop) (hhi : span.stop ≤ hi) (h : Pieces span f g l) :
    part span.start (graft (f ++ g ++ l) row) =
      { left := (part span.start row).left
        lifted := (part span.start row).lifted ++ f
        right := graft (g ++ l) (part span.start row).right } := by
  rw [Forest.append_assoc, graft_append, part_graft_right,
    part_graft_markers hrow hlo (Nat.le_trans hord hhi) h.front]
  intro x hx
  rw [Forest.labels_append, List.mem_append] at hx
  rcases hx with hx | hx
  · have hb := h.middle.bounds (Forest.labels_subset_preorder hx)
    have hin := h.inside x hx
    omega
  · have hb := h.back.bounds (Forest.labels_subset_preorder hx)
    rcases h.apart with hlt | rfl
    · omega
    · cases hx

/-- Where the rest of them go at its end. -/
theorem part_graft_stop (hrow : Nests span.start hi row) (hhi : span.stop ≤ hi)
    (h : Pieces span f g l) :
    part span.stop (graft (g ++ l) row) =
      { left := graft g (part span.stop row).left
        lifted := (part span.stop row).lifted ++ l
        right := (part span.stop row).right } := by
  have hord := h.middle.le
  rw [graft_append, part_graft_markers (nests_graft hrow h.middle (Nat.le_refl _) hhi) hord hhi
    h.back, part_graft_left]
  intro x hx
  have hb := h.middle.bounds (Forest.labels_subset_preorder hx)
  have hin := h.inside x hx
  omega

/-- A graft of trees within a span, opened for the span. -/
theorem parted_graft (hrow : Nests lo hi row) (hlo : lo ≤ span.start)
    (hord : span.start ≤ span.stop) (hhi : span.stop ≤ hi) (h : Pieces span f g l)
    (hf : ∀ x ∈ rootIds f, x ∈ c) (hl : ∀ x ∈ rootIds l, x ∈ c)
    (hout : ∀ x ∈ c, x ≠ 0 ∧ x ∉ row.ids) :
    parted c span (graft (f ++ g ++ l) row) =
      { before := (part span.start row).left ++ (part span.start row).lifted
        inside := f ++ graft g (part span.stop (part span.start row).right).left ++ l
        after := (part span.stop (part span.start row).right).lifted ++
          (part span.stop (part span.start row).right).right } := by
  have hright := (hrow.part hlo (Nat.le_trans hord hhi)).2.2
  obtain ⟨hkeep, hdrop⟩ := keep_claimed_append (m := (part span.start row).lifted)
    (fun x hx hmem => (hout x hx).2 (mem_ids_part (hout x hx).1 (Or.inl hmem))) hf
  obtain ⟨hkeep', hdrop'⟩ :=
    keep_claimed_append (m := (part span.stop (part span.start row).right).lifted)
      (fun x hx hmem => (hout x hx).2 (mem_ids_part (hout x hx).1 (Or.inr
        (mem_ids_part (hout x hx).1 (Or.inl hmem))))) hl
  rw [parted, part_graft_start hrow hlo hord hhi h]
  simp only
  rw [part_graft_stop hright hhi h]
  simp only
  rw [hkeep, hdrop, hkeep', hdrop']

/-- What a graft leaves inside a span. -/
theorem graft_inside (hrow : Nests span.start span.stop row)
    (hstart : (part span.start row).lifted = .nil) (hstop : (part span.stop row).lifted = .nil)
    (h : Pieces span f g l) : graft (f ++ g ++ l) row = f ++ graft g row ++ l := by
  have hord := hrow.le
  have hk : Nests span.start span.stop (f ++ g ++ l) := (h.front.append h.middle).append h.back
  obtain ⟨-, hright⟩ := part_start hrow
  obtain ⟨-, hleft⟩ := part_stop hrow
  rw [hstart, Forest.nil_append] at hright
  rw [hstop, Forest.append_nil] at hleft
  obtain ⟨-, hall⟩ := part_start (nests_graft hrow hk (Nat.le_refl _) (Nat.le_refl _))
  have hgl : Nests span.start span.stop (graft (g ++ l) row) :=
    nests_graft hrow (h.middle.append h.back) (Nat.le_refl _) (Nat.le_refl _)
  obtain ⟨-, hall'⟩ := part_stop hgl
  rw [part_graft_start hrow (Nat.le_refl _) hord (Nat.le_refl _) h, hright, hstart] at hall
  rw [part_graft_stop hrow (Nat.le_refl _) h, hleft, hstop] at hall'
  simp only [Forest.nil_append] at hall hall'
  rw [← hall, ← hall', Forest.append_assoc]

/-- Markers at the start of a span, in front of what a graft leaves inside it. -/
theorem keep_markerAt_graft (hrow : Nests span.start span.stop row)
    (hstart : (part span.start row).lifted = .nil) (h : Pieces span f g l) :
    (f ++ graft g row ++ l).keep (markerAt span.start) = f ∧
      (f ++ graft g row ++ l).drop (markerAt span.start) = graft g row ++ l := by
  have hf : ∀ y ∈ f.labels, markerAt span.start y = true := by
    intro y hy
    have hb := h.front.bounds (Forest.labels_subset_preorder hy)
    rw [markerAt_iff]
    omega
  have hrest : ∀ y ∈ (graft g row ++ l).labels, markerAt span.start y = false := by
    intro y hy
    rw [← Bool.not_eq_true, markerAt_iff]
    rw [Forest.labels_append, List.mem_append] at hy
    rcases hy with hy | hy
    · have hnests := nests_graft hrow h.middle (Nat.le_refl _) (Nat.le_refl _)
      have hpart : part span.start (graft g row) =
          { part span.start row with right := graft g (part span.start row).right } := by
        refine part_graft_right (fun x hx => ?_) row
        have hb := h.middle.bounds (Forest.labels_subset_preorder hx)
        have hin := h.inside x hx
        omega
      obtain ⟨-, hall⟩ := part_start hnests
      rw [hpart, hstart, Forest.nil_append] at hall
      rw [← hall] at hy
      have hy' : y ∈ (part span.start (graft g row)).right.labels := by
        rw [hpart]
        exact hy
      have hr := right_of_part _ hy'
      omega
    · have hb := h.back.bounds (Forest.labels_subset_preorder hy)
      rcases h.apart with hlt | rfl
      · omega
      · cases hy
  rw [Forest.append_assoc]
  generalize graft g row ++ l = w at hrest ⊢
  unfold Forest.drop
  rw [Forest.keep_append, Forest.keep_append, Forest.keep_of_all hf, Forest.keep_of_none hrest,
    Forest.keep_of_none fun y hy => by rw [hf y hy]; rfl,
    Forest.keep_of_all fun y hy => by rw [hrest y hy]; rfl]
  exact ⟨Forest.append_nil f, rfl⟩

/-- Trees of markers that are found stand where the markers do. -/
theorem standsAt_found {p : Nat} (hk : Nests p p k) (hfound : ∀ x ∈ k.rootIds, m.node? x = k.node? x)
    (hx : x ∈ k.rootIds) (pos : Nat) : standsAt m pos x = (p == pos) := by
  obtain ⟨t, ht⟩ := exists_node? (mem_ids_of_rootIds hx)
  have hlabel : t.label ∈ k.preorder := (node?_spec ht).2 _ (by simp [Forest.ofTree])
  have hb := hk.bounds hlabel
  have hstart : t.label.span.start = p := by omega
  rw [standsAt, hfound x hx, ht, Option.any_some, hstart]

namespace Spread

variable {f₁ f₂ l₁ l₂ : Markup} (S : Spread c span f g l m f₁ f₂ l₁ l₂) (h : Pieces span f g l)
  (ht : Tagged (f ++ g ++ l)) (hc : c = rootIds (f ++ g ++ l)) (hout : ∀ x ∈ c, x ∉ m.ids)

include S ht hc hout

/-- The row that is opened holds the claimed trees that are no strays. -/
theorem mem_row_iff (hx : x ∈ c) : x ∈ ids (Markup.site c span (graft (f ++ g ++ l) m)).row ↔
    x ∈ rootIds f₁ ∨ x ∈ rootIds g ∨ x ∈ rootIds l₁ := by
  have hne : x ≠ 0 := ht.ne_zero (hc ▸ hx)
  have hnot : x ∉ ids (Markup.site [] span m).row := fun hmem => hout x hx (ids_of_site hmem)
  obtain ⟨⟨htf, htg, -⟩, htl, -⟩ := (tagged_append.mp ht).imp_left tagged_append.mp
  have hroot {k : Markup} (hk : Tagged k) : x ∈ ids k ↔ x ∈ rootIds k :=
    ⟨fun hmem => (hk.mem_ids hmem).resolve_left hne, mem_ids_of_rootIds⟩
  have hf₁ : Tagged f₁ := by
    rcases S.front with ⟨rfl, -⟩ | ⟨rfl, -⟩
    · exact htf
    · trivial
  have hl₁ : Tagged l₁ := by
    rcases S.back with ⟨rfl, -⟩ | ⟨rfl, -⟩
    · exact htl
    · trivial
  rw [S.row, mem_ids_graft hne, ids_append, ids_append, List.mem_append, List.mem_append, hroot hf₁,
    hroot htg, hroot hl₁, or_iff_left hnot, or_assoc]

/-- The strays among claimed trees. -/
theorem strays_eq : strays c span (graft (f ++ g ++ l) m) = f₂.rootIds ++ l₂.rootIds := by
  have hmem (x : NodeId) (hx : x ∈ c) := S.mem_row_iff ht hc hout hx
  obtain ⟨⟨-, -, hfg⟩, -, hfgl⟩ := (tagged_append.mp ht).imp_left tagged_append.mp
  simp only [rootIds_append, List.mem_append] at hfgl
  unfold strays
  generalize ids (Markup.site c span (graft (f ++ g ++ l) m)).row = w at hmem ⊢
  rw [hc, rootIds_append, rootIds_append] at hmem ⊢
  simp only [List.mem_append] at hmem
  have hmiddle : (rootIds g).filter (fun x => decide (x ∉ w)) = [] := by
    refine List.filter_eq_nil_iff.mpr fun x hx => ?_
    rw [decide_eq_true_eq, hmem x (Or.inl (Or.inr hx))]
    exact not_not_intro (Or.inr (Or.inl hx))
  have hfront : (rootIds f).filter (fun x => decide (x ∉ w)) = rootIds f₂ := by
    rcases S.front with ⟨hf, rfl⟩ | ⟨hf, rfl⟩
    · refine List.filter_eq_nil_iff.mpr fun x hx => ?_
      rw [decide_eq_true_eq, hmem x (Or.inl (Or.inl hx)), hf]
      exact not_not_intro (Or.inl hx)
    · refine List.filter_eq_self.mpr fun x hx => ?_
      rw [decide_eq_true_eq, hmem x (Or.inl (Or.inl hx)), hf]
      rintro (hx' | hx' | hx')
      · cases hx'
      · exact hfg x hx hx'
      · rcases S.back with ⟨hl, -⟩ | ⟨hl, -⟩
        · exact hfgl x (Or.inl hx) (hl ▸ hx')
        · rw [hl] at hx'
          cases hx'
  have hback : (rootIds l).filter (fun x => decide (x ∉ w)) = rootIds l₂ := by
    rcases S.back with ⟨hl, rfl⟩ | ⟨hl, rfl⟩
    · refine List.filter_eq_nil_iff.mpr fun x hx => ?_
      rw [decide_eq_true_eq, hmem x (Or.inr hx), hl]
      exact not_not_intro (Or.inr (Or.inr hx))
    · refine List.filter_eq_self.mpr fun x hx => ?_
      rw [decide_eq_true_eq, hmem x (Or.inr hx), hl]
      rintro (hx' | hx' | hx')
      · rcases S.front with ⟨hf, -⟩ | ⟨hf, -⟩
        · exact hfgl x (Or.inl (hf ▸ hx')) hx
        · rw [hf] at hx'
          cases hx'
      · exact hfgl x (Or.inr hx') hx
      · cases hx'
  rw [List.filter_append, List.filter_append, hfront, hmiddle, hback, List.append_nil]

/-- Without its strays the graft is a graft of the other trees. -/
theorem without_strays : Markup.without (strays c span (graft (f ++ g ++ l) m))
    (graft (f ++ g ++ l) m) = graft (f₁ ++ g ++ l₁) m := by
  obtain ⟨⟨htf, htg, -⟩, htl, -⟩ := (tagged_append.mp ht).imp_left tagged_append.mp
  refine S.without _ (fun x hx => ?_) fun x hx => ?_
  · rwa [S.strays_eq ht hc hout]
  · obtain ⟨hxc, hnot⟩ := List.mem_filter.mp hx
    have hne : x ≠ 0 := ht.ne_zero (hc ▸ hxc)
    rw [decide_eq_true_eq, S.mem_row_iff ht hc hout hxc, not_or, not_or] at hnot
    refine ⟨hne, hout x hxc, fun hmem => ?_⟩
    rw [ids_append, ids_append, List.mem_append, List.mem_append] at hmem
    rcases hmem with (hmem | hmem) | hmem
    · rcases S.front with ⟨rfl, -⟩ | ⟨rfl, -⟩
      · exact hnot.1 ((htf.mem_ids hmem).resolve_left hne)
      · cases hmem
    · exact hnot.2.1 ((htg.mem_ids hmem).resolve_left hne)
    · rcases S.back with ⟨rfl, -⟩ | ⟨rfl, -⟩
      · exact hnot.2.2 ((htl.mem_ids hmem).resolve_left hne)
      · cases hmem

include h

/-- The strays that are fetched are the trees that stayed outside. -/
theorem fetched_eq : fetched c span (graft (f ++ g ++ l) m) span.start = f₂ ∧
    fetched c span (graft (f ++ g ++ l) m) span.stop = l₂ := by
  obtain ⟨⟨htf, -, -⟩, htl, -⟩ := (tagged_append.mp ht).imp_left tagged_append.mp
  have hf₂ : Tagged f₂ ∧ Nests span.start span.start f₂ := by
    rcases S.front with ⟨-, rfl⟩ | ⟨-, rfl⟩
    · exact ⟨trivial, nests_nil.mpr (Nat.le_refl _)⟩
    · exact ⟨htf, h.front⟩
  have hl₂ : Tagged l₂ ∧ Nests span.stop span.stop l₂ := by
    rcases S.back with ⟨-, rfl⟩ | ⟨-, rfl⟩
    · exact ⟨trivial, nests_nil.mpr (Nat.le_refl _)⟩
    · exact ⟨htl, h.back⟩
  have h0 : 0 ∉ f₂.rootIds ++ l₂.rootIds := by
    rw [List.mem_append]
    rintro (hx | hx)
    · exact hf₂.1.ne_zero hx rfl
    · exact hl₂.1.ne_zero hx rfl
  have hfront := fun x (hx : x ∈ f₂.rootIds) => standsAt_found hf₂.2 S.foundFront hx
  have hback := fun x (hx : x ∈ l₂.rootIds) => standsAt_found hl₂.2 S.foundBack hx
  unfold fetched
  rw [S.strays_eq ht hc hout, List.filter_append, List.filter_append,
    List.filter_eq_self.mpr fun x hx => (hfront x hx _).trans (beq_self_eq_true span.start),
    List.filter_eq_self (l := l₂.rootIds).mpr fun x hx =>
      (hback x hx _).trans (beq_self_eq_true span.stop)]
  have hother : l₂.rootIds.filter (standsAt (graft (f ++ g ++ l) m) span.start) = [] ∧
      f₂.rootIds.filter (standsAt (graft (f ++ g ++ l) m) span.stop) = [] := by
    rcases S.proper with hlt | ⟨rfl, rfl⟩
    · constructor
      · refine List.filter_eq_nil_iff.mpr fun x hx => ?_
        rw [hback x hx, beq_iff_eq]
        omega
      · refine List.filter_eq_nil_iff.mpr fun x hx => ?_
        rw [hfront x hx, beq_iff_eq]
        omega
    · exact ⟨rfl, rfl⟩
  rw [hother.1, hother.2, List.append_nil, List.nil_append, hf₂.1.nodup.dedup, hl₂.1.nodup.dedup,
    hf₂.1.bared_roots h0 S.foundFront, hl₂.1.bared_roots h0 S.foundBack]
  exact ⟨rfl, rfl⟩

end Spread

theorem Spread.pieces {f₁ f₂ l₁ l₂ : Markup} (S : Spread c span f g l m f₁ f₂ l₁ l₂)
    (h : Pieces span f g l) : Pieces span f₁ g l₁ := h.within S.front S.back

/-- Inside a span there are no markers at its ends. -/
theorem no_markers_inside (hord : span.start ≤ span.stop) (row : Markup) :
    (part span.start (part span.stop (part span.start row).right).left).lifted = .nil ∧
      (part span.stop (part span.stop (part span.start row).right).left).lifted = .nil := by
  rw [part_part_left]
  refine ⟨?_, rfl⟩
  rcases Nat.lt_or_eq_of_le hord with hlt | heq
  · rw [(part_part hlt (part span.start row).right).1, part_part_right]
  · rw [← heq, part_part_right]
    rfl

/-- Enclosing claimed trees that were grafted is grafting them inside the new node. -/
theorem enclose_graft (hm : Nests lo hi m) (hlo : lo ≤ n.span.start)
    (hord : n.span.start ≤ n.span.stop) (hhi : n.span.stop ≤ hi)
    (hk : Nests n.span.start n.span.stop k) (ht : Tagged k)
    (hout : ∀ x ∈ k.rootIds, x ∉ m.ids) :
    enclose k.rootIds n (graft k m) = nest n (graft k) m := by
  obtain ⟨f, g, l, rfl, h⟩ := exists_pieces hk
  obtain ⟨f₁, f₂, l₁, l₂, S⟩ := spread hm hord h ht (fun x hx => hx) hout
  obtain ⟨hfetched, hfetched'⟩ := S.fetched_eq h ht rfl hout
  obtain ⟨lo', hi', hlo', hhi', hrow, -⟩ := hm.focus [] hlo hord hhi
  have hright := (hrow.part hlo' (Nat.le_trans hord hhi')).2.2
  have hinside := (hright.part hord hhi').1
  obtain ⟨hstart, hstop⟩ := no_markers_inside hord (site [] n.span m).row
  have hparted := parted_graft (c := rootIds (f ++ g ++ l)) hrow hlo' hord hhi' (S.pieces h)
    (fun x hx => ?_) (fun x hx => ?_)
    fun x hx => ⟨ht.ne_zero hx, fun hmem => hout x hx (ids_of_site hmem)⟩
  · obtain ⟨hkeep, hdrop⟩ := keep_markerAt_graft hinside hstart (S.pieces h)
    have hf : f₁ ++ f₂ = f := by
      rcases S.front with ⟨rfl, rfl⟩ | ⟨rfl, rfl⟩
      · exact Forest.append_nil _
      · rfl
    have hl : l₁ ++ l₂ = l := by
      rcases S.back with ⟨rfl, rfl⟩ | ⟨rfl, rfl⟩
      · exact Forest.append_nil _
      · rfl
    rw [enclose, S.without_strays ht rfl hout, S.site, S.row, hparted]
    simp only
    rw [brood, hkeep, hdrop, hfetched, hfetched', hf, Forest.append_assoc f, Forest.append_assoc _ l₁,
      hl, ← Forest.append_assoc, ← graft_inside hinside hstart hstop h, nest, nestRow]
  · rw [rootIds_append, rootIds_append]
    rcases S.front with ⟨rfl, -⟩ | ⟨rfl, -⟩
    · exact List.mem_append_left _ (List.mem_append_left _ hx)
    · cases hx
  · rw [rootIds_append, rootIds_append]
    rcases S.back with ⟨rfl, -⟩ | ⟨rfl, -⟩
    · exact List.mem_append_right _ hx
    · cases hx

end Markup

end Standoff
