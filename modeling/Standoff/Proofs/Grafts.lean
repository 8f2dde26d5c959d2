import Standoff.Proofs.Gathering

/-! # Grafting mark-up into mark-up

`Markup.graft` merges a row into mark-up as `Markup.mergeRow` does, but on numbered nodes and
without a supply: right halves get number 0.  Parts of a graft are grafts of parts, which is what
makes the order of insertions irrelevant.  With `d` the division of `m` at `pos`:

    part pos (graft k m) = { d with right := graft k d.right }        if k lies right of pos
    part pos (graft k m) = { d with left := graft k d.left }          if k lies left of pos
    part pos (graft k m) = { d with lifted := d.lifted ++ k }         if k are markers at pos

* `Markup.nest`, `Markup.graft`: one node, and a row, among existing nodes.
* `Markup.part_graft_right`, `Markup.part_graft_left`, `Markup.part_graft_markers`: the equations
  above.
* `Markup.graft_after`: grafted after everything else a row stays as it is. -/

namespace Standoff

namespace Markup

/-- A node in a row that has no room for it further down; `fill` says what becomes of what lies
inside. -/
def nestRow (n : Node) (fill : Markup → Markup) (row : Markup) : Markup :=
  let p := part n.span.start row
  let q := part n.span.stop p.right
  p.left ++ p.lifted ++ .node n (fill q.left) (q.lifted ++ q.right)

/-- A node in the innermost row that has room for it. -/
def nest (n : Node) (fill : Markup → Markup) (m : Markup) : Markup :=
  (site [] n.span m).plug (nestRow n fill (site [] n.span m).row)

/-- The trees of a row one after another, from the outside in. -/
def graft : Markup → Markup → Markup
  | .nil, m => m
  | .node n kids rest, m => graft rest (nest n (fun inside => graft kids inside) m)

variable {lo hi a b pos : Nat} {m f g k l row kids rest : Markup} {n x : Node} {span : Span}
  {fill : Markup → Markup}

/-! ## Equations -/

@[simp] theorem graft_nil (m : Markup) : graft .nil m = m := rfl

theorem graft_node (n : Node) (kids rest m : Markup) :
    graft (.node n kids rest) m = graft rest (nest n (graft kids) m) := rfl

theorem graft_append (k l m : Markup) : graft (k ++ l) m = graft l (graft k m) := by
  induction k generalizing m with
  | nil => rfl
  | node n kids rest _ ih => exact ih _

theorem enters_nil : enters [] span n = n.span.admits span := by
  simp [enters]

theorem nest_row (h : ∀ x ∈ m.labels, enters [] n.span x = false) :
    nest n fill m = nestRow n fill m := by
  rw [nest, site_of_none h]
  rfl

theorem nest_inner (hf : ∀ x ∈ f.labels, enters [] n.span x = false)
    (hx : enters [] n.span x = true) :
    nest n fill (f ++ .node x kids rest) = f ++ .node x (nest n fill kids) rest := by
  rw [nest, site_append_node hf hx]
  rfl

/-! ## Labels of parts -/

/-- What stands left of a position is a node of the row or the left half of one. -/
theorem left_label (hx : x ∈ (part pos m).left.labels) :
    ∃ y ∈ m.labels, x.id = y.id ∧ y.span.start = x.span.start ∧ x.span.stop ≤ y.span.stop := by
  induction m with
  | nil => cases hx
  | node y kids rest _ ih =>
    have hrest : x ∈ (part pos rest).left.labels → ∃ z ∈ (Forest.node y kids rest).labels,
        x.id = z.id ∧ z.span.start = x.span.start ∧ x.span.stop ≤ z.span.stop := by
      intro hx
      obtain ⟨z, hz, hle⟩ := ih hx
      exact ⟨z, List.mem_cons_of_mem _ hz, hle⟩
    rcases y.span.lies pos with h | h | h | h
    · rw [part_cut h] at hx
      rcases List.mem_cons.mp hx with rfl | hx
      · exact ⟨y, List.mem_cons_self .., rfl, rfl, Nat.le_of_lt h.2⟩
      · exact hrest hx
    · rw [part_marker h] at hx
      exact hrest hx
    · rw [part_right h] at hx
      exact hrest hx
    · rw [part_left h] at hx
      rcases List.mem_cons.mp hx with rfl | hx
      · exact ⟨x, List.mem_cons_self .., rfl, rfl, Nat.le_refl _⟩
      · exact hrest hx

/-- What stands right of a position is a node of the row or the right half of one. -/
theorem right_label (hx : x ∈ (part pos m).right.labels) :
    ∃ y ∈ m.labels, (x = y ∨ y.span.start < x.span.start) ∧ y.span.start ≤ x.span.start ∧
      y.span.stop = x.span.stop := by
  induction m with
  | nil => cases hx
  | node y kids rest _ ih =>
    have hrest : x ∈ (part pos rest).right.labels → ∃ z ∈ (Forest.node y kids rest).labels,
        (x = z ∨ z.span.start < x.span.start) ∧ z.span.start ≤ x.span.start ∧
          z.span.stop = x.span.stop := by
      intro hx
      obtain ⟨z, hz, hle⟩ := ih hx
      exact ⟨z, List.mem_cons_of_mem _ hz, hle⟩
    rcases y.span.lies pos with h | h | h | h
    · rw [part_cut h] at hx
      rcases List.mem_cons.mp hx with rfl | hx
      · exact ⟨y, List.mem_cons_self .., Or.inr h.1, Nat.le_of_lt h.1, rfl⟩
      · exact hrest hx
    · rw [part_marker h] at hx
      exact hrest hx
    · rw [part_right h] at hx
      rcases List.mem_cons.mp hx with rfl | hx
      · exact ⟨x, List.mem_cons_self .., Or.inl rfl, Nat.le_refl _, rfl⟩
      · exact hrest hx
    · rw [part_left h] at hx
      exact hrest hx

/-- A node that lies within another admits no more than the other does. -/
theorem admits_within {s t : Span} (hord : span.start ≤ span.stop) (hstart : t.start ≤ s.start)
    (hstop : s.stop ≤ t.stop) (h : s.admits span = true) : t.admits span = true := by
  rw [Span.admits_iff] at h ⊢
  omega

/-- No node of the row has room for the span. -/
def Closed (span : Span) (m : Markup) : Prop := ∀ x ∈ m.labels, enters [] span x = false

theorem Closed.left (hord : span.start ≤ span.stop) (h : Closed span m) :
    Closed span (part pos m).left := by
  intro x hx
  obtain ⟨y, hy, -, hstart, hstop⟩ := left_label hx
  have hclosed := h y hy
  rw [enters_nil, ← Bool.not_eq_true] at hclosed ⊢
  exact fun hadmits => hclosed (admits_within hord (Nat.le_of_eq hstart) hstop hadmits)

theorem Closed.right (hord : span.start ≤ span.stop) (h : Closed span m) :
    Closed span (part pos m).right := by
  intro x hx
  obtain ⟨y, hy, -, hstart, hstop⟩ := right_label hx
  have hclosed := h y hy
  rw [enters_nil, ← Bool.not_eq_true] at hclosed ⊢
  exact fun hadmits => hclosed (admits_within hord hstart (Nat.le_of_eq hstop.symm) hadmits)

theorem closed_append : Closed span (f ++ g) ↔ Closed span f ∧ Closed span g := by
  unfold Closed
  rw [Forest.labels_append]
  simp only [List.mem_append]
  constructor
  · intro h
    exact ⟨fun x hx => h x (Or.inl hx), fun x hx => h x (Or.inr hx)⟩
  · rintro ⟨hf, hg⟩ x (hx | hx)
    · exact hf x hx
    · exact hg x hx

/-- Nothing that ends before a span has room for it. -/
theorem closed_of_stop (h : Nests lo span.start m) :
    Closed span m := by
  intro x hx
  have hb := h.bounds (Forest.labels_subset_preorder hx)
  rw [enters_nil, ← Bool.not_eq_true, Span.admits_iff]
  omega

/-- Nothing that starts after a span has room for it. -/
theorem closed_of_start (hord : span.start ≤ span.stop) (h : Nests span.stop hi m) :
    Closed span m := by
  intro x hx
  have hb := h.bounds (Forest.labels_subset_preorder hx)
  rw [enters_nil, ← Bool.not_eq_true, Span.admits_iff]
  omega

/-! ## Nesting -/

theorem nests_nestRow (h : Nests lo hi row) (hlo : lo ≤ n.span.start)
    (hord : n.span.start ≤ n.span.stop) (hhi : n.span.stop ≤ hi)
    (hfill : ∀ g, Nests n.span.start n.span.stop g → Nests n.span.start n.span.stop (fill g)) :
    Nests lo hi (nestRow n fill row) := by
  obtain ⟨h₁, h₂, h₃⟩ := h.part hlo (Nat.le_trans hord hhi)
  obtain ⟨h₄, h₅, h₆⟩ := h₃.part hord hhi
  exact (h₁.append h₂).append ⟨Nat.le_refl _, hfill _ h₄, h₅.append h₆⟩

theorem nests_nest (h : Nests lo hi m) (hlo : lo ≤ n.span.start)
    (hord : n.span.start ≤ n.span.stop) (hhi : n.span.stop ≤ hi)
    (hfill : ∀ g, Nests n.span.start n.span.stop g → Nests n.span.start n.span.stop (fill g)) :
    Nests lo hi (nest n fill m) := by
  obtain ⟨lo', hi', hlo', hhi', hrow, hplug⟩ := h.focus [] hlo hord hhi
  exact hplug _ (nests_nestRow hrow hlo' hord hhi' hfill)

theorem nests_graft (hm : Nests lo hi m) (hk : Nests a b k) (ha : lo ≤ a) (hb : b ≤ hi) :
    Nests lo hi (graft k m) := by
  induction k generalizing lo hi a b m with
  | nil => exact hm
  | node n kids rest ihk ihr =>
    obtain ⟨h₁, h₂, h₃⟩ := hk
    have hord := h₂.le
    have hstop := h₃.le
    refine ihr (nests_nest hm (by omega) hord (by omega) fun g hg => ?_) h₃ (by omega) hb
    exact ihk hg h₂ (Nat.le_refl _) (Nat.le_refl _)

/-! ## Parts of a graft -/

/-- In front of a position a node leaves everything right of it. -/
theorem part_nestRow_right (hstart : pos ≤ n.span.start)
    (hstop : pos < n.span.stop) (m : Markup) :
    part pos (nestRow n fill m) =
      { part pos m with right := nestRow n fill (part pos m).right } := by
  have hnode (kids rest : Markup) : part pos (.node n kids rest) =
      { part pos rest with right := .node n kids (part pos rest).right } :=
    part_right ⟨hstart, by omega⟩
  have htail : part pos ((part n.span.stop (part n.span.start m).right).lifted ++
      (part n.span.stop (part n.span.start m).right).right) =
      ⟨.nil, .nil, (part n.span.stop (part n.span.start m).right).lifted ++
        (part n.span.stop (part n.span.start m).right).right⟩ := by
    refine part_of_right fun x hx => ?_
    rw [Forest.labels_append, List.mem_append] at hx
    rcases hx with hx | hx
    · have := lifted_of_part _ hx
      omega
    · have := right_of_part _ hx
      omega
  unfold nestRow
  simp only [part_append, hnode, htail]
  by_cases heq : pos = n.span.start
  · subst heq
    rw [part_part_left, part_of_lifted fun _ => lifted_of_part m, part_part_right]
    simp
  · obtain ⟨h₁, h₂, h₃⟩ := part_part (show pos < n.span.start by omega) m
    have hlifted : part pos (part n.span.start m).lifted =
        ⟨.nil, .nil, (part n.span.start m).lifted⟩ :=
      part_of_right fun x hx => by
        have := lifted_of_part m hx
        omega
    rw [h₁, hlifted, h₂, h₃]
    simp [Forest.append_assoc]

theorem part_nest_right (hord : n.span.start ≤ n.span.stop) (hstart : pos ≤ n.span.start)
    (hstop : pos < n.span.stop) (m : Markup) :
    part pos (nest n fill m) = { part pos m with right := nest n fill (part pos m).right } := by
  induction m using Forest.focus_induction (enters [] n.span) with
  | row m hm =>
    have hclosed : Closed n.span (part pos m).right := Closed.right hord hm
    rw [nest_row hm, nest_row hclosed, part_nestRow_right hstart hstop]
  | inner f x kids rest hf hx ih =>
    have hadmits := Span.admits_iff.mp (enters_nil ▸ hx)
    have hf' : Closed n.span (part pos f).right := Closed.right hord hf
    rw [nest_inner hf hx, part_append, part_append]
    by_cases hcut : x.span.start < pos
    · have hlies : x.span.start < pos ∧ pos < x.span.stop := by omega
      have hhalf : enters [] n.span (x.rightHalf pos 0) = true := by
        rw [enters_nil, Span.admits_iff]
        simp only [Node.rightHalf]
        omega
      rw [part_cut hlies, part_cut hlies, ih]
      simp only
      rw [nest_inner hf' hhalf]
    · have hlies : pos ≤ x.span.start ∧ (x.span.start ≠ pos ∨ x.span.start < x.span.stop) := by
        omega
      rw [part_right hlies, part_right hlies]
      simp only
      rw [nest_inner hf' hx]

/-- Behind a position a node leaves everything left of it. -/
theorem part_nestRow_left (hstart : n.span.start < pos)
    (hstop : n.span.stop ≤ pos) (m : Markup) :
    part pos (nestRow n fill m) = { part pos m with left := nestRow n fill (part pos m).left } := by
  obtain ⟨h₁, h₂, h₃⟩ := part_part hstart m
  have hnode (kids rest : Markup) : part pos (.node n kids rest) =
      { part pos rest with left := .node n kids (part pos rest).left } :=
    part_left ⟨hstart, hstop⟩
  have hleft : part pos (part n.span.start m).left = ⟨(part n.span.start m).left, .nil, .nil⟩ :=
    part_of_left fun x hx => by
      have := left_of_part m hx
      omega
  have hlifted : part pos (part n.span.start m).lifted =
      ⟨(part n.span.start m).lifted, .nil, .nil⟩ :=
    part_of_left fun x hx => by
      have := lifted_of_part m hx
      omega
  unfold nestRow
  simp only [part_append, hnode, hleft, hlifted, h₁]
  generalize hr : (part n.span.start m).right = r
  rw [hr] at h₂ h₃
  by_cases heq : n.span.stop = pos
  · rw [heq, part_part_left, part_of_lifted fun _ => lifted_of_part r, part_part_right, h₂, h₃]
    simp
  · obtain ⟨h₄, h₅, h₆⟩ := part_part (show n.span.stop < pos by omega) r
    have hlast : part pos (part n.span.stop r).lifted = ⟨(part n.span.stop r).lifted, .nil, .nil⟩ :=
      part_of_left fun x hx => by
        have := lifted_of_part r hx
        omega
    rw [h₄, hlast, h₂, h₃, h₅, h₆]
    simp [Forest.append_assoc]

theorem part_nest_left (hord : n.span.start ≤ n.span.stop) (hstart : n.span.start < pos)
    (hstop : n.span.stop ≤ pos) (m : Markup) :
    part pos (nest n fill m) = { part pos m with left := nest n fill (part pos m).left } := by
  induction m using Forest.focus_induction (enters [] n.span) with
  | row m hm =>
    have hclosed : Closed n.span (part pos m).left := Closed.left hord hm
    rw [nest_row hm, nest_row hclosed, part_nestRow_left hstart hstop]
  | inner f x kids rest hf hx ih =>
    have hadmits := Span.admits_iff.mp (enters_nil ▸ hx)
    have hf' : Closed n.span (part pos f).left := Closed.left hord hf
    rw [nest_inner hf hx, part_append, part_append]
    by_cases hcut : pos < x.span.stop
    · have hlies : x.span.start < pos ∧ pos < x.span.stop := by omega
      have hhalf : enters [] n.span (x.leftHalf pos) = true := by
        rw [enters_nil, Span.admits_iff]
        simp only [Node.leftHalf]
        omega
      rw [part_cut hlies, part_cut hlies, ih]
      simp only
      rw [nest_inner hf' hhalf]
    · have hlies : x.span.start < pos ∧ x.span.stop ≤ pos := by omega
      rw [part_left hlies, part_left hlies]
      simp only
      rw [nest_inner hf' hx]

/-- At its own position a marker joins those that are there. -/
theorem part_nest_marker (hstart : n.span.start = pos) (hstop : n.span.stop = pos)
    (hm : Nests lo hi m) :
    part pos (nest n fill m) =
      { part pos m with lifted := (part pos m).lifted ++ .node n (fill .nil) .nil } := by
  induction m using Forest.focus_induction (enters [] n.span) generalizing lo hi with
  | row m hclosed =>
    have hnode (kids rest : Markup) : part pos (.node n kids rest) =
        { part pos rest with lifted := .node n kids (part pos rest).lifted } :=
      part_marker ⟨by omega, hstart⟩
    rw [nest_row hclosed, nestRow, hstart, hstop, part_part_right]
    simp only [part_append, hnode, part_part_left, part_part_right,
      part_of_lifted fun _ => lifted_of_part m, Forest.nil_append]
    simp
  | inner f x kids rest hf hx ih =>
    have hadmits := Span.admits_iff.mp (enters_nil ▸ hx)
    obtain ⟨-, hkids, hrest⟩ := nests_around.mp hm
    have hlies : x.span.start < pos ∧ pos < x.span.stop := by omega
    rw [nest_inner hf hx, part_append, part_append, part_cut hlies, part_cut hlies, ih hkids,
      part_of_lt hrest hlies.2]
    simp [Forest.append_assoc]

theorem part_graft_right
    (hk : ∀ n ∈ k.labels, n.span.start ≤ n.span.stop ∧ pos ≤ n.span.start ∧ pos < n.span.stop)
    (m : Markup) : part pos (graft k m) = { part pos m with right := graft k (part pos m).right } := by
  induction k generalizing m with
  | nil => rfl
  | node n kids rest _ ih =>
    obtain ⟨hord, hstart, hstop⟩ := hk n (List.mem_cons_self ..)
    rw [graft_node, graft_node, ih fun x hx => hk x (List.mem_cons_of_mem _ hx),
      part_nest_right hord hstart hstop]

theorem part_graft_left
    (hk : ∀ n ∈ k.labels, n.span.start ≤ n.span.stop ∧ n.span.start < pos ∧ n.span.stop ≤ pos)
    (m : Markup) : part pos (graft k m) = { part pos m with left := graft k (part pos m).left } := by
  induction k generalizing m with
  | nil => rfl
  | node n kids rest _ ih =>
    obtain ⟨hord, hstart, hstop⟩ := hk n (List.mem_cons_self ..)
    rw [graft_node, graft_node, ih fun x hx => hk x (List.mem_cons_of_mem _ hx),
      part_nest_left hord hstart hstop]

/-! ## Grafts at the end -/

theorem part_of_le (h : Nests lo hi m) (hpos : hi ≤ pos) :
    (part pos m).right = .nil ∧ (part pos m).left ++ (part pos m).lifted = m := by
  rcases Nat.lt_or_eq_of_le hpos with hlt | rfl
  · rw [part_of_gt h hlt]
    exact ⟨rfl, Forest.append_nil m⟩
  · exact part_stop h

/-- After everything else a row stays as it is. -/
theorem graft_after (hm : Nests lo a m) (hk : Nests a hi k) : graft k m = m ++ k := by
  induction k generalizing lo a hi m with
  | nil => exact (Forest.append_nil m).symm
  | node n kids rest ihk ihr =>
    obtain ⟨h₁, h₂, h₃⟩ := hk
    have hord := h₂.le
    have hm' := hm.mono (Nat.le_refl _) h₁
    obtain ⟨hright, hleft⟩ := part_of_le hm' (Nat.le_refl _)
    have hkids : graft kids .nil = kids := ihk (nests_nil.mpr (Nat.le_refl _)) h₂
    have hnest : nest n (graft kids) m = m ++ .node n kids .nil := by
      rw [nest_row (closed_of_stop hm'), nestRow, hright, hleft]
      simp only [part_nil, Forest.nil_append]
      rw [hkids]
    have hrow : Nests lo n.span.stop (m ++ .node n kids .nil) :=
      hm'.append (nests_node.mpr ⟨Nat.le_refl _, h₂, nests_nil.mpr (Nat.le_refl _)⟩)
    rw [graft_node, hnest, ihr hrow h₃, Forest.append_assoc]
    rfl

theorem graft_into_nil (hk : Nests a b k) : graft k .nil = k :=
  graft_after (nests_nil.mpr (Nat.le_refl a)) hk

theorem part_graft_markers (hm : Nests lo hi m) (hlo : lo ≤ pos) (hhi : pos ≤ hi)
    (hk : Nests pos pos k) :
    part pos (graft k m) = { part pos m with lifted := (part pos m).lifted ++ k } := by
  induction k generalizing m with
  | nil => rw [graft_nil, Forest.append_nil]
  | node n kids rest _ ih =>
    obtain ⟨h₁, h₂, h₃⟩ := hk
    have hord := h₂.le
    have hstop := h₃.le
    have hn : n.span.stop = pos := by omega
    have hnest : Nests lo hi (nest n (graft kids) m) :=
      nests_nest hm (by omega) hord (by omega) fun g hg =>
        nests_graft hg h₂ (Nat.le_refl _) (Nat.le_refl _)
    rw [graft_node, ih hnest (h₃.mono (Nat.le_of_eq hn.symm) (Nat.le_refl _)),
      part_nest_marker (by omega) hn hm, graft_into_nil h₂]
    simp [Forest.append_assoc]

end Markup

end Standoff
