import Standoff.Proofs.Parts

/-! # Numbers of nodes and their supply

An operation on mark-up takes numbers from a supply and leaves the rest.  What it does to the
numbers is counted: each number that was there is still there as often, and each number taken is
there once.

* `Supply.Le`, `Supply.taken`: a later supply, and the numbers taken in between.
* `Supply.Plain`: the numbers taken for other nodes than right halves.
* `Markup.renumber`: mark-up with other numbers.
* `Markup.divide_renumber`: `divide` is `part` if the numbers of right halves become 0. -/

namespace Standoff

/-! ## Supplies -/

namespace Supply

/-- Cuts, the latest first, that took their numbers from `lo` up to `hi` in turn. -/
def Fresh (lo hi : NodeId) (cuts : List Cut) : Prop :=
  cuts.Pairwise (fun c d => d.right < c.right) ∧ ∀ c ∈ cuts, lo ≤ c.right ∧ c.right < hi

/-- `t` comes from `s` by taking numbers and by cuts. -/
structure Le (s t : Supply) : Prop where
  next : s.next ≤ t.next
  cuts : ∃ made, t.cuts = made ++ s.cuts ∧ Fresh s.next t.next made

theorem Le.of_cuts {s t : Supply} (hnext : s.next ≤ t.next) (hcuts : t.cuts = s.cuts) : s.Le t :=
  ⟨hnext, [], hcuts, .nil, fun _ hc => absurd hc (List.not_mem_nil)⟩

theorem Le.refl (s : Supply) : s.Le s := .of_cuts (Nat.le_refl _) rfl

theorem Le.trans {s t u : Supply} (h₁ : s.Le t) (h₂ : t.Le u) : s.Le u := by
  obtain ⟨early, hearly, hsort₁, hbound₁⟩ := h₁.cuts
  obtain ⟨late, hlate, hsort₂, hbound₂⟩ := h₂.cuts
  have hnext := h₁.next
  have hnext' := h₂.next
  refine ⟨Nat.le_trans hnext hnext', late ++ early, by rw [hlate, hearly, List.append_assoc],
    List.pairwise_append.mpr ⟨hsort₂, hsort₁, fun c hc d hd => ?_⟩, fun c hc => ?_⟩
  · exact Nat.lt_of_lt_of_le (hbound₁ d hd).2 (hbound₂ c hc).1
  · rcases List.mem_append.mp hc with hc | hc
    · exact ⟨Nat.le_trans hnext (hbound₂ c hc).1, (hbound₂ c hc).2⟩
    · exact ⟨(hbound₁ c hc).1, Nat.lt_of_lt_of_le (hbound₁ c hc).2 hnext'⟩

theorem Le.subset {s t : Supply} (h : s.Le t) : s.cuts ⊆ t.cuts := by
  obtain ⟨made, hmade, -⟩ := h.cuts
  rw [hmade]
  exact List.subset_append_right _ _

theorem le_take (s : Supply) : s.Le s.take := .of_cuts (Nat.le_succ _) rfl

theorem le_cut (s : Supply) (n : Node) (pos : Nat) : s.Le (s.cut n pos) := by
  refine ⟨Nat.le_succ _, [⟨n.name, n.span, pos, n.id, s.next⟩], rfl,
    List.pairwise_singleton _ _, fun c hc => ?_⟩
  rw [List.mem_singleton.mp hc]
  exact ⟨Nat.le_refl _, Nat.lt_succ_self _⟩

/-- How often `id` was taken between `s` and `t`. -/
def taken (s t : Supply) (id : NodeId) : Nat := if s.next ≤ id ∧ id < t.next then 1 else 0

@[simp] theorem taken_self (s : Supply) (id : NodeId) : taken s s id = 0 := by
  grind [taken]

theorem taken_take (s : Supply) (id : NodeId) :
    taken s s.take id = if s.next = id then 1 else 0 := by
  grind [taken, take]

theorem taken_cut (s : Supply) (n : Node) (pos : Nat) (id : NodeId) :
    taken s (s.cut n pos) id = if s.next = id then 1 else 0 := by
  grind [taken, cut]

theorem taken_add {s t u : Supply} (h₁ : s.Le t) (h₂ : t.Le u) (id : NodeId) :
    taken s t id + taken t u id = taken s u id := by
  have := h₁.next
  have := h₂.next
  grind [taken]

/-- The numbers of right halves are below the next free one. -/
def Settled (s : Supply) : Prop := ∀ c ∈ s.cuts, c.right < s.next

theorem Le.settled {s t : Supply} (h : s.Le t) (hs : s.Settled) : t.Settled := by
  intro c hc
  obtain ⟨made, hcuts, hfresh⟩ := h.cuts
  rw [hcuts] at hc
  rcases List.mem_append.mp hc with hc | hc
  · exact (hfresh.2 c hc).2
  · exact Nat.lt_of_lt_of_le (hs c hc) h.next

/-- A number that was taken between `s` and `t`, and not for the right half of a cut. -/
def Plain (s t : Supply) (id : NodeId) : Prop :=
  s.next ≤ id ∧ id < t.next ∧ ∀ c ∈ t.cuts, c.right ≠ id

/-- Later cuts take other numbers. -/
theorem Plain.widen {s s' t' t : Supply} {id : NodeId} (h : Plain s' t' id) (hs : s.Le s')
    (ht : t'.Le t) : Plain s t id := by
  refine ⟨Nat.le_trans hs.next h.1, Nat.lt_of_lt_of_le h.2.1 ht.next, fun c hc => ?_⟩
  obtain ⟨made, hcuts, hfresh⟩ := ht.cuts
  rw [hcuts] at hc
  rcases List.mem_append.mp hc with hc | hc
  · exact (Nat.ne_of_lt (Nat.lt_of_lt_of_le h.2.1 (hfresh.2 c hc).1)).symm
  · exact h.2.2 c hc

/-- A number that is taken by itself. -/
theorem plain_next {s u t : Supply} (hsettled : s.Settled) (hs : s.Le u) (ht : u.take.Le t) :
    Plain s t u.next := by
  have hplain : Plain u u.take u.next :=
    ⟨Nat.le_refl _, Nat.lt_succ_self _, fun c hc => Nat.ne_of_lt (hs.settled hsettled c hc)⟩
  exact hplain.widen hs ht

end Supply

namespace Markup

variable {lo hi pos : Nat} {m f g kids rest : Markup} {n : Node} {s : Supply}

/-! ## Numbers of a row -/

@[simp] theorem ids_nil : ids .nil = [] := rfl

@[simp] theorem ids_node : ids (.node n kids rest) = n.id :: (kids.ids ++ rest.ids) := by
  simp [ids]

@[simp] theorem ids_append : (f ++ g).ids = f.ids ++ g.ids := by simp [ids]

theorem mem_ids {id : NodeId} : id ∈ m.ids ↔ ∃ n ∈ m.preorder, n.id = id := by
  simp [ids]

theorem id_mem_ids (h : n ∈ m.preorder) : n.id ∈ m.ids := mem_ids.mpr ⟨n, h, rfl⟩

theorem mem_ids_of_rootIds {id : NodeId} (h : id ∈ m.rootIds) : id ∈ m.ids := by
  obtain ⟨n, hn, rfl⟩ := List.mem_map.mp h
  exact id_mem_ids (Forest.labels_subset_preorder hn)

/-! ## Renumbering -/

/-- The mark-up with number `ρ id` in the place of `id`. -/
def renumber (ρ : NodeId → NodeId) (m : Markup) : Markup := m.map fun n => { n with id := ρ n.id }

@[simp] theorem renumber_nil (ρ : NodeId → NodeId) : renumber ρ .nil = .nil := rfl

@[simp] theorem renumber_node (ρ : NodeId → NodeId) :
    renumber ρ (.node n kids rest) =
      .node { n with id := ρ n.id } (kids.renumber ρ) (rest.renumber ρ) := rfl

@[simp] theorem renumber_append (ρ : NodeId → NodeId) :
    (f ++ g).renumber ρ = f.renumber ρ ++ g.renumber ρ := by simp [renumber]

@[simp] theorem nests_renumber (ρ : NodeId → NodeId) : Nests lo hi (m.renumber ρ) ↔ Nests lo hi m :=
  nests_map fun _ => rfl

/-! ## Division -/

theorem divide_le (pos : Nat) (m : Markup) (s : Supply) : s.Le (divide pos m s).supply := by
  induction m generalizing s with
  | nil => exact .refl s
  | node n kids rest ihk ihr =>
    rcases n.span.lies pos with h | h | h | h
    · rw [divide_cut h]
      exact ((s.le_cut n pos).trans (ihk _)).trans (ihr _)
    · rw [divide_marker h]; exact ihr s
    · rw [divide_right h]; exact ihr s
    · rw [divide_left h]; exact ihr s

/-- A division keeps every number and uses each new one once. -/
theorem count_ids_divide (pos : Nat) (m : Markup) (s : Supply) (id : NodeId) :
    (divide pos m s).row.ids.count id = m.ids.count id + s.taken (divide pos m s).supply id := by
  have hrow : ∀ d : Division,
      d.row.ids.count id = d.left.ids.count id + d.lifted.ids.count id + d.right.ids.count id := by
    intro d
    simp [Division.row, Nat.add_assoc]
  simp only [hrow]
  induction m generalizing s with
  | nil => simp
  | node n kids rest ihk ihr =>
    rcases n.span.lies pos with h | h | h | h
    · have hk := ihk (s.cut n pos)
      have hr := ihr (divide pos kids (s.cut n pos)).supply
      have h₁ := Supply.taken_add (s.le_cut n pos) (divide_le pos kids (s.cut n pos)) id
      have h₂ := Supply.taken_add ((s.le_cut n pos).trans (divide_le pos kids (s.cut n pos)))
        (divide_le pos rest (divide pos kids (s.cut n pos)).supply) id
      have h₃ := Supply.taken_cut s n pos id
      rw [divide_cut h]
      simp only [ids_node, ids_append, List.count_cons, List.count_append, Node.leftHalf,
        Node.rightHalf, beq_iff_eq] at *
      omega
    · rw [divide_marker h]
      have hr := ihr s
      simp only [ids_node, List.count_cons, List.count_append] at *
      omega
    · rw [divide_right h]
      have hr := ihr s
      simp only [ids_node, List.count_cons, List.count_append] at *
      omega
    · rw [divide_left h]
      have hr := ihr s
      simp only [ids_node, List.count_cons, List.count_append] at *
      omega

/-- A division that forgets the numbers of right halves. -/
theorem divide_renumber {ρ : NodeId → NodeId}
    (h : ∀ c ∈ (divide pos m s).supply.cuts, ρ c.right = 0) :
    part pos (m.renumber ρ) =
      ⟨(divide pos m s).left.renumber ρ, (divide pos m s).lifted.renumber ρ,
        (divide pos m s).right.renumber ρ⟩ := by
  induction m generalizing s with
  | nil => rfl
  | node n kids rest ihk ihr =>
    rw [renumber_node]
    rcases n.span.lies pos with hn | hn | hn | hn
    · rw [divide_cut hn] at h ⊢
      have hle := divide_le pos kids (s.cut n pos)
      have hle' := divide_le pos rest (divide pos kids (s.cut n pos)).supply
      have hk := ihk (s := s.cut n pos) fun c hc => h c (hle'.subset hc)
      have hr := ihr (s := (divide pos kids (s.cut n pos)).supply) h
      have hid : ρ s.next = 0 :=
        h ⟨n.name, n.span, pos, n.id, s.next⟩
          (hle'.subset (hle.subset (List.mem_cons_self ..)))
      rw [part_cut (n := { n with id := ρ n.id }) hn, hk, hr]
      simp [Node.leftHalf, Node.rightHalf, hid]
    · rw [divide_marker hn] at h ⊢
      rw [part_marker (n := { n with id := ρ n.id }) hn, ihr h]
      rfl
    · rw [divide_right hn] at h ⊢
      rw [part_right (n := { n with id := ρ n.id }) hn, ihr h]
      rfl
    · rw [divide_left hn] at h ⊢
      rw [part_left (n := { n with id := ρ n.id }) hn, ihr h]
      rfl

/-- A row of which no node is cut keeps its numbers, and the supply is not used. -/
theorem divide_eq_part (h : ∀ n ∈ m.labels, ¬(n.span.start < pos ∧ pos < n.span.stop)) :
    divide pos m s = ⟨(part pos m).left, (part pos m).lifted, (part pos m).right, s⟩ := by
  induction m with
  | nil => rfl
  | node n kids rest _ ih =>
    have ih := ih fun a ha => h a (List.mem_cons_of_mem _ ha)
    rcases n.span.lies pos with hn | hn | hn | hn
    · exact absurd hn (h n (List.mem_cons_self ..))
    · rw [divide_marker hn, part_marker hn, ih]
    · rw [divide_right hn, part_right hn, ih]
    · rw [divide_left hn, part_left hn, ih]

theorem Nests.divide (h : Nests lo hi m) (hlo : lo ≤ pos) (hhi : pos ≤ hi) (s : Supply) :
    Nests lo pos (m.divide pos s).left ∧ Nests pos pos (m.divide pos s).lifted ∧
      Nests pos hi (m.divide pos s).right := by
  have hp := ((nests_renumber fun _ => 0).mpr h).part hlo hhi
  rw [divide_renumber (s := s) fun _ _ => rfl] at hp
  simpa using hp

theorem divide_of_lt (h : Nests lo hi m) (hpos : pos < lo) : divide pos m s = ⟨.nil, .nil, m, s⟩ := by
  rw [divide_eq_part fun n hn => ?_, part_of_lt h hpos]
  have := h.bounds (Forest.labels_subset_preorder hn)
  omega

theorem divide_start (h : Nests pos hi m) :
    divide pos m s = ⟨.nil, (part pos m).lifted, (part pos m).right, s⟩ := by
  rw [divide_eq_part fun n hn => ?_, (part_start h).1]
  have := h.bounds (Forest.labels_subset_preorder hn)
  omega

end Markup

end Standoff
