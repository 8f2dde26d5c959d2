import Standoff.Proofs.Nesting

/-! # Parts of a row at a position

`Markup.part` divides a row as `Markup.divide` does, except that right halves get number 0, which
no element has.  So it needs no supply, and two divisions can be exchanged:

    part p (part q m).left = ⟨(part p m).left, (part p m).lifted, (part q (part p m).right).left⟩

for `p < q`, while the other two parts at `q` are those of `(part p m).right`.

* `Markup.divide_renumber`: the two ways to divide agree if the numbers of right halves are
  forgotten.
* `Markup.count_ids_divide`: a division keeps all numbers and uses each new one once. -/

namespace Standoff

/-! ## Where a span lies -/

namespace Span

variable {s : Span} {pos : Nat}

theorem strictlyContains_iff : s.strictlyContains pos = true ↔ s.start < pos ∧ pos < s.stop := by
  simp [strictlyContains]

theorem isEmptyAt_iff : s.isEmptyAt pos = true ↔ s.stop ≤ s.start ∧ s.start = pos := by
  simp [isEmptyAt, isEmpty]

/-- The four ways in which a span can lie to a position. -/
theorem lies (s : Span) (pos : Nat) :
    (s.start < pos ∧ pos < s.stop) ∨ (s.stop ≤ s.start ∧ s.start = pos) ∨
      (pos ≤ s.start ∧ (s.start ≠ pos ∨ s.start < s.stop)) ∨ (s.start < pos ∧ s.stop ≤ pos) := by
  omega

end Span

/-- What lies on the two sides of a position, and the markers at it. -/
structure Parts where
  left : Markup
  lifted : Markup
  right : Markup
deriving DecidableEq

namespace Markup

/-- Divides a row at `pos`; right halves get number 0. -/
def part (pos : Nat) : Markup → Parts
  | .nil => ⟨.nil, .nil, .nil⟩
  | .node n kids rest =>
    let inner := part pos kids
    let outer := part pos rest
    if n.span.strictlyContains pos then
      { left := .node (n.leftHalf pos) inner.left outer.left
        lifted := inner.lifted ++ outer.lifted
        right := .node (n.rightHalf pos 0) inner.right outer.right }
    else if n.span.isEmptyAt pos then { outer with lifted := .node n kids outer.lifted }
    else if pos ≤ n.span.start then { outer with right := .node n kids outer.right }
    else { outer with left := .node n kids outer.left }

variable {lo hi pos p q : Nat} {m f g kids rest : Markup} {n : Node} {s : Supply}

/-! ## The parts of a row, node by node -/

@[simp] theorem part_nil : part pos .nil = ⟨.nil, .nil, .nil⟩ := rfl

theorem part_cut (h : n.span.start < pos ∧ pos < n.span.stop) :
    part pos (.node n kids rest) =
      { left := .node (n.leftHalf pos) (part pos kids).left (part pos rest).left
        lifted := (part pos kids).lifted ++ (part pos rest).lifted
        right := .node (n.rightHalf pos 0) (part pos kids).right (part pos rest).right } := by
  simp [part, Span.strictlyContains_iff.mpr h]

theorem part_marker (h : n.span.stop ≤ n.span.start ∧ n.span.start = pos) :
    part pos (.node n kids rest) =
      { part pos rest with lifted := .node n kids (part pos rest).lifted } := by
  have h₁ : n.span.strictlyContains pos = false := by
    rw [← Bool.not_eq_true, Span.strictlyContains_iff]; omega
  simp [part, h₁, Span.isEmptyAt_iff.mpr h]

theorem part_right (h : pos ≤ n.span.start ∧ (n.span.start ≠ pos ∨ n.span.start < n.span.stop)) :
    part pos (.node n kids rest) =
      { part pos rest with right := .node n kids (part pos rest).right } := by
  have h₁ : n.span.strictlyContains pos = false := by
    rw [← Bool.not_eq_true, Span.strictlyContains_iff]; omega
  have h₂ : n.span.isEmptyAt pos = false := by
    rw [← Bool.not_eq_true, Span.isEmptyAt_iff]; omega
  simp [part, h₁, h₂, h.1]

theorem part_left (h : n.span.start < pos ∧ n.span.stop ≤ pos) :
    part pos (.node n kids rest) =
      { part pos rest with left := .node n kids (part pos rest).left } := by
  have h₁ : n.span.strictlyContains pos = false := by
    rw [← Bool.not_eq_true, Span.strictlyContains_iff]; omega
  have h₂ : n.span.isEmptyAt pos = false := by
    rw [← Bool.not_eq_true, Span.isEmptyAt_iff]; omega
  have h₃ : ¬ pos ≤ n.span.start := by omega
  simp [part, h₁, h₂, h₃]

@[simp] theorem part_append : part pos (f ++ g) =
    ⟨(part pos f).left ++ (part pos g).left, (part pos f).lifted ++ (part pos g).lifted,
      (part pos f).right ++ (part pos g).right⟩ := by
  induction f with
  | nil => rfl
  | node n kids rest _ ih =>
    rw [Forest.node_append]
    rcases n.span.lies pos with h | h | h | h
    · rw [part_cut h, part_cut h, ih]; simp [Forest.append_assoc]
    · rw [part_marker h, part_marker h, ih]; simp
    · rw [part_right h, part_right h, ih]; simp
    · rw [part_left h, part_left h, ih]; simp

/-! ## What the parts hold -/

theorem left_of_part (m : Markup) (hn : n ∈ (part pos m).left.labels) :
    n.span.start < pos ∧ n.span.stop ≤ pos := by
  induction m with
  | nil => cases hn
  | node a kids rest _ ih =>
    rcases a.span.lies pos with h | h | h | h
    · rw [part_cut h] at hn
      rcases List.mem_cons.mp hn with rfl | hn
      · exact ⟨h.1, Nat.le_refl _⟩
      · exact ih hn
    · rw [part_marker h] at hn; exact ih hn
    · rw [part_right h] at hn; exact ih hn
    · rw [part_left h] at hn
      rcases List.mem_cons.mp hn with rfl | hn
      · exact h
      · exact ih hn

theorem lifted_of_part (m : Markup) (hn : n ∈ (part pos m).lifted.labels) :
    n.span.stop ≤ n.span.start ∧ n.span.start = pos := by
  induction m with
  | nil => cases hn
  | node a kids rest ihk ihr =>
    rcases a.span.lies pos with h | h | h | h
    · rw [part_cut h] at hn
      rw [Forest.labels_append, List.mem_append] at hn
      exact hn.elim ihk ihr
    · rw [part_marker h] at hn
      rcases List.mem_cons.mp hn with rfl | hn
      · exact h
      · exact ihr hn
    · rw [part_right h] at hn; exact ihr hn
    · rw [part_left h] at hn; exact ihr hn

theorem right_of_part (m : Markup) (hn : n ∈ (part pos m).right.labels) :
    pos ≤ n.span.start ∧ (n.span.start ≠ pos ∨ n.span.start < n.span.stop) := by
  induction m with
  | nil => cases hn
  | node a kids rest _ ih =>
    rcases a.span.lies pos with h | h | h | h
    · rw [part_cut h] at hn
      rcases List.mem_cons.mp hn with rfl | hn
      · exact ⟨Nat.le_refl _, Or.inr h.2⟩
      · exact ih hn
    · rw [part_marker h] at hn; exact ih hn
    · rw [part_right h] at hn
      rcases List.mem_cons.mp hn with rfl | hn
      · exact h
      · exact ih hn
    · rw [part_left h] at hn; exact ih hn

/-! ## Rows that lie on one side -/

theorem part_of_left (h : ∀ n ∈ m.labels, n.span.start < pos ∧ n.span.stop ≤ pos) :
    part pos m = ⟨m, .nil, .nil⟩ := by
  induction m with
  | nil => rfl
  | node n kids rest _ ih =>
    rw [part_left (h n (List.mem_cons_self ..)), ih fun a ha => h a (List.mem_cons_of_mem _ ha)]

theorem part_of_lifted (h : ∀ n ∈ m.labels, n.span.stop ≤ n.span.start ∧ n.span.start = pos) :
    part pos m = ⟨.nil, m, .nil⟩ := by
  induction m with
  | nil => rfl
  | node n kids rest _ ih =>
    rw [part_marker (h n (List.mem_cons_self ..)), ih fun a ha => h a (List.mem_cons_of_mem _ ha)]

theorem part_of_right
    (h : ∀ n ∈ m.labels, pos ≤ n.span.start ∧ (n.span.start ≠ pos ∨ n.span.start < n.span.stop)) :
    part pos m = ⟨.nil, .nil, m⟩ := by
  induction m with
  | nil => rfl
  | node n kids rest _ ih =>
    rw [part_right (h n (List.mem_cons_self ..)), ih fun a ha => h a (List.mem_cons_of_mem _ ha)]

theorem part_of_lt (h : Nests lo hi m) (hpos : pos < lo) : part pos m = ⟨.nil, .nil, m⟩ :=
  part_of_right fun n hn => by
    have := h.bounds (Forest.labels_subset_preorder hn)
    omega

theorem part_of_gt (h : Nests lo hi m) (hpos : hi < pos) : part pos m = ⟨m, .nil, .nil⟩ :=
  part_of_left fun n hn => by
    have := h.bounds (Forest.labels_subset_preorder hn)
    omega

/-- At the start of a nest there is nothing on the left. -/
theorem part_start (h : Nests pos hi m) :
    (part pos m).left = .nil ∧ (part pos m).lifted ++ (part pos m).right = m := by
  induction m with
  | nil => exact ⟨rfl, rfl⟩
  | node n kids rest _ ih =>
    obtain ⟨h₁, h₂, h₃⟩ := h
    have hle := h₂.le
    rcases n.span.lies pos with hn | hn | hn | hn
    · omega
    · have hstop : n.span.stop = pos := by omega
      rw [hstop] at h₃
      rw [part_marker hn]
      exact ⟨(ih h₃).1, by simp [(ih h₃).2]⟩
    · rw [part_right hn]
      rw [part_of_lt h₃ (by omega)]
      exact ⟨rfl, rfl⟩
    · omega

/-- At the end of a nest there is nothing on the right. -/
theorem part_stop (h : Nests lo pos m) :
    (part pos m).right = .nil ∧ (part pos m).left ++ (part pos m).lifted = m := by
  induction m generalizing lo with
  | nil => exact ⟨rfl, rfl⟩
  | node n kids rest _ ih =>
    obtain ⟨h₁, h₂, h₃⟩ := h
    have hle := h₂.le
    have hle' := h₃.le
    rcases n.span.lies pos with hn | hn | hn | hn
    · omega
    · have hstop : n.span.stop = pos := by omega
      rw [hstop] at h₃
      have hleft := (part_start h₃).1
      rw [part_marker hn]
      refine ⟨(ih h₃).1, ?_⟩
      have := (ih h₃).2
      rw [hleft] at this ⊢
      simpa using this
    · omega
    · rw [part_left hn]
      exact ⟨(ih h₃).1, by simp [(ih h₃).2]⟩

/-- The parts nest on their sides of the position. -/
theorem Nests.part (h : Nests lo hi m) (hlo : lo ≤ pos) (hhi : pos ≤ hi) :
    Nests lo pos (m.part pos).left ∧ Nests pos pos (m.part pos).lifted ∧
      Nests pos hi (m.part pos).right := by
  induction m generalizing lo hi with
  | nil => exact ⟨hlo, Nat.le_refl _, hhi⟩
  | node n kids rest ihk ihr =>
    obtain ⟨h₁, h₂, h₃⟩ := h
    have hle := h₂.le
    have hle' := h₃.le
    rcases n.span.lies pos with hn | hn | hn | hn
    · obtain ⟨kl, km, kr⟩ := ihk h₂ (by omega) (by omega)
      rw [part_cut hn, part_of_lt h₃ hn.2]
      refine ⟨⟨h₁, kl, Nat.le_refl _⟩, km.append (Nat.le_refl _), Nat.le_refl _, kr, h₃⟩
    · have hstop : n.span.stop = pos := by omega
      obtain ⟨rl, rm, rr⟩ := ihr h₃ (by omega) (by omega)
      rw [part_marker hn]
      refine ⟨rl.mono (by omega) (Nat.le_refl _), ⟨by omega, h₂, by rwa [hstop]⟩, rr⟩
    · rw [part_right hn]
      by_cases hpos : n.span.stop ≤ pos
      · have hstop : n.span.stop = pos := by omega
        omega
      · rw [part_of_lt h₃ (by omega)]
        exact ⟨hlo, Nat.le_refl _, by omega, h₂, h₃⟩
    · obtain ⟨rl, rm, rr⟩ := ihr h₃ (by omega) hhi
      rw [part_left hn]
      exact ⟨⟨h₁, h₂, rl⟩, rm, rr⟩

/-! ## Two positions -/

/-- A part divided at the same position again stays as it is. -/
theorem part_part_left (m : Markup) : part pos (part pos m).left = ⟨(part pos m).left, .nil, .nil⟩ :=
  part_of_left fun _ => left_of_part m

theorem part_part_right (m : Markup) :
    part pos (part pos m).right = ⟨.nil, .nil, (part pos m).right⟩ :=
  part_of_right fun _ => right_of_part m

/-- Divisions at two positions can be exchanged. -/
theorem part_part (hpq : p < q) (m : Markup) :
    part p (part q m).left =
        ⟨(part p m).left, (part p m).lifted, (part q (part p m).right).left⟩ ∧
      (part q m).lifted = (part q (part p m).right).lifted ∧
      (part q m).right = (part q (part p m).right).right := by
  induction m with
  | nil => exact ⟨rfl, rfl, rfl⟩
  | node n kids rest ihk ihr =>
    obtain ⟨k₁, k₂, k₃⟩ := ihk
    obtain ⟨r₁, r₂, r₃⟩ := ihr
    rcases n.span.lies p with hp | hp | hp | hp
    · rcases n.span.lies q with hq | hq | hq | hq
      · rw [part_cut hp, part_cut hq, part_cut (n := n.leftHalf q) ⟨hp.1, hpq⟩,
          part_cut (n := n.rightHalf p 0) ⟨hpq, hq.2⟩, k₁, r₁]
        refine ⟨rfl, ?_, ?_⟩
        · simp only [k₂, r₂]
        · simp only [k₃, r₃, Node.rightHalf]
      · omega
      · omega
      · rw [part_cut hp, part_left hq, part_cut hp,
          part_left (n := n.rightHalf p 0) ⟨hpq, hq.2⟩, r₁]
        exact ⟨rfl, r₂, r₃⟩
    · have hq : n.span.start < q ∧ n.span.stop ≤ q := by omega
      rw [part_marker hp, part_left hq, part_marker hp, r₁]
      exact ⟨rfl, r₂, r₃⟩
    · rcases n.span.lies q with hq | hq | hq | hq
      · rw [part_right hp, part_cut hq, part_cut hq,
          part_right (n := n.leftHalf q) ⟨hp.1, Or.inr hq.1⟩, r₁]
        exact ⟨rfl, by simp only [r₂], by simp only [r₃]⟩
      · rw [part_right hp, part_marker hq, part_marker hq, r₁]
        exact ⟨rfl, by simp only [r₂], r₃⟩
      · rw [part_right hp, part_right hq, part_right hq, r₁]
        exact ⟨rfl, r₂, by simp only [r₃]⟩
      · rw [part_right hp, part_left hq, part_right hp, part_left hq, r₁]
        exact ⟨rfl, r₂, r₃⟩
    · have hq : n.span.start < q ∧ n.span.stop ≤ q := by omega
      rw [part_left hp, part_left hq, part_left hp, r₁]
      exact ⟨rfl, r₂, r₃⟩

/-! ## Division with a supply of numbers -/

@[simp] theorem divide_nil : divide pos .nil s = ⟨.nil, .nil, .nil, s⟩ := rfl

theorem divide_cut (h : n.span.start < pos ∧ pos < n.span.stop) :
    divide pos (.node n kids rest) s =
      { left := .node (n.leftHalf pos) (divide pos kids (s.cut n pos)).left
          (divide pos rest (divide pos kids (s.cut n pos)).supply).left
        lifted := (divide pos kids (s.cut n pos)).lifted ++
          (divide pos rest (divide pos kids (s.cut n pos)).supply).lifted
        right := .node (n.rightHalf pos s.next) (divide pos kids (s.cut n pos)).right
          (divide pos rest (divide pos kids (s.cut n pos)).supply).right
        supply := (divide pos rest (divide pos kids (s.cut n pos)).supply).supply } := by
  simp [divide, Span.strictlyContains_iff.mpr h]

theorem divide_marker (h : n.span.stop ≤ n.span.start ∧ n.span.start = pos) :
    divide pos (.node n kids rest) s =
      { divide pos rest s with lifted := .node n kids (divide pos rest s).lifted } := by
  have h₁ : n.span.strictlyContains pos = false := by
    rw [← Bool.not_eq_true, Span.strictlyContains_iff]; omega
  simp [divide, h₁, Span.isEmptyAt_iff.mpr h]

theorem divide_right (h : pos ≤ n.span.start ∧ (n.span.start ≠ pos ∨ n.span.start < n.span.stop)) :
    divide pos (.node n kids rest) s =
      { divide pos rest s with right := .node n kids (divide pos rest s).right } := by
  have h₁ : n.span.strictlyContains pos = false := by
    rw [← Bool.not_eq_true, Span.strictlyContains_iff]; omega
  have h₂ : n.span.isEmptyAt pos = false := by
    rw [← Bool.not_eq_true, Span.isEmptyAt_iff]; omega
  simp [divide, h₁, h₂, h.1]

theorem divide_left (h : n.span.start < pos ∧ n.span.stop ≤ pos) :
    divide pos (.node n kids rest) s =
      { divide pos rest s with left := .node n kids (divide pos rest s).left } := by
  have h₁ : n.span.strictlyContains pos = false := by
    rw [← Bool.not_eq_true, Span.strictlyContains_iff]; omega
  have h₂ : n.span.isEmptyAt pos = false := by
    rw [← Bool.not_eq_true, Span.isEmptyAt_iff]; omega
  have h₃ : ¬ pos ≤ n.span.start := by omega
  simp [divide, h₁, h₂, h₃]

end Markup

end Standoff
