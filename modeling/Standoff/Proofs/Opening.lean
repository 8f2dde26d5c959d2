import Standoff.Proofs.Numbers

/-! # A row opened for a new element

To make room for an element over `[a, b)` the library scans the row: it cuts what crosses the span
and deals the rest to both sides.  In a row that nests this is the same as two divisions, at `a`
and then at `b`:

    before = left at a ++ unclaimed markers at a
    inside = claimed markers at a ++ left at b ++ claimed markers at b
    after  = unclaimed markers at b ++ right at b

* `Markup.opening`: the row in that form.
* `Markup.deal_cutCrossing`: the scan computes it, numbers and supply included. -/

namespace Standoff

/-! ## Sides -/

namespace Span

variable {s span : Span}

theorem side_before (h : s.start ≤ span.start ∧ s.stop ≤ span.start) :
    s.side span = .before := by
  by_cases he : s.stop ≤ s.start <;> simp [side, isEmpty, he, h]

theorem side_after (h : span.start ≤ span.stop ∧ span.stop ≤ s.start ∧ span.start < s.stop)
    (hs : s.start ≤ s.stop) : s.side span = .after := by
  by_cases he : s.stop ≤ s.start
  · have h₁ : ¬ s.start ≤ span.start := by omega
    simp [side, isEmpty, he, h₁, h]
  · have h₁ : ¬ s.stop ≤ span.start := by omega
    simp [side, isEmpty, he, h₁, h]

theorem side_inside (h : span.start ≤ s.start ∧ s.stop ≤ span.stop ∧ s.start < span.stop ∧
    span.start < s.stop) (hs : s.start ≤ s.stop) : s.side span = .inside := by
  have h₂ : ¬ span.stop ≤ s.start := by omega
  by_cases he : s.stop ≤ s.start
  · have h₁ : ¬ s.start ≤ span.start := by omega
    simp [side, isEmpty, he, h₁, h₂]
  · have h₁ : ¬ s.stop ≤ span.start := by omega
    simp [side, isEmpty, contains, he, h₁, h₂, h]

theorem side_crossStart (h : s.start < span.start ∧ span.start < s.stop ∧ span.start ≤ span.stop) :
    s.side span = .crossing span.start := by
  have he : ¬ s.stop ≤ s.start := by omega
  have h₁ : ¬ s.stop ≤ span.start := by omega
  have h₂ : ¬ span.stop ≤ s.start := by omega
  have h₃ : ¬ span.start ≤ s.start := by omega
  simp [side, isEmpty, contains, he, h₁, h₂, h₃]

theorem side_crossStop (h : span.start ≤ s.start ∧ s.start < span.stop ∧ span.stop < s.stop) :
    s.side span = .crossing span.stop := by
  have he : ¬ s.stop ≤ s.start := by omega
  have h₁ : ¬ s.stop ≤ span.start := by omega
  have h₂ : ¬ span.stop ≤ s.start := by omega
  have h₃ : ¬ s.stop ≤ span.stop := by omega
  have h₄ : ¬ s.start < span.start := by omega
  simp [side, isEmpty, contains, he, h₁, h₂, h₃, h₄]

/-- A boundary that a span crosses lies inside it. -/
theorem side_crossing {pos : Nat} (h : s.side span = .crossing pos) :
    s.start < pos ∧ pos < s.stop := by
  unfold side at h
  split at h
  · split at h
    · cases h
    · split at h <;> cases h
  · split at h
    · cases h
    · split at h
      · cases h
      · split at h
        · cases h
        · next hcontains =>
          rw [contains, Bool.and_eq_true, decide_eq_true_eq, decide_eq_true_eq] at hcontains
          split at h
          · injection h with hpos
            omega
          · injection h with hpos
            omega

/-- The five ways in which an ordered span can lie to another. -/
theorem sides (s span : Span) :
    (s.start ≤ span.start ∧ s.stop ≤ span.start) ∨
      (span.stop ≤ s.start ∧ span.start < s.stop) ∨
      (span.start ≤ s.start ∧ s.stop ≤ span.stop ∧ s.start < span.stop ∧ span.start < s.stop) ∨
      (s.start < span.start ∧ span.start < s.stop ∧ s.start < span.stop) ∨
      (span.start ≤ s.start ∧ s.start < span.stop ∧ span.stop < s.stop) ∨
      (s.stop ≤ span.start ∧ span.start < s.start) := by
  omega

theorem admits_iff : s.admits span = true ↔
    (span.stop ≤ span.start ∧ s.start < span.start ∧ span.start < s.stop) ∨
      (span.start < span.stop ∧ s.start ≤ span.start ∧ span.stop ≤ s.stop) := by
  by_cases h : span.stop ≤ span.start
  · have hempty : span.isEmpty = true := decide_eq_true h
    rw [admits, hempty, if_pos rfl, strictlyContains_iff]
    omega
  · have hempty : span.isEmpty = false := decide_eq_false h
    rw [admits, hempty, if_neg Bool.false_ne_true, Bool.and_eq_true, contains, Bool.and_eq_true,
      decide_eq_true_eq, decide_eq_true_eq, isEmpty, Bool.not_eq_true', decide_eq_false_iff_not]
    omega

theorem isBeyond_iff : s.isBeyond span = true ↔ s.start < s.stop ∨ span.stop < s.start := by
  simp [isBeyond, isEmpty]

end Span

namespace Markup

/-- The node is one of those claimed. -/
def isClaimed (claimed : List NodeId) (n : Node) : Bool := decide (n.id ∈ claimed)

/-- A row opened for `span`, and the supply left. -/
def opening (claimed : List NodeId) (span : Span) (row : Markup) (s : Supply) : Deal × Supply :=
  let atStart := divide span.start row s
  let atStop := divide span.stop atStart.right atStart.supply
  ({ before := atStart.left ++ atStart.lifted.drop (isClaimed claimed)
     inside := atStart.lifted.keep (isClaimed claimed) ++ atStop.left ++
       atStop.lifted.keep (isClaimed claimed)
     after := atStop.lifted.drop (isClaimed claimed) ++ atStop.right },
    atStop.supply)

variable {claimed : List NodeId} {span : Span} {lo hi : Nat} {m row kids rest : Markup}
  {n : Node} {s : Supply}

/-! ## Steps of the scan -/

theorem cutCrossing_claimed (h : n.id ∈ claimed) :
    cutCrossing claimed span (.node n kids rest) s =
      ⟨.node n kids (cutCrossing claimed span rest s).markup,
        (cutCrossing claimed span rest s).supply⟩ := by
  simp [cutCrossing, cutCrossing.keep, h]

theorem cutCrossing_whole (h : n.id ∉ claimed)
    (hs : n.span.side span = .before ∨ n.span.side span = .inside ∨
      (n.span.side span = .after ∧ n.span.isBeyond span = false)) :
    cutCrossing claimed span (.node n kids rest) s =
      ⟨.node n kids (cutCrossing claimed span rest s).markup,
        (cutCrossing claimed span rest s).supply⟩ := by
  rcases hs with hs | hs | ⟨hs, hb⟩
  · simp [cutCrossing, cutCrossing.keep, h, hs]
  · simp [cutCrossing, cutCrossing.keep, h, hs]
  · simp [cutCrossing, cutCrossing.keep, h, hs, hb]

/-- A row that nothing crosses stays whole. -/
theorem cutCrossing_of_firstCrossing (h : firstCrossing claimed span m = none) :
    cutCrossing claimed span m s = ⟨m, s⟩ := by
  induction m with
  | nil => rfl
  | node n kids rest _ ih =>
    rw [firstCrossing] at h
    by_cases hc : n.id ∈ claimed
    · rw [if_pos hc] at h
      rw [cutCrossing_claimed hc, ih h]
    · rw [if_neg hc] at h
      cases hs : n.span.side span with
      | before =>
        rw [hs] at h
        rw [cutCrossing_whole hc (Or.inl hs), ih h]
      | inside =>
        rw [hs] at h
        rw [cutCrossing_whole hc (Or.inr (Or.inl hs)), ih h]
      | after =>
        rw [hs] at h
        cases hb : n.span.isBeyond span with
        | true => simp [cutCrossing, hc, hs, hb]
        | false =>
          simp only [hb, Bool.false_eq_true, if_false] at h
          rw [cutCrossing_whole hc (Or.inr (Or.inr ⟨hs, hb⟩)), ih h]
      | crossing pos => rw [hs] at h; cases h

theorem cutCrossing_crossing {pos : Nat} (h : n.id ∉ claimed)
    (hs : n.span.side span = .crossing pos) :
    (cutCrossing claimed span (.node n kids rest) s).supply =
      if pos = span.stop then (divide pos (.node n kids .nil) s).supply
      else (cutCrossing claimed span rest (divide pos (.node n kids .nil) s).supply).supply := by
  simp only [cutCrossing, if_neg h, hs]
  split <;> rfl

theorem cutCrossing_le (claimed : List NodeId) (span : Span) (m : Markup) (s : Supply) :
    s.Le (cutCrossing claimed span m s).supply := by
  induction m generalizing s with
  | nil => exact .refl s
  | node n kids rest _ ih =>
    by_cases hc : n.id ∈ claimed
    · rw [cutCrossing_claimed hc]
      exact ih s
    · cases hs : n.span.side span with
      | before =>
        rw [cutCrossing_whole hc (Or.inl hs)]
        exact ih s
      | inside =>
        rw [cutCrossing_whole hc (Or.inr (Or.inl hs))]
        exact ih s
      | after =>
        cases hb : n.span.isBeyond span with
        | true =>
          have hcut : cutCrossing claimed span (.node n kids rest) s = ⟨.node n kids rest, s⟩ := by
            simp [cutCrossing, hc, hs, hb]
          rw [hcut]
          exact .refl s
        | false =>
          rw [cutCrossing_whole hc (Or.inr (Or.inr ⟨hs, hb⟩))]
          exact ih s
      | crossing pos =>
        rw [cutCrossing_crossing hc hs]
        have hle := divide_le pos (.node n kids .nil) s
        split
        · exact hle
        · exact hle.trans (ih _)

/-- A row that something crosses is cut. -/
theorem cutCrossing_lt {x : Node} (h : firstCrossing claimed span m = some x) :
    s.next < (cutCrossing claimed span m s).supply.next := by
  induction m with
  | nil => cases h
  | node n kids rest _ ih =>
    rw [firstCrossing] at h
    by_cases hc : n.id ∈ claimed
    · rw [if_pos hc] at h
      rw [cutCrossing_claimed hc]
      exact ih h
    · rw [if_neg hc] at h
      cases hs : n.span.side span with
      | before =>
        rw [hs] at h
        rw [cutCrossing_whole hc (Or.inl hs)]
        exact ih h
      | inside =>
        rw [hs] at h
        rw [cutCrossing_whole hc (Or.inr (Or.inl hs))]
        exact ih h
      | after =>
        rw [hs] at h
        cases hb : n.span.isBeyond span with
        | true =>
          rw [hb] at h
          cases h
        | false =>
          simp only [hb, Bool.false_eq_true, if_false] at h
          rw [cutCrossing_whole hc (Or.inr (Or.inr ⟨hs, hb⟩))]
          exact ih h
      | crossing pos =>
        rw [cutCrossing_crossing hc hs, divide_cut (Span.side_crossing hs)]
        have hcut : s.next < (divide pos kids (s.cut n pos)).supply.next :=
          (divide_le pos kids (s.cut n pos)).next
        split
        · exact hcut
        · exact Nat.lt_of_lt_of_le hcut (cutCrossing_le claimed span rest _).next

theorem deal_claimed (passed : Bool) (h : n.id ∈ claimed) :
    deal claimed span passed (.node n kids rest) =
      { deal claimed span passed rest with
        inside := .node n kids (deal claimed span passed rest).inside } := by
  simp [deal, h]

theorem deal_inside (passed : Bool) (h : n.id ∉ claimed) (hs : n.span.side span = .inside) :
    deal claimed span passed (.node n kids rest) =
      { deal claimed span passed rest with
        inside := .node n kids (deal claimed span passed rest).inside } := by
  simp [deal, h, hs]

theorem deal_before (h : n.id ∉ claimed) (hs : n.span.side span = .before) :
    deal claimed span false (.node n kids rest) =
      { deal claimed span false rest with
        before := .node n kids (deal claimed span false rest).before } := by
  simp [deal, h, hs]

theorem deal_after (passed : Bool) (h : n.id ∉ claimed) (hs : n.span.side span = .after)
    (hb : n.span.isBeyond span = false) :
    deal claimed span passed (.node n kids rest) =
      { deal claimed span true rest with
        after := .node n kids (deal claimed span true rest).after } := by
  simp [deal, h, hs, hb]

theorem deal_beyond (passed : Bool) (h : n.id ∉ claimed) (hs : n.span.side span = .after)
    (hb : n.span.isBeyond span = true) :
    deal claimed span passed (.node n kids rest) = ⟨.nil, .nil, .node n kids rest⟩ := by
  simp [deal, h, hs, hb]

theorem keep_claimed (h : n.id ∈ claimed) :
    Forest.keep (isClaimed claimed) (.node n kids rest) =
      .node n kids (rest.keep (isClaimed claimed)) := by
  simp [Forest.keep, isClaimed, h]

theorem keep_unclaimed (h : n.id ∉ claimed) :
    Forest.keep (isClaimed claimed) (.node n kids rest) = rest.keep (isClaimed claimed) := by
  simp [Forest.keep, isClaimed, h]

theorem drop_claimed (h : n.id ∈ claimed) :
    Forest.drop (isClaimed claimed) (.node n kids rest) = rest.drop (isClaimed claimed) := by
  simp [Forest.drop, Forest.keep, isClaimed, h]

theorem drop_unclaimed (h : n.id ∉ claimed) :
    Forest.drop (isClaimed claimed) (.node n kids rest) =
      .node n kids (rest.drop (isClaimed claimed)) := by
  simp [Forest.drop, Forest.keep, isClaimed, h]

/-! ## Openings, node by node -/

theorem opening_before (hrest : Nests n.span.stop hi rest) (hc : n.id ∉ claimed)
    (hord : n.span.start ≤ n.span.stop)
    (h : n.span.start ≤ span.start ∧ n.span.stop ≤ span.start) :
    opening claimed span (.node n kids rest) s =
      ({ (opening claimed span rest s).1 with
          before := .node n kids (opening claimed span rest s).1.before },
        (opening claimed span rest s).2) := by
  by_cases hlt : n.span.start < span.start
  · rw [opening, divide_left ⟨hlt, h.2⟩]
    rfl
  · have hstart : n.span.start = span.start := by omega
    have hstop : n.span.stop = span.start := by omega
    rw [hstop] at hrest
    rw [opening, opening, divide_marker (by omega), divide_start hrest]
    simp [drop_unclaimed hc, keep_unclaimed hc]

theorem opening_inside (hrest : Nests n.span.stop hi rest)
    (h : span.start ≤ n.span.start ∧ n.span.stop ≤ span.stop ∧ n.span.start < span.stop ∧
      span.start < n.span.stop) :
    opening claimed span (.node n kids rest) s =
      ({ (opening claimed span rest s).1 with
          inside := .node n kids (opening claimed span rest s).1.inside },
        (opening claimed span rest s).2) := by
  have hlt : divide span.start rest s = ⟨.nil, .nil, rest, s⟩ := divide_of_lt hrest h.2.2.2
  rw [opening, opening, divide_right (by omega), hlt, divide_left ⟨h.2.2.1, h.2.1⟩]
  rfl

theorem opening_claimed (hab : span.start ≤ span.stop) (hrest : Nests n.span.stop hi rest)
    (hc : n.id ∈ claimed) (hord : n.span.start ≤ n.span.stop)
    (h : span.start ≤ n.span.start ∧ n.span.stop ≤ span.stop) :
    opening claimed span (.node n kids rest) s =
      ({ (opening claimed span rest s).1 with
          inside := .node n kids (opening claimed span rest s).1.inside },
        (opening claimed span rest s).2) := by
  by_cases hstart : n.span.stop = span.start
  · rw [opening, opening, divide_marker (by omega)]
    simp [drop_claimed hc, keep_claimed hc]
  · by_cases hstop : n.span.start = span.stop
    · have hlt : divide span.start rest s = ⟨.nil, .nil, rest, s⟩ := divide_of_lt hrest (by omega)
      rw [show n.span.stop = span.stop by omega] at hrest
      rw [opening, opening, divide_right (by omega), hlt, divide_marker (by omega),
        divide_start hrest]
      simp [drop_claimed hc, keep_claimed hc]
    · exact opening_inside hrest (by omega)

theorem opening_after (hrest : Nests n.span.stop hi rest) (hc : n.id ∉ claimed)
    (h : n.span.start = span.stop ∧ n.span.stop = span.stop ∧ span.start < span.stop) :
    opening claimed span (.node n kids rest) s =
      ({ (opening claimed span rest s).1 with
          after := .node n kids (opening claimed span rest s).1.after },
        (opening claimed span rest s).2) := by
  have hlt : divide span.start rest s = ⟨.nil, .nil, rest, s⟩ := divide_of_lt hrest (by omega)
  rw [opening, opening, divide_right (by omega), hlt, divide_marker (by omega)]
  simp [drop_unclaimed hc, keep_unclaimed hc]

theorem opening_beyond (hab : span.start ≤ span.stop) (hrest : Nests n.span.stop hi rest)
    (hord : n.span.start ≤ n.span.stop)
    (h : span.stop ≤ n.span.start ∧ span.start < n.span.stop ∧
      (n.span.start < n.span.stop ∨ span.stop < n.span.start)) :
    opening claimed span (.node n kids rest) s = (⟨.nil, .nil, .node n kids rest⟩, s) := by
  have hlt : divide span.start rest s = ⟨.nil, .nil, rest, s⟩ := divide_of_lt hrest (by omega)
  have hlt' : divide span.stop rest s = ⟨.nil, .nil, rest, s⟩ := divide_of_lt hrest (by omega)
  rw [opening, divide_right (by omega), hlt, divide_right (by omega), hlt']
  rfl

/-- The node that crosses the start of the span; `halves` are its parts. -/
theorem opening_crossStart (hrest : Nests n.span.stop hi rest)
    (h : n.span.start < span.start ∧ span.start < n.span.stop ∧ n.span.stop < span.stop)
    {halves : Division} (hhalves : halves = divide span.start (.node n kids .nil) s) :
    opening claimed span (.node n kids rest) s =
      ({ before := halves.left ++ halves.lifted.drop (isClaimed claimed) ++
           (opening claimed span rest halves.supply).1.before
         inside := halves.lifted.keep (isClaimed claimed) ++ halves.right ++
           (opening claimed span rest halves.supply).1.inside
         after := (opening claimed span rest halves.supply).1.after },
        (opening claimed span rest halves.supply).2) := by
  have hlt (s : Supply) : divide span.start rest s = ⟨.nil, .nil, rest, s⟩ :=
    divide_of_lt hrest h.2.1
  subst hhalves
  rw [opening, opening, divide_cut ⟨h.1, h.2.1⟩, divide_cut ⟨h.1, h.2.1⟩, divide_nil]
  simp only [hlt]
  rw [divide_left (n := n.rightHalf span.start s.next) (by simp [Node.rightHalf]; omega)]
  simp [Forest.append_assoc, Forest.drop]

/-- The node that crosses the end of the span; `halves` are its parts. -/
theorem opening_crossStop (hrest : Nests n.span.stop hi rest)
    (h : span.start ≤ n.span.start ∧ n.span.start < span.stop ∧ span.stop < n.span.stop)
    {halves : Division} (hhalves : halves = divide span.stop (.node n kids .nil) s) :
    opening claimed span (.node n kids rest) s =
      ({ before := .nil
         inside := halves.left ++ halves.lifted.keep (isClaimed claimed)
         after := halves.lifted.drop (isClaimed claimed) ++ halves.right ++ rest },
        halves.supply) := by
  have hlt : divide span.start rest s = ⟨.nil, .nil, rest, s⟩ := divide_of_lt hrest (by omega)
  have hlt' (s : Supply) : divide span.stop rest s = ⟨.nil, .nil, rest, s⟩ :=
    divide_of_lt hrest h.2.2
  subst hhalves
  rw [opening, divide_right (by omega), hlt, divide_cut h.2, divide_cut h.2, divide_nil]
  simp [hlt', Forest.append_assoc]
  rfl

/-! ## The scan is an opening -/

/-- Markers at the start of the span. -/
theorem deal_lifted_start {g : Markup} (passed : Bool) (hp : passed = false)
    (hm : ∀ n ∈ m.labels, n.span.stop ≤ n.span.start ∧ n.span.start = span.start) :
    deal claimed span passed (m ++ g) =
      ⟨m.drop (isClaimed claimed) ++ (deal claimed span passed g).before,
        m.keep (isClaimed claimed) ++ (deal claimed span passed g).inside,
        (deal claimed span passed g).after⟩ := by
  subst hp
  induction m with
  | nil => rfl
  | node n kids rest _ ih =>
    have hn := hm n (List.mem_cons_self ..)
    have ih := ih fun a ha => hm a (List.mem_cons_of_mem _ ha)
    rw [Forest.node_append]
    by_cases hc : n.id ∈ claimed
    · rw [deal_claimed _ hc, ih, keep_claimed hc, drop_claimed hc]
      rfl
    · rw [deal_before hc (Span.side_before (by omega)), ih, keep_unclaimed hc, drop_unclaimed hc]
      rfl

/-- Markers at the end of the span, in front of a row that lies beyond. -/
theorem deal_lifted_stop {g : Markup} (passed : Bool) (hab : span.start < span.stop)
    (hm : ∀ n ∈ m.labels, n.span.stop = n.span.start ∧ n.span.start = span.stop)
    (hg : ∀ passed, deal claimed span passed g = ⟨.nil, .nil, g⟩) :
    deal claimed span passed (m ++ g) =
      ⟨.nil, m.keep (isClaimed claimed), m.drop (isClaimed claimed) ++ g⟩ := by
  induction m generalizing passed with
  | nil => exact hg passed
  | node n kids rest _ ih =>
    have hn := hm n (List.mem_cons_self ..)
    have ih := fun passed => ih passed fun a ha => hm a (List.mem_cons_of_mem _ ha)
    rw [Forest.node_append]
    by_cases hc : n.id ∈ claimed
    · rw [deal_claimed _ hc, ih, keep_claimed hc, drop_claimed hc]
    · have hb : n.span.isBeyond span = false := by
        rw [← Bool.not_eq_true, Span.isBeyond_iff]
        omega
      rw [deal_after _ hc (Span.side_after (by omega) (by omega)) hb, ih, keep_unclaimed hc,
        drop_unclaimed hc]
      rfl

/-- A node that lies beyond hides all that follows it. -/
theorem deal_right (hc : n.id ∉ claimed) (h : span.stop ≤ n.span.start ∧ span.start < n.span.stop ∧
    span.start ≤ span.stop ∧ n.span.start < n.span.stop) (passed : Bool) :
    deal claimed span passed (.node n kids rest) = ⟨.nil, .nil, .node n kids rest⟩ :=
  deal_beyond passed hc (Span.side_after (by omega) (by omega)) (Span.isBeyond_iff.mpr (by omega))

/-- Once the row has passed the end of the span, it does not matter that this is known. -/
theorem deal_passed (hab : span.start < span.stop) (hrow : Nests span.stop hi row) :
    deal claimed span true row = deal claimed span false row := by
  induction row with
  | nil => rfl
  | node n kids rest _ ih =>
    obtain ⟨h₁, h₂, h₃⟩ := hrow
    have hord := h₂.le
    have ih := ih (h₃.mono (by omega) (Nat.le_refl _))
    by_cases hc : n.id ∈ claimed
    · rw [deal_claimed _ hc, deal_claimed _ hc, ih]
    · have hs : n.span.side span = .after := Span.side_after (by omega) hord
      cases hb : n.span.isBeyond span with
      | true => rw [deal_beyond _ hc hs hb, deal_beyond _ hc hs hb]
      | false => rw [deal_after _ hc hs hb, deal_after _ hc hs hb]

/-- Nothing crosses the span in a row behind its end. -/
theorem firstCrossing_of_stop (claimed : List NodeId) (hab : span.start < span.stop)
    (hrow : Nests span.stop hi row) :
    firstCrossing claimed span row = none := by
  induction row with
  | nil => rfl
  | node n kids rest _ ih =>
    obtain ⟨h₁, h₂, h₃⟩ := hrow
    have hord := h₂.le
    have ih := ih (h₃.mono (by omega) (Nat.le_refl _))
    have hs : n.span.side span = .after := Span.side_after (by omega) hord
    simp [firstCrossing, hs, ih]

/-- The scan of the row is its opening. -/
def ScanOpens (claimed : List NodeId) (span : Span) (row : Markup) (s : Supply) : Prop :=
  (deal claimed span false (cutCrossing claimed span row s).markup,
    (cutCrossing claimed span row s).supply) = opening claimed span row s

namespace ScanOpens

/-! A node in front of a row, by the way it lies to the span. -/

theorem claimed_node (hab : span.start ≤ span.stop) (hrest : Nests n.span.stop hi rest)
    (hord : n.span.start ≤ n.span.stop) (hc : n.id ∈ claimed)
    (h : span.start ≤ n.span.start ∧ n.span.stop ≤ span.stop)
    (hscan : ScanOpens claimed span rest s) : ScanOpens claimed span (.node n kids rest) s := by
  obtain ⟨h₁, h₂⟩ := Prod.ext_iff.mp hscan
  rw [ScanOpens, cutCrossing_claimed hc, deal_claimed _ hc, opening_claimed hab hrest hc hord h,
    ← h₁, ← h₂]

theorem before_node (hrest : Nests n.span.stop hi rest) (hord : n.span.start ≤ n.span.stop)
    (hc : n.id ∉ claimed) (h : n.span.start ≤ span.start ∧ n.span.stop ≤ span.start)
    (hscan : ScanOpens claimed span rest s) : ScanOpens claimed span (.node n kids rest) s := by
  obtain ⟨h₁, h₂⟩ := Prod.ext_iff.mp hscan
  have hs := Span.side_before h
  rw [ScanOpens, cutCrossing_whole hc (Or.inl hs), deal_before hc hs,
    opening_before hrest hc hord h, ← h₁, ← h₂]

theorem inside_node (hrest : Nests n.span.stop hi rest) (hord : n.span.start ≤ n.span.stop)
    (hc : n.id ∉ claimed) (h : span.start ≤ n.span.start ∧ n.span.stop ≤ span.stop ∧
      n.span.start < span.stop ∧ span.start < n.span.stop)
    (hscan : ScanOpens claimed span rest s) : ScanOpens claimed span (.node n kids rest) s := by
  obtain ⟨h₁, h₂⟩ := Prod.ext_iff.mp hscan
  have hs := Span.side_inside h hord
  rw [ScanOpens, cutCrossing_whole hc (Or.inr (Or.inl hs)), deal_inside _ hc hs,
    opening_inside hrest h, ← h₁, ← h₂]

/-- A marker at the end of the span, or a node beyond. -/
theorem after_node (hab : span.start ≤ span.stop) (hrest : Nests n.span.stop hi rest)
    (hord : n.span.start ≤ n.span.stop) (hc : n.id ∉ claimed)
    (h : span.stop ≤ n.span.start ∧ span.start < n.span.stop)
    (hscan : ScanOpens claimed span rest s) : ScanOpens claimed span (.node n kids rest) s := by
  have hs : n.span.side span = .after := Span.side_after ⟨hab, h⟩ hord
  cases hb : n.span.isBeyond span with
  | true =>
    have hbeyond := Span.isBeyond_iff.mp hb
    have hcut : cutCrossing claimed span (.node n kids rest) s = ⟨.node n kids rest, s⟩ := by
      simp [cutCrossing, hc, hs, hb]
    rw [ScanOpens, hcut, deal_beyond _ hc hs hb,
      opening_beyond hab hrest hord ⟨h.1, h.2, hbeyond⟩]
  | false =>
    have hmark : ¬ (n.span.start < n.span.stop ∨ span.stop < n.span.start) := fun hm => by
      rw [Span.isBeyond_iff.mpr hm] at hb
      cases hb
    have hlt : span.start < span.stop := by omega
    have hrest' : Nests span.stop hi rest := hrest.mono (by omega) (Nat.le_refl _)
    have hcut := cutCrossing_of_firstCrossing (s := s)
      (firstCrossing_of_stop claimed hlt hrest')
    obtain ⟨h₁, h₂⟩ := Prod.ext_iff.mp hscan
    rw [hcut] at h₁ h₂
    rw [ScanOpens, cutCrossing_whole hc (Or.inr (Or.inr ⟨hs, hb⟩)), hcut, deal_after _ hc hs hb,
      deal_passed hlt hrest', opening_after hrest hc (by omega), ← h₁, ← h₂]

/-- The halves of a node that crosses the start, with its markers there between them. -/
theorem crossStart_node (hkids : Nests n.span.start n.span.stop kids)
    (hrest : Nests n.span.stop hi rest) (hc : n.id ∉ claimed) (hnew : s.next ∉ claimed)
    (h : n.span.start < span.start ∧ span.start < n.span.stop ∧ n.span.stop < span.stop)
    (hscan : ScanOpens claimed span rest (divide span.start (.node n kids .nil) s).supply) :
    ScanOpens claimed span (.node n kids rest) s := by
  have hs : n.span.side span = .crossing span.start := Span.side_crossStart (by omega)
  have hne : span.start ≠ span.stop := by omega
  have hrow : Nests n.span.start n.span.stop (.node n kids .nil) :=
    ⟨Nat.le_refl _, hkids, Nat.le_refl _⟩
  obtain ⟨-, hlifted, -⟩ := hrow.divide (Nat.le_of_lt h.1) (Nat.le_of_lt h.2.1) s
  obtain ⟨h₁, h₂⟩ := Prod.ext_iff.mp hscan
  have hcut : cutCrossing claimed span (.node n kids rest) s =
      ⟨(divide span.start (.node n kids .nil) s).row ++
        (cutCrossing claimed span rest (divide span.start (.node n kids .nil) s).supply).markup,
        (cutCrossing claimed span rest
          (divide span.start (.node n kids .nil) s).supply).supply⟩ := by
    simp [cutCrossing, hc, hs, hne]
  rw [ScanOpens, hcut, opening_crossStart hrest h rfl, ← h₁, ← h₂, Division.row]
  rw [divide_cut ⟨h.1, h.2.1⟩] at hlifted ⊢
  simp only [divide_nil, Forest.node_append, Forest.nil_append, Forest.append_assoc,
    Forest.append_nil] at hlifted ⊢
  rw [deal_before (n := n.leftHalf span.start) hc
      (Span.side_before ⟨Nat.le_of_lt h.1, Nat.le_refl _⟩),
    deal_lifted_start false rfl fun a ha => by
      have := hlifted.isEmpty_of_mem (Forest.labels_subset_preorder ha)
      omega,
    deal_inside (n := n.rightHalf span.start s.next) false hnew
      (Span.side_inside (by simp [Node.rightHalf]; omega) (by simp [Node.rightHalf]; omega))]

/-- The halves of a node that crosses the end; the scan stops behind them. -/
theorem crossStop_node (hkids : Nests n.span.start n.span.stop kids)
    (hrest : Nests n.span.stop hi rest) (hc : n.id ∉ claimed) (hnew : s.next ∉ claimed)
    (hab : span.start ≤ span.stop)
    (h : span.start ≤ n.span.start ∧ n.span.start < span.stop ∧ span.stop < n.span.stop) :
    ScanOpens claimed span (.node n kids rest) s := by
  have hs : n.span.side span = .crossing span.stop := Span.side_crossStop h
  have hrow : Nests n.span.start n.span.stop (.node n kids .nil) :=
    ⟨Nat.le_refl _, hkids, Nat.le_refl _⟩
  obtain ⟨-, hlifted, -⟩ := hrow.divide (Nat.le_of_lt h.2.1) (Nat.le_of_lt h.2.2) s
  have hcut : cutCrossing claimed span (.node n kids rest) s =
      ⟨(divide span.stop (.node n kids .nil) s).row ++ rest,
        (divide span.stop (.node n kids .nil) s).supply⟩ := by
    simp [cutCrossing, hc, hs]
  rw [ScanOpens, hcut, opening_crossStop hrest h rfl, Division.row]
  rw [divide_cut h.2] at hlifted ⊢
  simp only [divide_nil, Forest.node_append, Forest.nil_append, Forest.append_assoc,
    Forest.append_nil] at hlifted ⊢
  rw [deal_inside (n := n.leftHalf span.stop) false hc
      (Span.side_inside (by simp [Node.leftHalf]; omega) (by simp [Node.leftHalf]; omega)),
    deal_lifted_stop false (by omega)
      (fun a ha => by
        have := hlifted.isEmpty_of_mem (Forest.labels_subset_preorder ha)
        omega)
      (deal_right (n := n.rightHalf span.stop s.next) hnew
        (by simp [Node.rightHalf]; omega))]

end ScanOpens

/-- The scan of a row that nests and has no room for the span in a single node is the opening of
the row.  Claimed nodes lie within the span. -/
theorem deal_cutCrossing (claimed : List NodeId) (s : Supply) (hab : span.start ≤ span.stop)
    (hrow : Nests lo hi row)
    (hroom : ∀ n ∈ row.labels, n.id ∉ claimed → n.span.admits span = false)
    (hclaim : ∀ n ∈ row.labels, n.id ∈ claimed →
      span.start ≤ n.span.start ∧ n.span.stop ≤ span.stop)
    (hfresh : ∀ c ∈ claimed, c < s.next) :
    (deal claimed span false (cutCrossing claimed span row s).markup,
      (cutCrossing claimed span row s).supply) = opening claimed span row s := by
  show ScanOpens claimed span row s
  induction row generalizing lo s with
  | nil => rfl
  | node n kids rest _ ih =>
    obtain ⟨-, hkids, hrest⟩ := hrow
    have hord := hkids.le
    have hscan (s : Supply) (hs : ∀ c ∈ claimed, c < s.next) : ScanOpens claimed span rest s :=
      ih s hrest (fun a ha => hroom a (List.mem_cons_of_mem _ ha))
        (fun a ha => hclaim a (List.mem_cons_of_mem _ ha)) hs
    have hnew : s.next ∉ claimed := fun hm => Nat.lt_irrefl _ (hfresh _ hm)
    by_cases hc : n.id ∈ claimed
    · exact .claimed_node hab hrest hord hc (hclaim n (List.mem_cons_self ..) hc) (hscan s hfresh)
    have hout := hroom n (List.mem_cons_self ..) hc
    rw [← Bool.not_eq_true, Span.admits_iff] at hout
    rcases Span.sides n.span span with h | h | h | h | h | h
    · exact .before_node hrest hord hc h (hscan s hfresh)
    · exact .after_node hab hrest hord hc h (hscan s hfresh)
    · exact .inside_node hrest hord hc h (hscan s hfresh)
    · -- a node that crosses the start ends before the span does, since it has no room for it
      have hle := divide_le span.start (.node n kids .nil) s
      exact .crossStart_node hkids hrest hc hnew (by omega)
        (hscan _ fun c hc => Nat.lt_of_lt_of_le (hfresh c hc) hle.next)
    · exact .crossStop_node hkids hrest hc hnew hab h
    · omega

end Markup

end Standoff
