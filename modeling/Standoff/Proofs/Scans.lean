import Standoff.Proofs.Cuts

/-!
# Scans along links

The scan of a row walks along links that its own cuts change: what a sibling leaves behind a cut
comes next.  So it goes along the row as it is when everything has been cut,

    row as it was     … │ sibling across the start │ … │ sibling across the end │ …
    row as scanned    … │ left │ markers │ right │ … │ left │ markers │ right │ …

and a scan of rows of mark-up, `Markup.scan`, tells what that row is.  The scan ends at the first
sibling behind the span with nothing but siblings behind the span after it: a scan to the end of
the row comes to more nodes, and does the same.

* `Span.side_crossing_cases`: what crosses a span crosses one of its boundaries.
* `Arena.Scan.read`: the scan after a sibling that stays whole.
* `Arena.ScansRow`, `Arena.scansRow`: the scan of a row, for both reaches.
-/

namespace Standoff

namespace Span

variable {s span : Span} {pos : Nat}

/-- What has no room for a span and crosses it does so at one end. -/
theorem side_crossing_cases (h : s.side span = .crossing pos) (hab : span.start ≤ span.stop)
    (hroom : s.admits span = false) :
    (pos = span.start ∧ s.start < span.start ∧ span.start < s.stop ∧ s.stop < span.stop) ∨
      (pos = span.stop ∧ span.start ≤ s.start ∧ s.start < span.stop ∧ span.stop < s.stop) := by
  have hin := side_crossing h
  have hroom : ¬ s.admits span = true := by simp [hroom]
  rw [admits_iff] at hroom
  rcases sides s span with hs | hs | hs | hs | hs | hs
  · cases h.symm.trans (side_before hs)
  · cases h.symm.trans (side_after ⟨hab, hs⟩ (by omega))
  · cases h.symm.trans (side_inside hs (by omega))
  · have hcross := h.symm.trans (side_crossStart ⟨hs.1, hs.2.1, hab⟩)
    injection hcross with hpos
    omega
  · have hcross := h.symm.trans (side_crossStop hs)
    injection hcross with hpos
    omega
  · omega

/-- What comes after a span starts at its end or later. -/
theorem stop_le_of_after (h : s.side span = .after) : span.stop ≤ s.start := by
  unfold side at h
  split at h
  · split at h
    · cases h
    · split at h
      · assumption
      · cases h
  · split at h
    · cases h
    · split at h
      · assumption
      · split at h
        · cases h
        · split at h <;> cases h

end Span

namespace Markup

variable {claimed : List NodeId} {span : Span} {lo hi : Nat} {m kids rest : Markup} {n : Node}
  {s s' : Supply}

/-- A row that the search for `span` ends in. -/
structure Searched (lo hi : Nat) (claimed : List NodeId) (span : Span) (m : Markup) (s : Supply) :
    Prop where
  nests : Nests lo hi m
  ordered : span.start ≤ span.stop
  room : ∀ n ∈ m.labels, n.id ∉ claimed → n.span.admits span = false
  within : ∀ n ∈ m.labels, n.id ∈ claimed → span.start ≤ n.span.start ∧ n.span.stop ≤ span.stop
  fresh : ∀ c ∈ claimed, c < s.next

namespace Searched

theorem tail (h : Searched lo hi claimed span (.node n kids rest) s) (hle : s.next ≤ s'.next) :
    Searched n.span.stop hi claimed span rest s' where
  nests := (nests_node.mp h.nests).2.2
  ordered := h.ordered
  room a ha := h.room a (List.mem_cons_of_mem _ ha)
  within a ha := h.within a (List.mem_cons_of_mem _ ha)
  fresh c hc := Nat.lt_of_lt_of_le (h.fresh c hc) hle

/-- Behind what ends after the span, everything lies after the span. -/
theorem behind (h : Searched lo hi claimed span m s) (hlo : span.stop < lo) (hn : n ∈ m.labels) :
    n.id ∉ claimed ∧ n.span.side span = .after := by
  have hbounds := h.nests.bounds (Forest.labels_subset_preorder hn)
  have hab := h.ordered
  refine ⟨fun hc => ?_, Span.side_after ⟨hab, by omega⟩ hbounds.2.1⟩
  have := h.within n hn hc
  omega

end Searched

/-- The scan goes on behind the node, which stays whole. -/
def Passes (claimed : List NodeId) (span : Span) (n : Node) : Prop :=
  n.id ∈ claimed ∨ n.span.side span = .before ∨ n.span.side span = .inside ∨
    (n.span.side span = .after ∧ n.span.isBeyond span = false)

/-- The scan ends at the node if it goes as far as needed. -/
def Ends (claimed : List NodeId) (span : Span) (n : Node) : Prop :=
  n.id ∉ claimed ∧ n.span.side span = .after ∧ n.span.isBeyond span = true

instance (claimed : List NodeId) (span : Span) (n : Node) : Decidable (Ends claimed span n) :=
  inferInstanceAs (Decidable (_ ∧ _))

/-- A node at which a scan ends does not end with the span. -/
theorem Ends.stop_lt (h : Ends claimed span n) (hn : n.span.start ≤ n.span.stop) :
    span.stop < n.span.stop := by
  have hle := Span.stop_le_of_after h.2.1
  have hbeyond := Span.isBeyond_iff.mp h.2.2
  omega

theorem Passes.not_ends (h : Passes claimed span n) : ¬ Ends claimed span n := by
  rintro ⟨hc, hside, hbeyond⟩
  rcases h with h | h | h | h
  · exact hc h
  · cases h.symm.trans hside
  · cases h.symm.trans hside
  · cases h.2.symm.trans hbeyond

/-- Nodes of a row up to the first at which a scan ends. -/
def upToEnd (claimed : List NodeId) (span : Span) : List Node → List Node
  | [] => []
  | n :: l => if Ends claimed span n then [n] else n :: upToEnd claimed span l

theorem upToEnd_append {l l' : List Node} (h : ∀ n ∈ l, Passes claimed span n) :
    upToEnd claimed span (l ++ l') = l ++ upToEnd claimed span l' := by
  induction l with
  | nil => rfl
  | cons n l ih =>
    rw [List.cons_append, upToEnd, if_neg (h n (List.mem_cons_self ..)).not_ends,
      ih fun a ha => h a (List.mem_cons_of_mem _ ha), List.cons_append]

theorem scan_passes {balancing : Balancing} (h : Passes claimed span n) :
    scan claimed span balancing (.node n kids rest) s =
      (⟨.node n kids (scan claimed span balancing rest s).1.markup,
        (scan claimed span balancing rest s).1.supply⟩, (scan claimed span balancing rest s).2) := by
  rw [scan]
  by_cases hc : n.id ∈ claimed
  · rw [if_pos hc]
    rfl
  · rw [if_neg hc]
    rcases h with h | h | h | ⟨h, hbeyond⟩
    · exact absurd h hc
    · rw [h]
      rfl
    · rw [h]
      rfl
    · simp only [h, hbeyond, Bool.false_eq_true, if_false]
      rfl

theorem scan_ends {balancing : Balancing} (h : Ends claimed span n) :
    scan claimed span balancing (.node n kids rest) s = (⟨.node n kids rest, s⟩, none) := by
  simp only [scan, if_neg h.1, h.2.1, h.2.2, if_true]

theorem scan_crossing {pos : Nat} (hc : n.id ∉ claimed) (h : n.span.side span = .crossing pos) :
    scan claimed span .inner (.node n kids rest) s =
      if pos = span.stop then
        (⟨(divide pos (.node n kids .nil) s).row ++ rest, (divide pos (.node n kids .nil) s).supply⟩,
          none)
      else
        let right := scan claimed span .inner rest (divide pos (.node n kids .nil) s).supply
        (⟨(divide pos (.node n kids .nil) s).row ++ right.1.markup, right.1.supply⟩, right.2) := by
  simp only [scan, if_neg hc, h]

theorem scan_crossing_strict {pos : Nat} (hc : n.id ∉ claimed)
    (h : n.span.side span = .crossing pos) :
    scan claimed span .strict (.node n kids rest) s = (⟨.node n kids rest, s⟩, some n) := by
  simp only [scan, if_neg hc, h]

end Markup

namespace Arena

open Document Markup

variable {a b : Arena} {s t : Family} {Q : NodeId} {fuel : Nat} {m : Markup} {n : Node}
  {sup : Supply} {e : Element} {claimed done todo : List NodeId} {balancing : Balancing}
  {reach : Reach} {span : Span} {r : Scan} {l : List Node}

/-! ## Siblings that stay whole -/

namespace Scan

/-- The scan after a sibling that stays whole. -/
def read (claimed : List NodeId) (span : Span) (r : Scan) (n : Node) : Scan :=
  if n.id ∈ claimed then (r.visit n.id).adopt n.id
  else match n.span.side span with
    | .inside => (r.visit n.id).adopt n.id
    | .after => (r.visit n.id).stopAt n.id
    | _ => r.visit n.id

/-- The scan after siblings that stay whole. -/
def readAll (claimed : List NodeId) (span : Span) (r : Scan) (l : List Node) : Scan :=
  l.foldl (read claimed span) r

/-- The scan in another arena, after more cuts. -/
def into (r : Scan) (b : Arena) (splits : List (NodeId × NodeId)) : Scan :=
  { r with arena := b, splits := r.splits ++ splits }

/-- A scan to the end of the row comes to `late` as well. -/
def upTo (r : Scan) (late : List NodeId) : Reach → Scan
  | .needed => r
  | .whole => { r with visits := r.visits ++ late }

theorem read_rest (claimed : List NodeId) (span : Span) (r : Scan) (n : Node) :
    (r.read claimed span n).arena = r.arena ∧ (r.read claimed span n).splits = r.splits ∧
      (r.read claimed span n).conflict = r.conflict ∧
      (r.read claimed span n).visits = r.visits ++ [n.id] := by
  unfold read
  split
  · exact ⟨rfl, rfl, rfl, rfl⟩
  · split <;> exact ⟨rfl, rfl, rfl, rfl⟩

theorem read_into (b : Arena) (splits : List (NodeId × NodeId)) :
    (r.into b splits).read claimed span n = (r.read claimed span n).into b splits := by
  unfold read
  split
  · rfl
  · split <;> rfl

theorem read_inside (h : n.id ∉ claimed) (hside : n.span.side span = .inside) :
    r.read claimed span n = (r.visit n.id).adopt n.id := by
  rw [read, if_neg h, hside]

theorem read_before (h : n.id ∉ claimed) (hside : n.span.side span = .before) :
    r.read claimed span n = r.visit n.id := by
  rw [read, if_neg h, hside]

theorem read_after (h : n.id ∉ claimed) (hside : n.span.side span = .after) :
    r.read claimed span n = (r.visit n.id).stopAt n.id := by
  rw [read, if_neg h, hside]

theorem readAll_rest (claimed : List NodeId) (span : Span) (r : Scan) (l : List Node) :
    (r.readAll claimed span l).arena = r.arena ∧ (r.readAll claimed span l).splits = r.splits ∧
      (r.readAll claimed span l).conflict = r.conflict ∧
      (r.readAll claimed span l).visits = r.visits ++ l.map (·.id) := by
  induction l generalizing r with
  | nil => exact ⟨rfl, rfl, rfl, (List.append_nil _).symm⟩
  | cons n l ih =>
    obtain ⟨h₁, h₂, h₃, h₄⟩ := r.read_rest claimed span n
    obtain ⟨k₁, k₂, k₃, k₄⟩ := ih (r.read claimed span n)
    refine ⟨k₁.trans h₁, k₂.trans h₂, k₃.trans h₃, k₄.trans ?_⟩
    rw [h₄, List.map_cons, List.append_assoc]
    rfl

theorem readAll_append (l l' : List Node) : r.readAll claimed span (l ++ l') =
    (r.readAll claimed span l).readAll claimed span l' :=
  List.foldl_append

theorem readAll_into (b : Arena) (splits : List (NodeId × NodeId)) (l : List Node) :
    (r.into b splits).readAll claimed span l = (r.readAll claimed span l).into b splits := by
  induction l generalizing r with
  | nil => rfl
  | cons n l ih =>
    show ((r.into b splits).read claimed span n).readAll claimed span l = _
    rw [read_into, ih]
    rfl

theorem into_self (r : Scan) : r.into r.arena [] = r := by
  rw [into, List.append_nil]

end Scan

theorem scan_passed (hn : Passes claimed e.span n)
    (hspan : (r.arena.element n.id).span = n.span) :
    scan e claimed balancing reach (fuel + 1) r (some n.id) =
      scan e claimed balancing reach fuel (r.read claimed e.span n) (r.arena.links n.id).next := by
  have harena : (r.visit n.id).arena = r.arena := rfl
  simp only [scan, harena, hspan]
  by_cases hc : n.id ∈ claimed
  · rw [if_pos hc, Scan.read, if_pos hc]
    rfl
  · rw [if_neg hc]
    rcases hn with hn | hn | hn | ⟨hn, hbeyond⟩
    · exact absurd hn hc
    · rw [Scan.read_before hc hn, hn]
    · rw [Scan.read_inside hc hn, hn]
      rfl
    · rw [Scan.read_after hc hn, hn]
      simp only [hbeyond, Bool.false_eq_true, and_false, if_false]
      rfl

/-- The scan goes along siblings that stay whole. -/
theorem scan_pass (hfull : r.arena.Full s) (hrow : s.row Q = done ++ (l.map (·.id) ++ todo))
    (hl : ∀ n ∈ l, Passes claimed e.span n ∧ (r.arena.element n.id).span = n.span) (fuel : Nat) :
    scan e claimed balancing reach (fuel + l.length) r (l.map (·.id) ++ todo).head? =
      scan e claimed balancing reach fuel (r.readAll claimed e.span l) todo.head? := by
  induction l generalizing r done with
  | nil => rfl
  | cons n l ih =>
    have harena := (r.read_rest claimed e.span n).1
    have hn := hl n (List.mem_cons_self ..)
    have hrow' : s.row Q = done ++ [n.id] ++ (l.map (·.id) ++ todo) := by
      rw [hrow, List.append_assoc]
      rfl
    show scan e claimed balancing reach (fuel + l.length + 1) r (some n.id) = _
    rw [scan_passed hn.1 hn.2, hfull.next_of_row hrow]
    exact ih (harena ▸ hfull) hrow' fun k hk => by
      rw [harena]
      exact hl k (List.mem_cons_of_mem _ hk)

/-- What comes behind the first sibling after the span changes nothing. -/
theorem scan_behind (hfull : r.arena.Full s) (hrow : s.row Q = done ++ l.map (·.id))
    (hl : ∀ n ∈ l, n.id ∉ claimed ∧ n.span.side e.span = .after ∧
      (r.arena.element n.id).span = n.span) (hanchor : r.anchor.isSome) (hfuel : l.length ≤ fuel) :
    scan e claimed balancing .whole fuel r (l.map (·.id)).head? =
      some (r.upTo (l.map (·.id)) .whole) := by
  induction l generalizing r done fuel with
  | nil =>
    rw [Scan.upTo, List.map_nil, List.append_nil]
    cases fuel <;> rfl
  | cons n l ih =>
    obtain ⟨fuel, rfl⟩ : ∃ k, fuel = k + 1 := ⟨fuel - 1, by simp at hfuel; omega⟩
    obtain ⟨hc, hside, hspan⟩ := hl n (List.mem_cons_self ..)
    have hstop : (r.visit n.id).stopAt n.id = r.visit n.id := by
      obtain ⟨x, hx⟩ := Option.isSome_iff_exists.mp hanchor
      simp [Scan.stopAt, Scan.visit, hx]
    have hstep : scan e claimed balancing .whole (fuel + 1) r (some n.id) =
        scan e claimed balancing .whole fuel (r.visit n.id) (r.arena.links n.id).next := by
      have harena : (r.visit n.id).arena = r.arena := rfl
      simp only [scan, harena, hspan, if_neg hc, hside, hstop]
      rfl
    have hrow' : s.row Q = done ++ [n.id] ++ l.map (·.id) := by
      rw [hrow, List.append_assoc]
      rfl
    rw [List.map_cons, List.head?_cons, hstep, hfull.next_of_row hrow,
      ih (r := r.visit n.id) hfull hrow' (fun k hk => hl k (List.mem_cons_of_mem _ hk)) hanchor
        (Nat.le_of_succ_le_succ hfuel)]
    simp [Scan.upTo, Scan.visit]

/-- A scan that goes as far as needed ends at the first sibling that is beyond the span. -/
theorem scan_beyond (hfull : r.arena.Full s) (hrow : s.row Q = done ++ n.id :: l.map (·.id))
    (hn : Ends claimed e.span n) (hspan : (r.arena.element n.id).span = n.span)
    (hl : ∀ n ∈ l, n.id ∉ claimed ∧ n.span.side e.span = .after ∧
      (r.arena.element n.id).span = n.span) (hfuel : l.length < fuel) :
    scan e claimed balancing reach fuel r (some n.id) =
      some ((r.read claimed e.span n).upTo (l.map (·.id)) reach) := by
  obtain ⟨fuel, rfl⟩ : ∃ k, fuel = k + 1 := ⟨fuel - 1, by omega⟩
  rw [Scan.read_after hn.1 hn.2.1]
  cases reach with
  | needed =>
    simp only [scan, hspan, if_neg hn.1, hn.2.1, hn.2.2, and_self, if_true]
    rfl
  | whole =>
    have hrow' : s.row Q = done ++ [n.id] ++ l.map (·.id) := by
      rw [hrow, List.append_assoc]
      rfl
    have hanchor : ((r.visit n.id).stopAt n.id).anchor.isSome := by
      simp [Scan.stopAt]
    rw [← scan_behind (r := (r.visit n.id).stopAt n.id) hfull hrow' hl hanchor
      (Nat.le_of_lt_succ hfuel), ← hfull.next_of_row hrow]
    simp only [scan, hspan, if_neg hn.1, hn.2.1]
    rfl

/-! ## Siblings that are cut -/

/-- After a cut the left half is read like a sibling that stays whole. -/
theorem scan_cut {pos : Nat} {x : NodeId} {splits : List (NodeId × NodeId)} (hc : n.id ∉ claimed)
    (hside : n.span.side e.span = .crossing pos) (hab : e.span.start ≤ e.span.stop)
    (hroom : n.span.admits e.span = false) (hspan : (r.arena.element n.id).span = n.span)
    (hcut : r.arena.split pos fuel n.id = some ⟨b, x, splits⟩) :
    scan e claimed .inner reach (fuel + 1) r (some n.id) =
      scan e claimed .inner reach fuel ((r.read claimed e.span (n.leftHalf pos)).into b splits)
        (b.links n.id).next := by
  have harena : (r.visit n.id).arena = r.arena := rfl
  simp only [scan, harena, hspan, if_neg hc, hside, hcut, Option.bind_some]
  rcases Span.side_crossing_cases hside hab hroom with ⟨rfl, h⟩ | ⟨rfl, h⟩
  · have hleft : (n.leftHalf e.span.start).span.side e.span = .before :=
      Span.side_before ⟨Nat.le_of_lt h.1, Nat.le_refl _⟩
    rw [Scan.read_before (n := n.leftHalf e.span.start) hc hleft, if_pos h.1]
    rfl
  · have hleft : (n.leftHalf e.span.stop).span.side e.span = .inside :=
      Span.side_inside ⟨h.1, Nat.le_refl _, h.2.1, Nat.lt_of_le_of_lt h.1 h.2.1⟩ (Nat.le_of_lt h.2.1)
    rw [Scan.read_inside (n := n.leftHalf e.span.stop) hc hleft, if_neg (Nat.not_lt.mpr h.1)]
    rfl

/-- The scan goes on behind the left half, along what stays whole. -/
theorem scan_cut_pass {pos : Nat} {x : NodeId} {splits : List (NodeId × NodeId)}
    (hc : n.id ∉ claimed) (hside : n.span.side e.span = .crossing pos)
    (hab : e.span.start ≤ e.span.stop) (hroom : n.span.admits e.span = false)
    (hspan : (r.arena.element n.id).span = n.span)
    (hcut : r.arena.split pos (fuel + l.length) n.id = some ⟨b, x, splits⟩) (hb : b.Full t)
    (hbrow : t.row Q = done ++ n.id :: (l.map (·.id) ++ todo))
    (hl : ∀ k ∈ l, Passes claimed e.span k ∧ (b.element k.id).span = k.span) :
    scan e claimed .inner reach (fuel + l.length + 1) r (some n.id) =
      scan e claimed .inner reach fuel
        ((r.readAll claimed e.span (n.leftHalf pos :: l)).into b splits) todo.head? := by
  have hbrow' : t.row Q = done ++ [n.id] ++ (l.map (·.id) ++ todo) := by
    rw [hbrow, List.append_assoc]
    rfl
  rw [scan_cut hc hside hab hroom hspan hcut, hb.next_of_row hbrow, scan_pass hb hbrow' hl,
    Scan.readAll_into]
  rfl

/-- What a cut at the start of the span leaves stays whole. -/
theorem passes_start {kids : Markup} {k : Node} (h : n.span.start < span.start ∧
      span.start < n.span.stop ∧ n.span.stop < span.stop)
    (hk : k ∈ (divide span.start (.node n kids .nil) sup).row.labels) : Passes claimed span k := by
  have hrow := (row_divide_ofTree (u := ⟨n, kids⟩) ⟨h.1, h.2.1⟩ sup).1
  rw [Forest.ofTree] at hrow
  simp only [hrow, Forest.labels_node, Forest.labels_append, Forest.labels_nil, List.mem_cons,
    List.mem_append, List.not_mem_nil, or_false] at hk
  rcases hk with rfl | hk | rfl
  · exact .inr (.inl (Span.side_before ⟨Nat.le_of_lt h.1, Nat.le_refl _⟩))
  · have hempty := Span.isEmptyAt_iff.mp (lifted_isEmptyAt hk)
    exact .inr (.inl (Span.side_before ⟨Nat.le_of_eq hempty.2, hempty.2 ▸ hempty.1⟩))
  · exact .inr (.inr (.inl (Span.side_inside ⟨Nat.le_refl _, Nat.le_of_lt h.2.2,
      Nat.lt_trans h.2.1 h.2.2, h.2.1⟩ (Nat.le_of_lt h.2.1))))

/-- What a cut at the end of the span leaves in front of the right half stays whole. -/
theorem passes_stop {kids : Markup} {k : Node} (hkids : Nests n.span.start n.span.stop kids)
    (h : span.start ≤ n.span.start ∧ n.span.start < span.stop ∧ span.stop < n.span.stop)
    (hk : k = n.leftHalf span.stop ∨ k ∈ (divide span.stop kids sup).lifted.labels) :
    Passes claimed span k := by
  have hlt := Nat.lt_of_le_of_lt h.1 h.2.1
  rcases hk with rfl | hk
  · exact .inr (.inr (.inl (Span.side_inside ⟨h.1, Nat.le_refl _, h.2.1, hlt⟩ (Nat.le_of_lt h.2.1))))
  · have hat := (hkids.divide (Nat.le_of_lt h.2.1) (Nat.le_of_lt h.2.2) sup).2.1.isEmpty_of_mem
      (Forest.labels_subset_preorder hk)
    have hside : k.span.side span = .after :=
      Span.side_after ⟨Nat.le_of_lt hlt, Nat.le_of_eq hat.1.symm, hat.2 ▸ hlt⟩ (by omega)
    refine .inr (.inr (.inr ⟨hside, ?_⟩))
    rw [← Bool.not_eq_true, Span.isBeyond_iff]
    omega

/-- The right half of a node that is cut at the end of the span ends the scan. -/
theorem ends_stop {k : NodeId} (hc : k ∉ claimed) (h : span.start ≤ n.span.start ∧
    n.span.start < span.stop ∧ span.stop < n.span.stop) :
    Ends claimed span (n.rightHalf span.stop k) := by
  have hlt := Nat.lt_of_le_of_lt h.1 h.2.1
  exact ⟨hc, Span.side_after ⟨Nat.le_of_lt hlt, Nat.le_refl _, Nat.lt_trans hlt h.2.2⟩
    (Nat.le_of_lt h.2.2), Span.isBeyond_iff.mpr (.inl h.2.2)⟩

/-! ## Rows -/

/-- Where the scan of the row `m` ends that `r` begins: `R` as far as needed, and a scan to the end
of the row comes to `late` as well.  `out` is the row as scanned. -/
structure Scanned (e : Element) (claimed : List NodeId) (r R : Scan) (s t : Family) (Q : NodeId)
    (done : List NodeId) (m : Markup) (out : Growth × Option Node) (late : List NodeId) : Prop
    extends R.arena.Full t where
  size : R.arena.slots.size = out.1.supply.next
  outer : t.row Q = done ++ out.1.markup.rootIds
  carries : R.arena.Carries t.row out.1.markup
  frame : Frame r.arena s (Q :: m.ids) m.ids R.arena t
  conflict : R.conflict = out.2.map fun n => ⟨e.name, e.span, .crossing n.name n.span⟩
  visits : ∃ v, R.visits = r.visits ++ v ∧ v ++ late <+: out.1.markup.rootIds
  splits : ∃ w, R.splits = r.splits ++ w ∧ w.Nodup ∧ ∀ v ∈ w, v.1 ∈ m.ids ∧ v.2 ∈ out.1.markup.ids
  /-- Unless it comes to a conflict, the scan reads the row as scanned. -/
  read : out.2 = none →
    R.inside = (r.readAll claimed e.span (upToEnd claimed e.span out.1.markup.labels)).inside ∧
      R.anchor = (r.readAll claimed e.span (upToEnd claimed e.span out.1.markup.labels)).anchor

/-- The nodes of a row are apart from the rest. -/
theorem Full.apart (h : a.Full s) (hm : a.Carries s.row m) (hrow : s.row Q = done ++ m.rootIds) :
    m.ids.Nodup ∧ Q ∉ m.ids ∧ ∀ x ∈ m.ids, x < a.slots.size := by
  obtain ⟨hnodup, habove, hQ, -⟩ := h.sound.apart hm.unfolds (labels_shape m ▸ hrow)
  rw [shape_preorder] at hnodup habove hQ
  exact ⟨hnodup, hQ, fun x hx => h.live_lt (h.sound.live_of_above (habove x hx))⟩

/-- The scan has read `front`, which is what came of the first sibling, and goes on behind it. -/
theorem Scanned.front {u : Family} {kids rest front : Markup} {splits : List (NodeId × NodeId)}
    {R : Scan} {out : Growth × Option Node} {late : List NodeId}
    (hfull : r.arena.Full s) (hrow : s.row Q = done ++ rootIds (.node n kids rest))
    (hm : r.arena.Carries s.row (.node n kids rest)) (hb : b.Full u)
    (hbrow : u.row Q = done ++ (front.rootIds ++ rest.rootIds)) (hfront : b.Carries u.row front)
    (hbrest : b.Carries u.row rest)
    (hframe : Frame r.arena s (Q :: n.id :: kids.ids) (n.id :: kids.ids) b u)
    (hpass : ∀ k ∈ front.labels, Passes claimed e.span k)
    (hnodup : splits.Nodup) (hsplits : ∀ v ∈ splits, v.1 ∈ n.id :: kids.ids ∧ v.2 ∈ front.ids)
    (h : Scanned e claimed ((r.readAll claimed e.span front.labels).into b splits) R u t Q
      (done ++ front.rootIds) rest out late) :
    Scanned e claimed r R s t Q done (.node n kids rest)
      (⟨front ++ out.1.markup, out.1.supply⟩, out.2) late := by
  obtain ⟨hids, -, -⟩ := hfull.apart hm hrow
  obtain ⟨-, hnr, -, -, hkr⟩ := nodup_node.mp hids
  obtain ⟨hbids, hQ, hlt⟩ := hb.apart (carries_append.mpr ⟨hfront, hbrest⟩)
    (hbrow.trans (by rw [rootIds_append]))
  rw [ids_append] at hbids hQ hlt
  obtain ⟨-, -, hdisj⟩ := List.nodup_append.mp hbids
  obtain ⟨harena, -, -, hvisits⟩ := r.readAll_rest claimed e.span front.labels
  refine ⟨h.toFull, h.size, ?_, carries_append.mpr ⟨?_, h.carries⟩, ?_, h.conflict, ?_, ?_, ?_⟩
  · rw [h.outer, rootIds_append, List.append_assoc]
  · refine h.frame.carries hfront fun x hx => ⟨hlt x (List.mem_append_left _ hx), ?_, ?_⟩
    · rw [List.mem_cons, not_or]
      exact ⟨fun heq => hQ (heq ▸ List.mem_append_left _ hx), fun hr => hdisj x hx x hr rfl⟩
    · exact fun hr => hdisj x hx x hr rfl
  · exact (hframe.mono (List.cons_subset_cons _ ids_tree_subset) ids_tree_subset).trans h.frame
      (fun x hx _ => List.cons_subset_cons _ ids_rest_subset hx) fun x hx _ => ids_rest_subset hx
  · obtain ⟨v, hv, hprefix⟩ := h.visits
    refine ⟨front.rootIds ++ v, ?_, ?_⟩
    · rw [hv]
      show (r.readAll claimed e.span front.labels).visits ++ v = _
      rw [hvisits, List.append_assoc]
      rfl
    · rw [rootIds_append, List.append_assoc]
      exact (List.prefix_append_right_inj _).mpr hprefix
  · obtain ⟨w, hw, hwnodup, hwin⟩ := h.splits
    refine ⟨splits ++ w, ?_, ?_, fun v hv => ?_⟩
    · rw [hw]
      show (r.readAll claimed e.span front.labels).splits ++ splits ++ w = _
      rw [(r.readAll_rest claimed e.span front.labels).2.1, List.append_assoc]
    · refine List.nodup_append.mpr ⟨hnodup, hwnodup, fun v hv v' hv' heq => ?_⟩
      subst heq
      rcases List.mem_cons.mp (hsplits v hv).1 with heq | hk
      · exact hnr (heq ▸ (hwin v hv').1)
      · exact hkr _ hk (hwin v hv').1
    · rw [ids_append, List.mem_append]
      exact (List.mem_append.mp hv).elim
        (fun hv => ⟨ids_tree_subset (hsplits v hv).1, .inl (hsplits v hv).2⟩)
        fun hv => ⟨ids_rest_subset (hwin v hv).1, .inr (hwin v hv).2⟩
  · intro hnone
    obtain ⟨hinside, hanchor⟩ := h.read hnone
    rw [Forest.labels_append, upToEnd_append hpass, Scan.readAll_append]
    rw [Scan.readAll_into] at hinside hanchor
    exact ⟨hinside, hanchor⟩

/-- Scanning the row `m` along links comes out as the scan of the row. -/
def ScansRow (e : Element) (claimed : List NodeId) (balancing : Balancing) (m : Markup) : Prop :=
  ∀ ⦃r : Scan⦄ ⦃s : Family⦄ ⦃Q : NodeId⦄ ⦃done : List NodeId⦄ ⦃sup : Supply⦄ ⦃lo hi : Nat⦄,
    r.arena.Full s → s.row Q = done ++ m.rootIds → r.arena.Carries s.row m →
    sup.next = r.arena.slots.size → r.conflict = none → Searched lo hi claimed e.span m sup →
    ∃ R t late, (∀ reach fuel, 2 * m.size ≤ fuel →
        scan e claimed balancing reach fuel r m.rootIds.head? = some (R.upTo late reach)) ∧
      Scanned e claimed r R s t Q done m (Markup.scan claimed e.span balancing m sup) late

section Sibling

variable {kids rest : Markup} {lo hi pos : Nat} (hfull : r.arena.Full s)
  (hrow : s.row Q = done ++ rootIds (.node n kids rest))
  (hm : r.arena.Carries s.row (.node n kids rest))

include hfull hrow hm

/-- A sibling that is cut, and the row behind it. -/
theorem exists_cut (hnext : sup.next = r.arena.slots.size)
    (hpos : n.span.start < pos ∧ pos < n.span.stop) {halves : Division}
    (hhalves : halves = divide pos (.node n kids .nil) sup) : ∃ b u splits,
      (∀ fuel, 2 * kids.size ≤ fuel →
        r.arena.split pos fuel n.id = some ⟨b, r.arena.slots.size, splits⟩) ∧
      b.Full u ∧ b.slots.size = halves.supply.next ∧
      u.row Q = done ++ (halves.row.rootIds ++ rest.rootIds) ∧
      b.Carries u.row halves.row ∧ b.Carries u.row rest ∧
      Frame r.arena s (Q :: n.id :: kids.ids) (n.id :: kids.ids) b u ∧
      splits.Nodup ∧ ∀ v ∈ splits, v.1 ∈ n.id :: kids.ids ∧ v.2 ∈ halves.row.ids := by
  obtain ⟨hids, hQ, hlt⟩ := hfull.apart hm hrow
  obtain ⟨-, hnr, -, -, hkr⟩ := nodup_node.mp hids
  obtain ⟨hnode, hkids, hrest⟩ := hm
  obtain ⟨b, u, splits, hcut, hb, hsize, hbrow, hcarries, hframe, hnodup, hsplits⟩ :=
    cutsTree pos n kids hfull hrow ⟨hnode, hkids, trivial⟩ hnext
  obtain ⟨hdrow, hsupply⟩ := row_divide_ofTree (u := ⟨n, kids⟩) hpos sup
  rw [Forest.ofTree, ← hhalves] at hdrow hsupply
  refine ⟨b, u, splits, hcut, hb, hsize.trans (congrArg Supply.next hsupply).symm, ?_, ?_, ?_,
    hframe, hnodup, fun v hv => ⟨(hsplits v hv).1, ?_⟩⟩
  · rw [hbrow, hdrow]
    show _ = done ++ (n.id :: rootIds (_ ++ _) ++ rest.rootIds)
    rw [rootIds_append, hnext]
    simp [rootIds, Node.rightHalf]
  · rw [hdrow, hnext]
    exact hcarries
  · refine hframe.carries hrest fun x hx => ?_
    have hmem : x ∈ ids (.node n kids rest) := by simp [hx]
    have hout : x ∉ n.id :: kids.ids := by
      rw [List.mem_cons, not_or]
      exact ⟨fun heq => hnr (heq ▸ hx), fun hk => hkr x hk hx⟩
    exact ⟨hlt x hmem, List.not_mem_cons_of_ne_of_not_mem (fun heq => hQ (heq ▸ hmem)) hout, hout⟩
  · have hmem := (hsplits v hv).2
    simp only [Division.row, ids_append, List.mem_append] at hmem
    rw [hdrow]
    simp only [ids_node, ids_append, ids_nil, List.append_nil, List.mem_cons, List.mem_append]
    exact hmem.elim (fun hmem => hmem.elim (fun h => .inr (.inl h)) fun h => .inr (.inr (.inl h)))
      fun h => .inr (.inr (.inr (.inr h)))

/-- A sibling that stays whole. -/
theorem ScansRow.passed (ih : ScansRow e claimed balancing rest)
    (hnext : sup.next = r.arena.slots.size) (hconflict : r.conflict = none)
    (hsearched : Searched lo hi claimed e.span (.node n kids rest) sup)
    (hn : Passes claimed e.span n) :
    ∃ R t late, (∀ reach fuel, 2 * (Forest.node n kids rest).size ≤ fuel →
        scan e claimed balancing reach fuel r (some n.id) = some (R.upTo late reach)) ∧
      Scanned e claimed r R s t Q done (.node n kids rest)
        (Markup.scan claimed e.span balancing (.node n kids rest) sup) late := by
  have hspan : (r.arena.element n.id).span = n.span :=
    congrArg Element.span (hm.element (List.mem_cons_self ..))
  obtain ⟨hnode, hkids, hrest⟩ := hm
  obtain ⟨harena, -, hkeep, -⟩ := r.read_rest claimed e.span n
  have hread : (r.readAll claimed e.span [n]).into r.arena [] = r.read claimed e.span n := by
    show (r.read claimed e.span n).into r.arena [] = _
    rw [← harena, Scan.into_self]
  have hrow' : s.row Q = done ++ [n.id] ++ rest.rootIds := by
    rw [hrow, List.append_assoc]
    rfl
  obtain ⟨R, t, late, hloop, h⟩ := ih (r := (r.readAll claimed e.span [n]).into r.arena [])
    hfull hrow' hrest hnext (by rw [hread, hkeep, hconflict]) (hsearched.tail (Nat.le_refl _))
  refine ⟨R, t, late, fun reach fuel hfuel => ?_, ?_⟩
  · rw [Forest.size] at hfuel
    obtain ⟨fuel, rfl⟩ : ∃ k, fuel = k + 1 := ⟨fuel - 1, by omega⟩
    rw [scan_passed hn hspan, hfull.next_of_row hrow, ← hread]
    exact hloop reach fuel (by omega)
  · rw [scan_passes hn]
    have hfront : r.arena.Carries s.row (.node n kids .nil) := ⟨hnode, hkids, trivial⟩
    have hrow₁ : s.row Q = done ++ (rootIds (.node n kids .nil) ++ rest.rootIds) := hrow
    exact Scanned.front hfull hrow ⟨hnode, hkids, hrest⟩ hfull hrow₁ hfront hrest
      ((Frame.refl r.arena s).mono (by simp) (by simp)) (fun k hk => by
        rw [Forest.labels_node, Forest.labels_nil, List.mem_singleton] at hk
        exact hk ▸ hn)
      .nil (by simp) h

/-- A sibling at which the scan ends. -/
theorem scansRow_ends (hnext : sup.next = r.arena.slots.size) (hconflict : r.conflict = none)
    (hsearched : Searched lo hi claimed e.span (.node n kids rest) sup)
    (hn : Ends claimed e.span n) :
    ∃ R t late, (∀ reach fuel, 2 * (Forest.node n kids rest).size ≤ fuel →
        scan e claimed balancing reach fuel r (some n.id) = some (R.upTo late reach)) ∧
      Scanned e claimed r R s t Q done (.node n kids rest)
        (Markup.scan claimed e.span balancing (.node n kids rest) sup) late := by
  obtain ⟨harena, hsplits, hkeep, hvisits⟩ := r.read_rest claimed e.span n
  have hspan (k : Node) (hk : k ∈ (Forest.node n kids rest).labels) :
      (r.arena.element k.id).span = k.span :=
    congrArg Element.span (hm.element (Forest.labels_subset_preorder hk))
  have hbeyond := hn.stop_lt (hsearched.nests.bounds (List.mem_cons_self ..)).2.1
  refine ⟨r.read claimed e.span n, s, rest.rootIds, fun reach fuel hfuel => ?_, ?_⟩
  · refine scan_beyond hfull hrow hn (hspan n (List.mem_cons_self ..)) (fun k hk => ?_) ?_
    · obtain ⟨hc, hside⟩ := (hsearched.tail (Nat.le_refl _)).behind hbeyond hk
      exact ⟨hc, hside, hspan k (List.mem_cons_of_mem _ hk)⟩
    · have := length_labels_le rest
      rw [Forest.size] at hfuel
      omega
  · rw [Markup.scan_ends hn]
    refine ⟨harena.symm ▸ hfull, ?_, hrow, harena.symm ▸ hm, ?_, hkeep.trans hconflict,
      ⟨[n.id], hvisits, List.prefix_refl _⟩, ⟨[], ?_, .nil, by simp⟩, fun _ => ?_⟩
    · rw [harena, ← hnext]
    · rw [harena]
      exact (Frame.refl r.arena s).mono (by simp) (by simp)
    · rw [hsplits, List.append_nil]
    · rw [Forest.labels_node, upToEnd, if_pos hn]
      exact ⟨rfl, rfl⟩

/-- A sibling that crosses, if nothing may be cut. -/
theorem scansRow_conflict (hnext : sup.next = r.arena.slots.size) (hc : n.id ∉ claimed)
    (hside : n.span.side e.span = .crossing pos) :
    ∃ R t late, (∀ reach fuel, 2 * (Forest.node n kids rest).size ≤ fuel →
        scan e claimed .strict reach fuel r (some n.id) = some (R.upTo late reach)) ∧
      Scanned e claimed r R s t Q done (.node n kids rest)
        (Markup.scan claimed e.span .strict (.node n kids rest) sup) late := by
  have hnode : r.arena.element n.id = n.toElement := hm.element (List.mem_cons_self ..)
  refine ⟨{ r.visit n.id with conflict := some ⟨e.name, e.span, .crossing n.name n.span⟩ }, s, [],
    fun reach fuel hfuel => ?_, ?_⟩
  · rw [Forest.size] at hfuel
    obtain ⟨fuel, rfl⟩ : ∃ k, fuel = k + 1 := ⟨fuel - 1, by omega⟩
    have harena : (r.visit n.id).arena = r.arena := rfl
    simp only [scan, harena, hnode, if_neg hc, hside]
    cases reach with
    | needed => rfl
    | whole => simp only [Scan.upTo, List.append_nil]
  · rw [Markup.scan_crossing_strict hc hside]
    exact ⟨hfull, hnext.symm, hrow, hm, (Frame.refl r.arena s).mono (by simp) (by simp), rfl,
      ⟨[n.id], rfl, rest.rootIds, rfl⟩, ⟨[], (List.append_nil _).symm, .nil, by simp⟩, fun hnone => by
        cases hnone⟩

/-- A sibling that crosses the start of the span. -/
theorem ScansRow.cut_start (ih : ScansRow e claimed .inner rest)
    (hnext : sup.next = r.arena.slots.size) (hconflict : r.conflict = none)
    (hsearched : Searched lo hi claimed e.span (.node n kids rest) sup) (hc : n.id ∉ claimed)
    (hpos : n.span.start < e.span.start ∧ e.span.start < n.span.stop ∧ n.span.stop < e.span.stop) :
    ∃ R t late, (∀ reach fuel, 2 * (Forest.node n kids rest).size ≤ fuel →
        scan e claimed .inner reach fuel r (some n.id) = some (R.upTo late reach)) ∧
      Scanned e claimed r R s t Q done (.node n kids rest)
        (Markup.scan claimed e.span .inner (.node n kids rest) sup) late := by
  have hside := Span.side_crossStart ⟨hpos.1, hpos.2.1, hsearched.ordered⟩
  have hspan : (r.arena.element n.id).span = n.span :=
    congrArg Element.span (hm.element (List.mem_cons_self ..))
  obtain ⟨halves, hhalves⟩ : ∃ halves, halves = divide e.span.start (.node n kids .nil) sup :=
    ⟨_, rfl⟩
  obtain ⟨b, u, splits, hcut, hb, hsize, hbrow, hfront, hbrest, hframe, hnodup, hsplits⟩ :=
    exists_cut hfull hrow hm hnext ⟨hpos.1, hpos.2.1⟩ hhalves
  have hdrow := (row_divide_ofTree (u := ⟨n, kids⟩) ⟨hpos.1, hpos.2.1⟩ sup).1
  rw [Forest.ofTree, ← hhalves] at hdrow
  have hpass : ∀ k ∈ halves.row.labels, Passes claimed e.span k := fun k hk =>
    passes_start hpos (hhalves ▸ hk)
  have hle : sup.next ≤ halves.supply.next := hhalves ▸ (divide_le ..).next
  have hbrow' : u.row Q = done ++ halves.row.rootIds ++ rest.rootIds := by
    rw [hbrow, List.append_assoc]
  obtain ⟨R, t, late, hloop, h⟩ := ih
    (r := (r.readAll claimed e.span halves.row.labels).into b splits) hb hbrow' hbrest
    hsize.symm ((r.readAll_rest ..).2.2.1.trans hconflict) (hsearched.tail hle)
  refine ⟨R, t, late, fun reach fuel hfuel => ?_, ?_⟩
  · obtain ⟨l, hl⟩ : ∃ l, halves.row.labels = n.leftHalf e.span.start :: l :=
      ⟨_, by rw [hdrow]; rfl⟩
    have hlen : l.length ≤ kids.size + 1 := by
      have hfew := Nat.le_trans (length_labels_le _)
        (size_lifted_le e.span.start kids (sup.cut n e.span.start))
      rw [hdrow, Forest.labels_node] at hl
      rw [← (List.cons.inj hl).2, Forest.labels_append, List.length_append]
      exact Nat.succ_le_succ hfew
    rw [Forest.size] at hfuel
    obtain ⟨fuel, rfl⟩ : ∃ k, fuel = k + l.length + 1 := ⟨fuel - 1 - l.length, by omega⟩
    rw [scan_cut_pass hc hside hsearched.ordered (hsearched.room n (List.mem_cons_self ..) hc) hspan
      (hcut _ (by omega)) hb (by rw [hbrow, rootIds, hl]; rfl) fun k hk => ?_, ← hl]
    · exact hloop reach fuel (by omega)
    · have hk : k ∈ halves.row.labels := hl ▸ List.mem_cons_of_mem _ hk
      exact ⟨hpass k hk, congrArg Element.span (hfront.element (Forest.labels_subset_preorder hk))⟩
  · have hne : e.span.start ≠ e.span.stop := by omega
    rw [Markup.scan_crossing hc hside, if_neg hne, ← hhalves]
    exact Scanned.front hfull hrow hm hb hbrow hfront hbrest hframe hpass hnodup hsplits h

/-- A sibling that crosses the end of the span. -/
theorem scansRow_cut_stop (hnext : sup.next = r.arena.slots.size) (hconflict : r.conflict = none)
    (hsearched : Searched lo hi claimed e.span (.node n kids rest) sup) (hc : n.id ∉ claimed)
    (hpos : e.span.start ≤ n.span.start ∧ n.span.start < e.span.stop ∧ e.span.stop < n.span.stop) :
    ∃ R t late, (∀ reach fuel, 2 * (Forest.node n kids rest).size ≤ fuel →
        scan e claimed .inner reach fuel r (some n.id) = some (R.upTo late reach)) ∧
      Scanned e claimed r R s t Q done (.node n kids rest)
        (Markup.scan claimed e.span .inner (.node n kids rest) sup) late := by
  have hside := Span.side_crossStop hpos
  have hspan : (r.arena.element n.id).span = n.span :=
    congrArg Element.span (hm.element (List.mem_cons_self ..))
  obtain ⟨-, hkids, -⟩ := nests_node.mp hsearched.nests
  obtain ⟨halves, hhalves⟩ : ∃ halves, halves = divide e.span.stop (.node n kids .nil) sup :=
    ⟨_, rfl⟩
  obtain ⟨b, u, splits, hcut, hb, hsize, hbrow, hfront, hbrest, hframe, hnodup, hsplits⟩ :=
    exists_cut hfull hrow hm hnext hpos.2 hhalves
  have hdrow := (row_divide_ofTree (u := ⟨n, kids⟩) hpos.2 sup).1
  rw [Forest.ofTree, ← hhalves] at hdrow
  -- the right half ends the scan, or the scan to the end of the row goes on behind it
  obtain ⟨right, hright⟩ : ∃ right, right = n.rightHalf e.span.stop sup.next := ⟨_, rfl⟩
  obtain ⟨l, hl⟩ : ∃ l, l = (divide e.span.stop kids (sup.cut n e.span.stop)).lifted.labels :=
    ⟨_, rfl⟩
  have hlabels : halves.row.labels = n.leftHalf e.span.stop :: l ++ [right] := by
    rw [hdrow, hright, hl, Forest.labels_node, Forest.labels_append]
    rfl
  have hends : Ends claimed e.span right :=
    hright ▸ ends_stop (fun hmem => Nat.lt_irrefl _ (hsearched.fresh _ hmem)) hpos
  have hpass : ∀ k ∈ n.leftHalf e.span.stop :: l, Passes claimed e.span k := fun k hk =>
    passes_stop hkids hpos (hl ▸ List.mem_cons.mp hk)
  have helement {k : Node} (hk : k ∈ halves.row.labels) : (b.element k.id).span = k.span :=
    congrArg Element.span (hfront.element (Forest.labels_subset_preorder hk))
  obtain ⟨-, hkeptSplits, hkeep, hvisits⟩ := r.readAll_rest claimed e.span halves.row.labels
  refine ⟨(r.readAll claimed e.span halves.row.labels).into b splits, u, rest.rootIds,
    fun reach fuel hfuel => ?_, ?_⟩
  · have hlen : l.length ≤ kids.size :=
      hl ▸ Nat.le_trans (length_labels_le _) (size_lifted_le ..)
    have hrestlen := length_labels_le rest
    rw [Forest.size] at hfuel
    obtain ⟨fuel, rfl⟩ : ∃ k, fuel = k + l.length + 1 := ⟨fuel - 1 - l.length, by omega⟩
    have hbrow' : u.row Q = done ++ n.id :: (l.map (·.id) ++ right.id :: rest.rootIds) := by
      rw [hbrow, rootIds, hlabels]
      simp [Node.leftHalf]
    have hbrow'' : u.row Q = done ++ n.id :: l.map (·.id) ++ right.id :: rest.labels.map (·.id) := by
      rw [hbrow', List.append_assoc]
      rfl
    rw [scan_cut_pass hc hside hsearched.ordered (hsearched.room n (List.mem_cons_self ..) hc) hspan
        (hcut _ (by omega)) hb hbrow' fun k hk => ⟨hpass k (List.mem_cons_of_mem _ hk),
          helement (by simp [hlabels, hk])⟩,
      List.head?_cons, scan_beyond hb hbrow'' hends (helement (by simp [hlabels])) (fun k hk => ?_)
        (by omega), Scan.read_into, hlabels, Scan.readAll_append]
    · rfl
    · obtain ⟨hkc, hkside⟩ := (hsearched.tail (Nat.le_refl _)).behind hpos.2.2 hk
      exact ⟨hkc, hkside, congrArg Element.span (hbrest.element (Forest.labels_subset_preorder hk))⟩
  · rw [Markup.scan_crossing hc hside, if_pos rfl, ← hhalves]
    refine ⟨hb, hsize, ?_, carries_append.mpr ⟨hfront, hbrest⟩,
      hframe.mono (List.cons_subset_cons _ ids_tree_subset) ids_tree_subset, hkeep.trans hconflict,
      ⟨halves.row.rootIds, hvisits, ?_⟩,
      ⟨splits, ?_, hnodup, fun v hv => ⟨ids_tree_subset (hsplits v hv).1, ?_⟩⟩, fun _ => ?_⟩
    · rw [hbrow, rootIds_append]
    · exact ⟨[], by rw [rootIds_append, List.append_nil]⟩
    · show (r.readAll claimed e.span halves.row.labels).splits ++ splits = _
      rw [hkeptSplits]
    · rw [ids_append]
      exact List.mem_append_left _ (hsplits v hv).2
    · have hend : upToEnd claimed e.span (halves.row ++ rest).labels = halves.row.labels := by
        rw [Forest.labels_append, hlabels, List.append_assoc, upToEnd_append hpass,
          List.singleton_append, upToEnd, if_pos hends]
      rw [hend]
      exact ⟨rfl, rfl⟩

end Sibling

/-- Every row is scanned along links as it is as mark-up. -/
theorem scansRow (e : Element) (claimed : List NodeId) (balancing : Balancing) (m : Markup) :
    ScansRow e claimed balancing m := by
  induction m with
  | nil =>
    intro r s Q done sup lo hi hfull hrow hm hnext hconflict _
    refine ⟨r, s, [], fun reach fuel _ => ?_, hfull, hnext.symm, hrow, trivial,
      (Frame.refl r.arena s).mono (by simp) (by simp), hconflict, ⟨[], by simp, by simp⟩,
      ⟨[], by simp, .nil, by simp⟩, fun _ => ⟨rfl, rfl⟩⟩
    cases reach <;> cases fuel <;> simp [rootIds, scan, Scan.upTo]
  | node n kids rest _ ihr =>
    intro r s Q done sup lo hi hfull hrow hm hnext hconflict hsearched
    by_cases hc : n.id ∈ claimed
    · exact ihr.passed hfull hrow hm hnext hconflict hsearched (.inl hc)
    cases hside : n.span.side e.span with
    | before => exact ihr.passed hfull hrow hm hnext hconflict hsearched (.inr (.inl hside))
    | inside => exact ihr.passed hfull hrow hm hnext hconflict hsearched (.inr (.inr (.inl hside)))
    | after =>
      cases hbeyond : n.span.isBeyond e.span with
      | true => exact scansRow_ends hfull hrow hm hnext hconflict hsearched ⟨hc, hside, hbeyond⟩
      | false =>
        exact ihr.passed hfull hrow hm hnext hconflict hsearched (.inr (.inr (.inr ⟨hside, hbeyond⟩)))
    | crossing pos =>
      cases balancing with
      | strict => exact scansRow_conflict hfull hrow hm hnext hc hside
      | inner =>
        rcases Span.side_crossing_cases hside hsearched.ordered
          (hsearched.room n (List.mem_cons_self ..) hc) with ⟨-, hpos⟩ | ⟨-, hpos⟩
        · exact ihr.cut_start hfull hrow hm hnext hconflict hsearched hc hpos
        · exact scansRow_cut_stop hfull hrow hm hnext hconflict hsearched hc hpos

end Arena

end Standoff
