import Standoff.Proofs.Broods
import Standoff.Proofs.Grafts
import Standoff.Proofs.Restriction
import Standoff.Proofs.Subtrees
import Standoff.Proofs.Survival

/-! # Fragments of the elements that an insertion cuts

An element crosses a span if they share characters and neither contains the other.  The row that is
opened for a new element holds everything that crosses its span, so an insertion cuts just those
elements, each at the end of the span that lies in it:

    nodes after  =  new element, nodes before (up to their cuts), right halves

* `Span.crosses`, `Span.crossed`: crossing spans, and where one of them is cut.
* `Markup.perm_divide`: the nodes after a division.
* `Markup.Insertable.perm_added`: the equation above.
* `Document.WellFormed.insert_added`: an insertion into a document. -/

namespace Standoff

namespace Span

variable {s t : Span}

/-- The spans share a character, and neither contains the other. -/
def crosses (s t : Span) : Bool := s.overlaps t && !s.contains t && !t.contains s

/-- The end of `t` that lies in a span that crosses it. -/
def crossed (s t : Span) : Nat := if s.start < t.start then t.start else t.stop

theorem crosses_iff : s.crosses t = true ↔
    (s.start < t.start ∧ t.start < s.stop ∧ s.stop < t.stop) ∨
      (t.start < s.start ∧ s.start < t.stop ∧ t.stop < s.stop) := by
  simp only [crosses, overlaps, contains, isEmpty, Bool.and_eq_true, Bool.not_eq_true',
    Bool.and_eq_false_iff, decide_eq_true_eq, decide_eq_false_iff_not]
  omega

theorem crosses_comm (s t : Span) : s.crosses t = t.crosses s := by
  rw [Bool.eq_iff_iff, crosses_iff, crosses_iff]
  omega

theorem crosses_eq_false_iff : s.crosses t = false ↔
    ¬((s.start < t.start ∧ t.start < s.stop ∧ s.stop < t.stop) ∨
      (t.start < s.start ∧ s.start < t.stop ∧ t.stop < s.stop)) := by
  rw [← crosses_iff, Bool.not_eq_true]

/-- A span that has no room for another crosses it if one of its ends lies inside. -/
theorem crosses_of_not_admits (hab : t.start ≤ t.stop) (h : s.admits t = false) :
    s.crosses t = (s.strictlyContains t.start || s.strictlyContains t.stop) := by
  rw [← Bool.not_eq_true, admits_iff] at h
  rw [Bool.eq_iff_iff, Bool.or_eq_true, crosses_iff, strictlyContains_iff, strictlyContains_iff]
  omega

end Span

namespace Node

/-- A node as it is after a division at `pos`. -/
def upTo (pos : Nat) (n : Node) : Node :=
  if n.span.strictlyContains pos then n.leftHalf pos else n

/-- A node as it is after an insertion over `span`: up to the end of `span` if it crosses it. -/
def spared (span : Span) (n : Node) : Node :=
  if n.span.crosses span then n.leftHalf (n.span.crossed span) else n

variable {n : Node} {span : Span} {pos : Nat}

theorem upTo_of_holds (h : n.span.start < pos ∧ pos < n.span.stop) :
    n.upTo pos = n.leftHalf pos := by
  rw [upTo, if_pos (Span.strictlyContains_iff.mpr h)]

theorem upTo_of_not_holds (h : ¬(n.span.start < pos ∧ pos < n.span.stop)) : n.upTo pos = n := by
  rw [upTo, if_neg fun hs => h (Span.strictlyContains_iff.mp hs)]

theorem spared_of_not_crosses (h : n.span.crosses span = false) : n.spared span = n := by
  rw [spared, h]
  rfl

/-- A node that has no room for the span is cut at both of its ends in turn. -/
theorem spared_eq (hab : span.start ≤ span.stop) (h : n.span.admits span = false) :
    n.spared span = (n.upTo span.start).upTo span.stop := by
  have hcross := Span.crosses_of_not_admits hab h
  rw [← Bool.not_eq_true, Span.admits_iff] at h
  by_cases hstart : n.span.start < span.start ∧ span.start < n.span.stop
  · have hleft : (n.leftHalf span.start).upTo span.stop = n.leftHalf span.start := by
      refine upTo_of_not_holds ?_
      show ¬(n.span.start < span.stop ∧ span.stop < span.start)
      omega
    rw [spared, hcross, Span.strictlyContains_iff.mpr hstart, upTo_of_holds hstart, hleft,
      Span.crossed, if_pos hstart.1]
    rfl
  · rw [upTo_of_not_holds hstart]
    have hstart' : n.span.strictlyContains span.start = false := by
      rw [← Bool.not_eq_true, Span.strictlyContains_iff]
      exact hstart
    rw [spared, hcross, hstart', Bool.false_or, upTo, Span.crossed]
    by_cases hstop : n.span.start < span.stop ∧ span.stop < n.span.stop
    · rw [if_neg (c := n.span.start < span.start) (by omega)]
    · have hstop' : ¬n.span.strictlyContains span.stop = true := by
        rw [Span.strictlyContains_iff]
        exact hstop
      rw [if_neg hstop', if_neg hstop']

end Node

namespace Markup

variable {lo hi pos a b : Nat} {m row kids rest : Markup} {n x : Node} {s : Supply} {span : Span}
  {e : Element} {ns : List Node} {k : NodeId} {cut : Node → Nat}

/-! ## Right halves -/

/-- The nodes that a position lies in, in document order. -/
def holding (pos : Nat) (m : Markup) : List Node :=
  m.preorder.filter fun n => n.span.strictlyContains pos

/-- The nodes that cross a span, in document order. -/
def crossing (span : Span) (m : Markup) : List Node :=
  m.preorder.filter fun n => n.span.crosses span

/-- The right halves of nodes that are cut, with numbers from `k` on. -/
def halves (cut : Node → Nat) : NodeId → List Node → List Node
  | _, [] => []
  | k, n :: ns => n.rightHalf (cut n) k :: halves cut (k + 1) ns

@[simp] theorem halves_append (l r : List Node) :
    halves cut k (l ++ r) = halves cut k l ++ halves cut (k + l.length) r := by
  induction l generalizing k with
  | nil => rfl
  | cons n l ih =>
    rw [List.cons_append, halves, halves, ih, List.length_cons, List.cons_append,
      Nat.add_assoc, Nat.add_comm 1]

theorem halves_congr {cut' : Node → Nat} (h : ∀ n ∈ ns, cut n = cut' n) :
    halves cut k ns = halves cut' k ns := by
  induction ns generalizing k with
  | nil => rfl
  | cons n ns ih =>
    obtain ⟨hn, hns⟩ := List.forall_mem_cons.mp h
    rw [halves, halves, hn, ih hns]

theorem mem_halves (h : x ∈ halves cut k ns) :
    k ≤ x.id ∧ ∃ n ∈ ns, x = n.rightHalf (cut n) x.id := by
  induction ns generalizing k with
  | nil => cases h
  | cons n ns ih =>
    rcases List.mem_cons.mp h with rfl | h
    · exact ⟨Nat.le_refl _, n, List.mem_cons_self .., rfl⟩
    · obtain ⟨hle, y, hy, hxy⟩ := ih h
      exact ⟨Nat.le_of_succ_le hle, y, List.mem_cons_of_mem _ hy, hxy⟩

theorem length_halves : (halves cut k ns).length = ns.length := by
  induction ns generalizing k with
  | nil => rfl
  | cons n ns ih => rw [halves, List.length_cons, List.length_cons, ih]

/-! ## Division -/

theorem holding_node : holding pos (.node n kids rest) =
    (if n.span.strictlyContains pos then [n] else []) ++ (holding pos kids ++ holding pos rest) := by
  rw [holding, Forest.preorder_node, List.filter_cons, List.filter_append]
  split <;> rfl

/-- A position outside the bounds of a nest lies in none of its nodes. -/
theorem Nests.holding_eq_nil (h : Nests lo hi m) (hpos : pos ≤ lo ∨ hi ≤ pos) :
    holding pos m = [] := by
  refine List.filter_eq_nil_iff.mpr ?_
  intro n hn
  have hbounds := h.bounds hn
  rw [Span.strictlyContains_iff]
  omega

/-- A function that leaves every member as it is leaves the list. -/
theorem map_of_fixed {f : Node → Node} (h : ∀ n ∈ ns, f n = n) : ns.map f = ns :=
  (List.map_congr_left h).trans (List.map_id' ns)

theorem map_upTo_of_nil (h : holding pos m = []) :
    m.preorder.map (Node.upTo pos) = m.preorder := by
  refine map_of_fixed ?_
  intro n hn
  rw [Node.upTo, if_neg (List.filter_eq_nil_iff.mp h n hn)]

/-- Nothing is cut below a node that the position does not lie in. -/
theorem holding_of_whole (hkids : Nests n.span.start n.span.stop kids)
    (hn : ¬(n.span.start < pos ∧ pos < n.span.stop)) (rest : Markup) :
    holding pos (.node n kids rest) = holding pos rest ∧
      (Forest.node n kids rest).preorder.map (Node.upTo pos) =
        n :: (kids.preorder ++ rest.preorder.map (Node.upTo pos)) := by
  have hord := hkids.le
  have hnone : holding pos kids = [] := hkids.holding_eq_nil (by omega)
  constructor
  · rw [holding_node, hnone, if_neg]
    · rfl
    · rw [Span.strictlyContains_iff]
      exact hn
  · rw [Forest.preorder_node, List.map_cons, List.map_append, map_upTo_of_nil hnone,
      Node.upTo_of_not_holds hn]

/-- A division takes one number for every node that the position lies in. -/
theorem next_divide (h : Nests lo hi m) (pos : Nat) (s : Supply) :
    (divide pos m s).supply.next = s.next + (holding pos m).length := by
  induction m generalizing lo hi s with
  | nil => rfl
  | node n kids rest ihk ihr =>
    obtain ⟨-, hkids, hrest⟩ := h
    by_cases hn : n.span.start < pos ∧ pos < n.span.stop
    · have hk := ihk hkids (s.cut n pos)
      have hr := ihr hrest (divide pos kids (s.cut n pos)).supply
      have hcut : (s.cut n pos).next = s.next + 1 := rfl
      rw [divide_cut hn, holding_node, if_pos (Span.strictlyContains_iff.mpr hn)]
      simp only [List.length_append, List.length_singleton, NodeId] at *
      omega
    · have hr := ihr hrest s
      rw [(holding_of_whole hkids hn rest).1, ← hr]
      rcases n.span.lies pos with h | h | h | h
      · exact absurd h hn
      · rw [divide_marker h]
      · rw [divide_right h]
      · rw [divide_left h]

/-- The nodes after a division. -/
theorem perm_divide (h : Nests lo hi m) (pos : Nat) (s : Supply) :
    (divide pos m s).row.preorder.Perm
      (m.preorder.map (Node.upTo pos) ++ halves (fun _ => pos) s.next (holding pos m)) := by
  induction m generalizing lo hi s with
  | nil => exact .nil
  | node n kids rest ihk ihr =>
    obtain ⟨-, hkids, hrest⟩ := h
    refine List.perm_iff_count.mpr ?_
    intro x
    by_cases hn : n.span.start < pos ∧ pos < n.span.stop
    · have hk := (ihk hkids (s.cut n pos)).count_eq x
      have hr := (ihr hrest (divide pos kids (s.cut n pos)).supply).count_eq x
      have hcut : (s.cut n pos).next = s.next + 1 := rfl
      rw [next_divide hkids, hcut] at hr
      rw [hcut] at hk
      rw [divide_cut hn, holding_node, if_pos (Span.strictlyContains_iff.mpr hn)]
      simp only [Division.row, Forest.preorder_append, Forest.preorder_node, List.map_cons,
        List.map_append, Node.upTo_of_holds hn, halves_append, halves, List.count_append,
        List.count_cons, List.cons_append, List.nil_append] at hk hr ⊢
      omega
    · have hr := (ihr hrest s).count_eq x
      obtain ⟨hholding, hmap⟩ := holding_of_whole hkids hn rest
      rw [hholding, hmap]
      rcases n.span.lies pos with h | h | h | h
      · exact absurd h hn
      · rw [divide_marker h]
        simp only [Division.row, Forest.preorder_append, Forest.preorder_node, List.count_append,
          List.count_cons, List.cons_append] at hr ⊢
        omega
      · rw [divide_right h]
        simp only [Division.row, Forest.preorder_append, Forest.preorder_node, List.count_append,
          List.count_cons, List.cons_append] at hr ⊢
        omega
      · rw [divide_left h]
        simp only [Division.row, Forest.preorder_append, Forest.preorder_node, List.count_append,
          List.count_cons, List.cons_append] at hr ⊢
        omega

/-- What a division leaves lies within nodes that were there. -/
theorem within_divide (h : Nests lo hi m) (hx : x ∈ (divide pos m s).row.preorder) :
    ∃ n ∈ m.preorder, n.span.start ≤ x.span.start ∧ x.span.stop ≤ n.span.stop := by
  rw [(perm_divide h pos s).mem_iff, List.mem_append, List.mem_map] at hx
  rcases hx with ⟨n, hn, rfl⟩ | hx
  · refine ⟨n, hn, ?_⟩
    by_cases hpos : n.span.start < pos ∧ pos < n.span.stop
    · rw [Node.upTo_of_holds hpos]
      exact ⟨Nat.le_refl _, Nat.le_of_lt hpos.2⟩
    · rw [Node.upTo_of_not_holds hpos]
      exact ⟨Nat.le_refl _, Nat.le_refl _⟩
  · obtain ⟨-, n, hn, hxn⟩ := mem_halves hx
    obtain ⟨hn, hpos⟩ := List.mem_filter.mp hn
    rw [Span.strictlyContains_iff] at hpos
    rw [hxn]
    exact ⟨n, hn, Nat.le_of_lt hpos.1, Nat.le_refl _⟩

/-- What starts behind the position is on the right, in order. -/
theorem filter_right {p : Node → Bool} (h : Nests lo hi m)
    (hp : ∀ n, p n = true → pos < n.span.start) (s : Supply) :
    (divide pos m s).right.preorder.filter p = m.preorder.filter p := by
  have hnone {f : Markup} {lo : Nat} (hf : Nests lo pos f) : f.preorder.filter p = [] := by
    refine List.filter_eq_nil_iff.mpr ?_
    intro n hn hpn
    have hbounds := hf.bounds hn
    have := hp n hpn
    omega
  induction m generalizing lo hi s with
  | nil => rfl
  | node n kids rest ihk ihr =>
    obtain ⟨-, hkids, hrest⟩ := h
    have hord := hkids.le
    have hself (hn : n.span.start ≤ pos) : ¬p n = true := by
      intro hpn
      have := hp n hpn
      omega
    rcases n.span.lies pos with hn | hn | hn | hn
    · have hhalf : ¬p (n.rightHalf pos s.next) = true := by
        intro hpn
        exact Nat.lt_irrefl pos (hp _ hpn)
      rw [divide_cut hn, Forest.preorder_node, Forest.preorder_node, List.filter_cons,
        List.filter_cons, if_neg hhalf, if_neg (hself (by omega)), List.filter_append,
        List.filter_append, ihk hkids, ihr hrest]
    · rw [divide_marker hn, Forest.preorder_node, List.filter_cons, if_neg (hself (by omega)),
        List.filter_append, hnone (hkids.mono (Nat.le_refl _) (by omega)), ihr hrest]
      rfl
    · rw [divide_right hn, Forest.preorder_node, Forest.preorder_node, List.filter_cons,
        List.filter_cons, List.filter_append, List.filter_append, ihr hrest]
    · rw [divide_left hn, Forest.preorder_node, List.filter_cons, if_neg (hself (by omega)),
        List.filter_append, hnone (hkids.mono (Nat.le_refl _) (by omega)), ihr hrest]
      rfl

/-! ## Openings -/

/-- In a row without room for the span nothing further down has room either. -/
theorem Closed.not_admits (h : Closed span row) (hrow : Nests lo hi row)
    (hab : span.start ≤ span.stop) (hn : n ∈ row.preorder) : n.span.admits span = false := by
  rcases Forest.root_or_below hn with hroot | ⟨t, ht, hroot, hbelow⟩
  · rw [← enters_nil]
    exact h n hroot
  · have hbounds := (hrow.children ht).bounds hbelow
    have hclosed := h t.label hroot
    rw [enters_nil] at hclosed
    rw [← Bool.not_eq_true] at hclosed ⊢
    intro hadmits
    exact hclosed (admits_within hab hbounds.1 hbounds.2.2 hadmits)

/-- The part of a list that passes either test, if what passes the first one comes first. -/
theorem filter_or {p q r : Node → Bool} (hr : ∀ n ∈ ns, r n = (p n || q n))
    (hpq : ∀ n ∈ ns, p n = true → q n = false)
    (horder : ns.Pairwise fun x y => q x = true → p y = false) :
    ns.filter r = ns.filter p ++ ns.filter q := by
  induction ns with
  | nil => rfl
  | cons n ns ih =>
    obtain ⟨hrn, hrns⟩ := List.forall_mem_cons.mp hr
    obtain ⟨hpqn, hpqns⟩ := List.forall_mem_cons.mp hpq
    obtain ⟨hfirst, horder⟩ := List.pairwise_cons.mp horder
    have ih := ih hrns hpqns horder
    rw [List.filter_cons, List.filter_cons, List.filter_cons, hrn, ih]
    by_cases hp : p n = true
    · simp [hp, hpqn hp]
    · by_cases hq : q n = true
      · have hnone : ns.filter p = [] := by
          refine List.filter_eq_nil_iff.mpr ?_
          intro x hx
          simp [hfirst x hx hq]
        simp [hp, hq, hnone]
      · simp [hp, hq]

section Opening

variable (hrow : Nests lo hi row) (hclosed : Closed span row) (hab : span.start ≤ span.stop)
include hrow hclosed hab

/-- What crosses the span holds its start, or else its end. -/
theorem crossing_eq : crossing span row = holding span.start row ++ holding span.stop row := by
  refine filter_or ?_ ?_ ?_
  · intro n hn
    exact Span.crosses_of_not_admits hab (hclosed.not_admits hrow hab hn)
  · intro n hn hstart
    have hadmits := hclosed.not_admits hrow hab hn
    rw [← Bool.not_eq_true, Span.admits_iff] at hadmits
    rw [Span.strictlyContains_iff] at hstart
    rw [← Bool.not_eq_true, Span.strictlyContains_iff]
    omega
  · refine hrow.pairwise.imp_of_mem ?_
    intro x y hx hy horder hstop
    have hadmits := hclosed.not_admits hrow hab hx
    have hbounds := hrow.bounds hx
    rw [← Bool.not_eq_true, Span.admits_iff] at hadmits
    rw [Span.strictlyContains_iff] at hstop
    rw [← Bool.not_eq_true, Span.strictlyContains_iff]
    omega

/-- What holds the end of the span is right of its start. -/
theorem holding_right (s : Supply) :
    holding span.stop (divide span.start row s).right = holding span.stop row := by
  let p : Node → Bool := fun n =>
    n.span.strictlyContains span.stop && decide (span.start < n.span.start)
  have hstop {ns : List Node} (hns : ∀ n ∈ ns, n.span.admits span = false) :
      (ns.filter fun n => n.span.strictlyContains span.stop) = ns.filter p := by
    refine List.filter_congr ?_
    intro n hn
    have hadmits := hns n hn
    rw [← Bool.not_eq_true, Span.admits_iff] at hadmits
    rw [Bool.eq_iff_iff, Bool.and_eq_true, Span.strictlyContains_iff, decide_eq_true_eq]
    omega
  have hright : ∀ n ∈ (divide span.start row s).right.preorder, n.span.admits span = false := by
    intro n hn
    have hmem : n ∈ (divide span.start row s).row.preorder := by
      rw [Division.row, Forest.preorder_append]
      exact List.mem_append_right _ hn
    obtain ⟨x, hx, hstart, hstop⟩ := within_divide hrow hmem
    have hadmits := hclosed.not_admits hrow hab hx
    rw [← Bool.not_eq_true] at hadmits ⊢
    intro h
    exact hadmits (admits_within hab hstart hstop h)
  have hpos (n : Node) (hn : p n = true) : span.start < n.span.start :=
    of_decide_eq_true (Bool.and_eq_true_iff.mp hn).2
  rw [holding, holding, hstop hright, filter_right hrow hpos,
    hstop fun n hn => hclosed.not_admits hrow hab hn]

/-- An opening takes one number for every node that crosses the span. -/
theorem next_opening (hlo : lo ≤ span.start) (hhi : span.stop ≤ hi) (s : Supply) :
    (opening [] span row s).2.next = s.next + (crossing span row).length := by
  have hright := (hrow.divide hlo (Nat.le_trans hab hhi) s).2.2
  have hstart := next_divide hrow span.start s
  have hstop := next_divide hright span.stop (divide span.start row s).supply
  rw [holding_right hrow hclosed hab s] at hstop
  rw [opening_nil, crossing_eq hrow hclosed hab, List.length_append]
  simp only [NodeId] at *
  omega

/-- The halves right of the start are not cut at the end. -/
theorem halves_upTo (k : NodeId) :
    (halves (fun _ => span.start) k (holding span.start row)).map (Node.upTo span.stop) =
      halves (fun _ => span.start) k (holding span.start row) := by
  refine map_of_fixed ?_
  intro x hx
  obtain ⟨-, n, hn, hxn⟩ := mem_halves hx
  obtain ⟨hn, hpos⟩ := List.mem_filter.mp hn
  have hadmits := hclosed.not_admits hrow hab hn
  rw [← Bool.not_eq_true, Span.admits_iff] at hadmits
  rw [Span.strictlyContains_iff] at hpos
  refine Node.upTo_of_not_holds ?_
  rw [hxn]
  show ¬(span.start < span.stop ∧ span.stop < n.span.stop)
  omega

/-- A node that crosses the span is cut at the end that it holds. -/
theorem halves_crossing (k : NodeId) :
    halves (fun n => n.span.crossed span) k (crossing span row) =
      halves (fun _ => span.start) k (holding span.start row) ++
        halves (fun _ => span.stop) (k + (holding span.start row).length)
          (holding span.stop row) := by
  rw [crossing_eq hrow hclosed hab, halves_append]
  congr 1
  · refine halves_congr ?_
    intro n hn
    have hpos := Span.strictlyContains_iff.mp (List.mem_filter.mp hn).2
    exact if_pos hpos.1
  · refine halves_congr ?_
    intro n hn
    obtain ⟨hn, hpos⟩ := List.mem_filter.mp hn
    have hadmits := hclosed.not_admits hrow hab hn
    rw [← Bool.not_eq_true, Span.admits_iff] at hadmits
    rw [Span.strictlyContains_iff] at hpos
    exact if_neg (by omega)

/-- The nodes after an opening. -/
theorem perm_opening (hlo : lo ≤ span.start) (hhi : span.stop ≤ hi) (s : Supply) :
    ((opening [] span row s).1.before.preorder ++ ((opening [] span row s).1.inside.preorder ++
        (opening [] span row s).1.after.preorder)).Perm
      (row.preorder.map (Node.spared span) ++
        halves (fun n => n.span.crossed span) s.next (crossing span row)) := by
  obtain ⟨hleft, hlifted, hright⟩ := hrow.divide hlo (Nat.le_trans hab hhi) s
  have hstart := (perm_divide hrow span.start s).map (Node.upTo span.stop)
  have hstop := perm_divide hright span.stop (divide span.start row s).supply
  rw [holding_right hrow hclosed hab s, next_divide hrow] at hstop
  -- left of the start nothing is cut at the end
  have hbefore : ((divide span.start row s).left ++ (divide span.start row s).lifted).preorder.map
      (Node.upTo span.stop) =
        ((divide span.start row s).left ++ (divide span.start row s).lifted).preorder :=
    map_upTo_of_nil ((hleft.append hlifted).holding_eq_nil (.inr hab))
  have hspared : (row.preorder.map (Node.upTo span.start)).map (Node.upTo span.stop) =
      row.preorder.map (Node.spared span) := by
    rw [List.map_map]
    refine List.map_congr_left ?_
    intro n hn
    exact (Node.spared_eq hab (hclosed.not_admits hrow hab hn)).symm
  rw [Division.row, Forest.preorder_append, List.map_append, hbefore, List.map_append, hspared,
    halves_upTo hrow hclosed hab] at hstart
  rw [opening_nil, halves_crossing hrow hclosed hab]
  refine List.perm_iff_count.mpr ?_
  intro x
  have h₁ := hstart.count_eq x
  have h₂ := hstop.count_eq x
  simp only [Division.row, Forest.preorder_append, List.count_append] at h₁ h₂ ⊢
  omega

end Opening

/-- An opening keeps the nodes that were there in order. -/
theorem seen_opening_nil (hrow : Nests lo hi row) (hlo : lo ≤ span.start)
    (hab : span.start ≤ span.stop) (hhi : span.stop ≤ hi) (s : Supply)
    {q : NodeId → Bool} (hq : ∀ x, q x = true → x < s.next) :
    seen q (opening [] span row s).1.before ++ (seen q (opening [] span row s).1.inside ++
      seen q (opening [] span row s).1.after) = seen q row := by
  obtain ⟨-, -, hright⟩ := hrow.divide hlo (Nat.le_trans hab hhi) s
  have hle := (divide_le span.start row s).next
  have hstart := seen_divide span.start hrow hq
  have hstop := seen_divide (s := (divide span.start row s).supply) span.stop hright
    fun x hx => Nat.lt_of_lt_of_le (hq x hx) hle
  rw [opening_nil]
  dsimp only
  rw [seen_append, seen_append, ← hstart, ← hstop, List.append_assoc]

/-! ## Insertions without claims -/

/-- The mark-up after an insertion that claims nothing. -/
def added (e : Element) (m : Markup) (s : Supply) : Markup :=
  (site [] e.span m).plug (newRow e [] m s (opened [] e.span m s).1.inside)

/-- Of the nodes around the row that is opened none crosses the span. -/
theorem exists_around (hm : Nests lo hi m) (hab : span.start ≤ span.stop) :
    ∃ front back, m.preorder = front ++ (site [] span m).row.preorder ++ back ∧
      (∀ g, ((site [] span m).plug g).preorder = front ++ g.preorder ++ back) ∧
      (∀ n ∈ front, n.span.crosses span = false) ∧ ∀ n ∈ back, n.span.crosses span = false := by
  have hin : Interior (fun _ => false) m := interior_of_unseen (seen_eq_nil_iff.mpr fun _ _ => rfl)
  obtain ⟨front, back, ha⟩ := hin.around [] hm hab
  refine ⟨front, back, ha.self, ha.plug, ?_, ?_⟩
  · intro n hn
    rw [Span.crosses_eq_false_iff]
    by_cases henters : enters [] span n = true
    · have := covers_of_enters hab henters
      omega
    · have := (ha.front n hn (Bool.eq_false_iff.mpr henters)).1
      omega
  · intro n hn
    have := ha.back n hn
    rw [Span.crosses_eq_false_iff]
    omega

theorem closed_row (span : Span) (m : Markup) : Closed span (site [] span m).row :=
  Forest.focus_row_not_entered _ m

namespace Insertable

variable (h : Insertable lo hi [] e m s)
include h

/-- The nodes that cross the span of a new element are in the row that is opened. -/
theorem crossing_row : crossing e.span m = crossing e.span (site [] e.span m).row := by
  obtain ⟨front, back, hself, -, hfront, hback⟩ := exists_around h.nests h.ordered
  have hnone {ns : List Node} (hns : ∀ n ∈ ns, n.span.crosses e.span = false) :
      (ns.filter fun n => n.span.crosses e.span) = [] := by
    refine List.filter_eq_nil_iff.mpr ?_
    intro n hn
    rw [hns n hn]
    exact Bool.false_ne_true
  rw [crossing, hself, List.filter_append, List.filter_append, hnone hfront, hnone hback,
    List.nil_append, List.append_nil, crossing]

/-- The new element takes its number after one for every node that crosses its span. -/
theorem next_opened :
    (opened [] e.span m s).2.next = s.next + (crossing e.span m).length := by
  obtain ⟨lo', hi', hlo', hhi', hrow, -⟩ := h.nests.focus [] h.lo_le h.ordered h.le_hi
  rw [h.crossing_row]
  exact next_opening hrow (closed_row e.span m) h.ordered hlo' hhi' s

/-- The nodes after an insertion: the new one, those before, up to their cuts, and right halves. -/
theorem perm_added : (added e m s).preorder.Perm
    (⟨e, (opened [] e.span m s).2.next⟩ :: (m.preorder.map (Node.spared e.span) ++
      halves (fun n => n.span.crossed e.span) s.next (crossing e.span m))) := by
  obtain ⟨lo', hi', hlo', hhi', hrow, -⟩ := h.nests.focus [] h.lo_le h.ordered h.le_hi
  have hperm := perm_opening hrow (closed_row e.span m) h.ordered hlo' hhi' s
  obtain ⟨front, back, hself, hplug, hfront, hback⟩ := exists_around h.nests h.ordered
  have hwhole {ns : List Node} (hns : ∀ n ∈ ns, n.span.crosses e.span = false) :
      ns.map (Node.spared e.span) = ns := by
    refine map_of_fixed ?_
    intro n hn
    exact Node.spared_of_not_crosses (hns n hn)
  rw [h.crossing_row, hself, List.map_append, List.map_append, hwhole hfront, hwhole hback, added,
    hplug, newRow, opened]
  refine List.perm_iff_count.mpr ?_
  intro x
  have hcount := hperm.count_eq x
  simp only [Forest.preorder_append, Forest.preorder_node, List.count_append,
    List.count_cons] at hcount ⊢
  omega

/-- The nodes that were there stay in order. -/
theorem seen_added {q : NodeId → Bool} (hq : ∀ x, q x = true → x < s.next) :
    seen q (added e m s) = seen q m := by
  obtain ⟨lo', hi', hlo', hhi', hrow, -⟩ := h.nests.focus [] h.lo_le h.ordered h.le_hi
  obtain ⟨front, back, hself, hplug, -⟩ := exists_around h.nests h.ordered
  have hnew : q (opened [] e.span m s).2.next = false := by
    refine Bool.eq_false_iff.mpr ?_
    intro hqn
    exact absurd next_le_opened (Nat.not_le.mpr (hq _ hqn))
  have hseen : seen q (newRow e [] m s (opened [] e.span m s).1.inside) =
      seen q (site [] e.span m).row := by
    rw [newRow, seen_append, seen_node, hnew, ← seen_opening_nil hrow hlo' h.ordered hhi' s hq]
    rfl
  have hwatched (ns : List Node) : watched q (front ++ ns ++ back) =
      watched q front ++ watched q ns ++ watched q back := by simp [watched]
  calc seen q (added e m s)
      = watched q front ++ seen q (newRow e [] m s (opened [] e.span m s).1.inside) ++
          watched q back := by rw [added, seen, hplug, hwatched, seen]
    _ = watched q front ++ seen q (site [] e.span m).row ++ watched q back := by rw [hseen]
    _ = seen q m := by rw [seen, seen, hself, hwatched]

end Insertable

end Markup

namespace Document

open Markup

variable {doc : Document} {e : Element} {balancing : Balancing} {a : Addition}

/-- The document after an insertion that claims nothing. -/
theorem WellFormed.insert_added (h : doc.WellFormed) (ha : doc.insert e [] balancing = .ok a) :
    Insertable 0 doc.text.length [] e doc.markup ⟨doc.next, []⟩ ∧
      a.document.markup = added e doc.markup ⟨doc.next, []⟩ ∧
      a.id = (opened [] e.span doc.markup ⟨doc.next, []⟩).2.next ∧
      a.document.next = a.id + 1 ∧
      a.cuts = (opened [] e.span doc.markup ⟨doc.next, []⟩).2.cuts.reverse := by
  obtain ⟨hins, rfl⟩ := h.insert_eq (fun c hc => absurd hc List.not_mem_nil) ha
  exact ⟨hins, rfl, rfl, rfl, rfl⟩

end Document

end Standoff
