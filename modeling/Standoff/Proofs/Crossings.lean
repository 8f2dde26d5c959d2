import Standoff.Proofs.Balancing
import Standoff.Proofs.Fragments
import Standoff.Proofs.Sessions

/-! # Insertions that may not cut

Where nothing may be cut an element is refused exactly if it crosses another one, at any depth.  The
search looks at one row only; but what crosses a span is in the row that is opened for it, and if
anything does then one of the roots of that row.

* `Markup.mem_of_firstCrossing`: the element that is reported.
* `Document.StrictAnswer`: everything that can be answered.
* `Document.WellFormed.strict_answer`: nothing else is. -/

namespace Standoff

/-- An ordered span without room for another crosses it if it is found to. -/
theorem Span.crosses_of_side {s span : Span} {pos : Nat} (hab : span.start ≤ span.stop)
    (hord : s.start ≤ s.stop) (hroom : s.admits span = false) (h : s.side span = .crossing pos) :
    s.crosses span = true := by
  rw [← Bool.not_eq_true, admits_iff] at hroom
  rw [crosses_iff]
  rcases sides s span with hs | hs | hs | hs | hs | hs
  · rw [side_before hs] at h
    cases h
  · rw [side_after ⟨hab, hs⟩ hord] at h
    cases h
  · rw [side_inside hs hord] at h
    cases h
  · omega
  · omega
  · omega

namespace Markup

variable {lo hi : Nat} {m : Markup} {n : Node} {s : Supply} {span : Span} {e : Element}

/-- The first crossing is at a root of the row. -/
theorem mem_of_firstCrossing (h : firstCrossing [] span m = some n) :
    n ∈ m.labels ∧ ∃ pos, n.span.side span = .crossing pos := by
  induction m with
  | nil => cases h
  | node x kids rest _ ih =>
    have hrest (h : firstCrossing [] span rest = some n) :
        n ∈ (Forest.node x kids rest).labels ∧ ∃ pos, n.span.side span = .crossing pos := by
      obtain ⟨hn, hpos⟩ := ih h
      exact ⟨List.mem_cons_of_mem _ hn, hpos⟩
    rw [firstCrossing, if_neg List.not_mem_nil] at h
    cases hs : x.span.side span with
    | before =>
      rw [hs] at h
      exact hrest h
    | inside =>
      rw [hs] at h
      exact hrest h
    | after =>
      rw [hs] at h
      by_cases hb : x.span.isBeyond span = true
      · simp [hb] at h
      · simp only [hb, Bool.false_eq_true, if_false] at h
        exact hrest h
    | crossing pos =>
      rw [hs] at h
      cases h
      exact ⟨List.mem_cons_self .., pos, hs⟩

namespace Insertable

variable (h : Insertable lo hi [] e m s)
include h

/-- The element that is reported crosses the span. -/
theorem crosses_of_crossing (hn : crossing? [] e.span m = some n) :
    n ∈ m.preorder ∧ n.span.crosses e.span = true := by
  obtain ⟨hroot, pos, hside⟩ := mem_of_firstCrossing hn
  have hmem := mem_row_of_site (Forest.labels_subset_preorder hroot)
  have hroom := closed_row e.span m n hroot
  rw [enters_nil] at hroom
  exact ⟨hmem, Span.crosses_of_side h.ordered (h.nests.bounds hmem).2.1 hroom hside⟩

/-- If no root of the opened row crosses the span then no element does. -/
theorem crossing?_eq_none_iff : crossing? [] e.span m = none ↔ crossing e.span m = [] := by
  have hnext := h.next_opened
  rw [crossing_eq_none_iff h.nests h.lo_le h.ordered h.le_hi h.claims (fresh_nil s), hnext,
    ← List.length_eq_zero_iff]
  simp only [NodeId]
  omega

end Insertable

end Markup

namespace Document

open Markup

/-- What can be answered to an element that may not cut any other. -/
structure StrictAnswer (doc : Document) (e : Element)
    (answer : Except MergeConflict Addition) : Prop where
  accepted_iff : (∃ a, answer = .ok a) ↔
    e.span.start ≤ e.span.stop ∧ e.span.stop ≤ doc.text.length ∧
      ∀ n ∈ doc.markup.preorder, n.span.crosses e.span = false
  /-- There is one element more, and the others are whole and as they were. -/
  added : ∀ a, answer = .ok a → a.cuts = [] ∧ a.id ∉ doc.markup.ids ∧
    a.document.elementCount = doc.elementCount + 1 ∧
    a.document.markup.preorder.Perm (⟨e, a.id⟩ :: doc.markup.preorder)
  /-- The span does not fit into the text, or an element that crosses it is named. -/
  refused : ∀ c, answer = .error c → c.name = e.name ∧ c.span = e.span ∧
    ((c.reason = .inverted ∧ e.span.stop < e.span.start) ∨
      (c.reason = .outOfBounds doc.text.length ∧ doc.text.length < e.span.stop) ∨
      ∃ n ∈ doc.markup.preorder, n.span.crosses e.span = true ∧ c.reason = .crossing n.name n.span)

variable {doc : Document} {e : Element} {a : Addition} {span : Span}

/-- Why a span does not fit into the text. -/
theorem misfit?_span_eq_some {reason : ConflictReason} (h : doc.misfit? span = some reason) :
    (reason = .inverted ∧ span.stop < span.start) ∨
      (reason = .outOfBounds doc.text.length ∧ doc.text.length < span.stop) := by
  rw [misfit?, Span.isOrdered] at h
  by_cases hord : span.start ≤ span.stop
  · by_cases hlong : doc.text.length < span.stop
    · simp only [hord, hlong, decide_true, Bool.not_true, Bool.false_eq_true, if_false, if_true,
        Option.some.injEq] at h
      exact .inr ⟨h.symm, hlong⟩
    · simp [hord, hlong] at h
  · simp only [hord, decide_false, Bool.not_false, if_true, Option.some.injEq] at h
    exact .inl ⟨h.symm, Nat.not_le.mp hord⟩

namespace WellFormed

variable (h : doc.WellFormed)
include h

/-- The next number is not in use. -/
theorem next_not_mem : doc.next ∉ doc.markup.ids := by
  intro hmem
  exact Nat.lt_irrefl _ (h.mem_ids_iff.mp hmem).2

theorem insertable_nil (hord : e.span.start ≤ e.span.stop)
    (hstop : e.span.stop ≤ doc.text.length) :
    Insertable 0 doc.text.length [] e doc.markup ⟨doc.next, []⟩ :=
  h.insertable hord hstop fun _ hc => absurd hc List.not_mem_nil

/-- An element that fits and crosses no other is added. -/
theorem insert_strict_ok (hord : e.span.start ≤ e.span.stop)
    (hstop : e.span.stop ≤ doc.text.length) (hnone : crossing e.span doc.markup = []) :
    ∃ a, doc.insert e [] .strict = .ok a := by
  have hins := h.insertable_nil hord hstop
  have hp : doc.markup.place e [] .strict (fun inside s => .ok ⟨inside, s⟩)
      ⟨doc.next, []⟩ = .ok _ :=
    (place_strict_iff h.nests (Nat.zero_le _) hord hstop hins.claims (fresh_nil _)).mpr
      ⟨hins.crossing?_eq_none_iff.mpr hnone, _, rfl, rfl⟩
  exact ⟨doc.grown [e] _, by rw [Document.insert, misfit?_span_eq_none.mpr ⟨hord, hstop⟩, hp]⟩

/-- One that fits and crosses another is refused, with the name of such a one. -/
theorem insert_strict_crossing (hord : e.span.start ≤ e.span.stop)
    (hstop : e.span.stop ≤ doc.text.length) (hsome : crossing e.span doc.markup ≠ []) :
    ∃ n ∈ doc.markup.preorder, n.span.crosses e.span = true ∧
      doc.insert e [] .strict = .error ⟨e.name, e.span, .crossing n.name n.span⟩ := by
  have hins := h.insertable_nil hord hstop
  cases hn : crossing? [] e.span doc.markup with
  | none => exact absurd (hins.crossing?_eq_none_iff.mp hn) hsome
  | some n =>
    obtain ⟨hmem, hcross⟩ := hins.crosses_of_crossing hn
    refine ⟨n, hmem, hcross, ?_⟩
    rw [Document.insert, misfit?_span_eq_none.mpr ⟨hord, hstop⟩, place_strict_of_crossing hn]

/-- An addition without a cut leaves every element as it was. -/
theorem insert_strict_added (ha : doc.insert e [] .strict = .ok a) :
    a.cuts = [] ∧ a.id = doc.next ∧ a.document.next = doc.next + 1 ∧
      crossing e.span doc.markup = [] ∧
      a.document.markup.preorder.Perm (⟨e, a.id⟩ :: doc.markup.preorder) := by
  obtain ⟨⟨hord, hstop⟩, p, hp, -⟩ := insert_ok ha
  obtain ⟨hins, hmarkup, hid, hnext, hcuts⟩ := h.insert_added ha
  have hcrossing := ((place_strict_iff h.nests (Nat.zero_le _) hord hstop hins.claims
    (fresh_nil _)).mp hp).1
  have hnone := hins.crossing?_eq_none_iff.mp hcrossing
  have hsupply := opened_supply h.nests (Nat.zero_le _) hord hstop hins.claims
    (fresh_nil ⟨doc.next, []⟩) hcrossing
  rw [hsupply] at hid hcuts
  have hwhole : doc.markup.preorder.map (Node.spared e.span) = doc.markup.preorder := by
    refine map_of_fixed ?_
    intro n hn
    have hcross := List.filter_eq_nil_iff.mp hnone n hn
    exact Node.spared_of_not_crosses (Bool.eq_false_iff.mpr hcross)
  have hperm := hins.perm_added
  rw [hnone, hwhole, hsupply, halves, List.append_nil, ← hmarkup] at hperm
  rw [hid] at hnext ⊢
  exact ⟨hcuts, rfl, hnext, hnone, hperm⟩

/-- Elements that may not cut any other are added if they fit and cross none, and else refused. -/
theorem strict_answer_insert (e : Element) : doc.StrictAnswer e (doc.insert e [] .strict) := by
  have hcrossing : crossing e.span doc.markup = [] ↔
      ∀ n ∈ doc.markup.preorder, n.span.crosses e.span = false := by
    rw [crossing, List.filter_eq_nil_iff]
    simp only [Bool.not_eq_true]
  refine ⟨⟨?_, ?_⟩, ?_, ?_⟩
  · rintro ⟨a, ha⟩
    obtain ⟨⟨hord, hstop⟩, -⟩ := insert_ok ha
    exact ⟨hord, hstop, hcrossing.mp (h.insert_strict_added ha).2.2.2.1⟩
  · rintro ⟨hord, hstop, hnone⟩
    exact h.insert_strict_ok hord hstop (hcrossing.mpr hnone)
  · intro a ha
    obtain ⟨hcuts, hid, -, -, hperm⟩ := h.insert_strict_added ha
    have hlength := hperm.length_eq
    rw [Forest.length_preorder, List.length_cons, Forest.length_preorder] at hlength
    refine ⟨hcuts, ?_, hlength, hperm⟩
    rw [hid]
    exact h.next_not_mem
  · intro c hc
    cases hmisfit : doc.misfit? e.span with
    | some reason =>
      rw [Document.insert, hmisfit] at hc
      cases hc
      refine ⟨rfl, rfl, ?_⟩
      rcases misfit?_span_eq_some hmisfit with hinverted | hlong
      · exact .inl hinverted
      · exact .inr (.inl hlong)
    | none =>
      obtain ⟨hord, hstop⟩ := misfit?_span_eq_none.mp hmisfit
      by_cases hnone : crossing e.span doc.markup = []
      · obtain ⟨a, ha⟩ := h.insert_strict_ok hord hstop hnone
        rw [ha] at hc
        cases hc
      · obtain ⟨n, hn, hcross, herror⟩ := h.insert_strict_crossing hord hstop hnone
        rw [herror] at hc
        cases hc
        exact ⟨rfl, rfl, .inr (.inr ⟨n, hn, hcross, rfl⟩)⟩

/-- Whatever the span, an element that may not cut is added if it fits into the text and crosses no
other; then all others stay whole.  Otherwise it is refused, and if it fits an element is named that
it crosses. -/
theorem strict_answer (name : String) (span : Span) (attributes : Attributes) :
    doc.StrictAnswer ⟨name, span, attributes⟩ (doc.insert ⟨name, span, attributes⟩ [] .strict) ∧
      doc.StrictAnswer ⟨name, span, {}⟩ (doc.addSpan name span) :=
  ⟨h.strict_answer_insert _, h.strict_answer_insert _⟩

omit h in
/-- An element that crosses two others, one inside the other, and an element that crosses none. -/
theorem strict_answer_nested :
    let host := Session.apply (ofText "abcdefgh")
      [.addSpan "a" ⟨0, 6⟩, .addSpan "b" ⟨1, 4⟩, .addSpan "c" ⟨2, 4⟩, .addSpan "m" ⟨3, 3⟩]
    host.WellFormed ∧
      host.StrictAnswer ⟨"r", ⟨3, 5⟩, {}⟩ (host.addSpan "r" ⟨3, 5⟩) ∧
      host.addSpan "r" ⟨3, 5⟩ = .error ⟨"r", ⟨3, 5⟩, .crossing "b" ⟨1, 4⟩⟩ ∧
      ∃ a, host.insert ⟨"s", ⟨1, 6⟩, .setAll [("k", "v")] {}⟩ [] .strict = .ok a := by
  intro host
  have h : host.WellFormed :=
    (Session.wellFormed_apply (wellFormed_ofText "abcdefgh") (by decide +kernel)).1
  refine ⟨h, (h.strict_answer "r" ⟨3, 5⟩ {}).2, by decide +kernel, ?_⟩
  exact (h.strict_answer "s" ⟨1, 6⟩ (.setAll [("k", "v")] {})).1.accepted_iff.mpr
    (by decide +kernel)

end WellFormed

end Document

end Standoff
