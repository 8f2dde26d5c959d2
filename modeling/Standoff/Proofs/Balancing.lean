import Standoff.Proofs.WellFormed

/-! # Strict balancing: the additions that cut nothing

Cutting succeeds whenever an element fits, and every cut takes a number.  So a strict addition is
one that takes no numbers but those of its new elements.

* `Markup.mergeRow_strict_iff`: merges.
* `Document.WellFormed.insert_strict_iff`, `Document.WellFormed.merge_strict_iff`: additions to a
  document. -/

namespace Standoff

namespace Markup

variable {lo hi : Nat} {m : Markup} {s : Supply} {claimed : List NodeId} {e : Element}
  {fill : Markup → Supply → Except MergeConflict Growth} {p : Placement} {g : Growth}

/-! ## Placement -/

/-- Where cutting is allowed a placement fails only if the filling does. -/
theorem place_inner_iff (h : Nests lo hi m) (hlo : lo ≤ e.span.start)
    (hab : e.span.start ≤ e.span.stop) (hhi : e.span.stop ≤ hi) (hclaims : Claims claimed e.span m)
    (hfresh : ∀ c ∈ claimed, c < s.next) :
    m.place e claimed .inner fill s = .ok p ↔
      ∃ inside, fill (opened claimed e.span m s).1.inside (opened claimed e.span m s).2.take =
        .ok inside ∧ p = placed e claimed m s inside := by
  constructor
  · exact place_ok h hlo hab hhi hclaims hfresh
  · rintro ⟨inside, hfill, rfl⟩
    rw [place_eq h hlo hab hhi hclaims hfresh (fun hstrict => by cases hstrict), hfill]
    rfl

/-- Where it is not, the row must have no crossing either. -/
theorem place_strict_iff (h : Nests lo hi m) (hlo : lo ≤ e.span.start)
    (hab : e.span.start ≤ e.span.stop) (hhi : e.span.stop ≤ hi) (hclaims : Claims claimed e.span m)
    (hfresh : ∀ c ∈ claimed, c < s.next) :
    m.place e claimed .strict fill s = .ok p ↔
      crossing? claimed e.span m = none ∧
      ∃ inside, fill (opened claimed e.span m s).1.inside (opened claimed e.span m s).2.take =
        .ok inside ∧ p = placed e claimed m s inside := by
  constructor
  · intro hplace
    refine ⟨?_, place_ok h hlo hab hhi hclaims hfresh hplace⟩
    cases hc : crossing? claimed e.span m with
    | none => rfl
    | some n =>
      rw [place_strict_of_crossing hc] at hplace
      cases hplace
  · rintro ⟨hnone, inside, hfill, rfl⟩
    rw [place_eq h hlo hab hhi hclaims hfresh fun _ => hnone, hfill]
    rfl

/-- An opening takes no number exactly if nothing crosses. -/
theorem crossing_eq_none_iff (h : Nests lo hi m) (hlo : lo ≤ e.span.start)
    (hab : e.span.start ≤ e.span.stop) (hhi : e.span.stop ≤ hi) (hclaims : Claims claimed e.span m)
    (hfresh : ∀ c ∈ claimed, c < s.next) :
    crossing? claimed e.span m = none ↔ (opened claimed e.span m s).2.next = s.next := by
  constructor
  · intro hnone
    rw [opened_supply h hlo hab hhi hclaims hfresh hnone]
  · intro hnext
    cases hc : crossing? claimed e.span m with
    | none => rfl
    | some n =>
      have hlt := opened_lt h hlo hab hhi hclaims hfresh hc
      rw [hnext] at hlt
      exact absurd hlt (Nat.lt_irrefl _)

/-! ## Merges -/

/-- The claims of a merge: none. -/
theorem fresh_nil (s : Supply) : ∀ c ∈ ([] : List NodeId), c < s.next :=
  fun _ hc => absurd hc (List.not_mem_nil)

/-- A merge takes at least one number for every element. -/
theorem mergeRow_next {balancing : Balancing} {fs : Forest Element} (hm : Nests lo hi m)
    (hfs : misfit? ⟨lo, hi⟩ fs = none) (h : mergeRow balancing fs m s = .ok g) :
    s.next + fs.size ≤ g.supply.next := by
  induction fs generalizing lo hi m s g with
  | nil =>
    cases h
    exact Nat.le_refl _
  | node f kids rest ihk ihr =>
    obtain ⟨⟨hord, hlo, hhi⟩, hkids, hrest⟩ := misfit?_eq_none hfs
    obtain ⟨p, hp, hg⟩ := mergeRow_node h
    obtain ⟨inside, hin, rfl⟩ := place_ok hm hlo hord hhi claims_nil (fresh_nil s) hp
    obtain ⟨lo', hi', hlo', hhi', hrow, -⟩ := hm.focus [] hlo hord hhi
    have hnest := (hrow.opening hlo' hord hhi' [] s).2.1
    have hplaced := grows_placed hm hlo hord hhi (grows_mergeRow hnest hkids hin)
    have hopened : s.next ≤ (opened [] f.span m s).2.next := next_le_opened
    have hk := ihk hnest hkids hin
    have hr : (placed f [] m s inside).supply.next + rest.size ≤ g.supply.next :=
      ihr hplaced.nests hrest hg
    have htake : (opened [] f.span m s).2.take.next = (opened [] f.span m s).2.next + 1 := rfl
    have hsupply : (placed f [] m s inside).supply = inside.supply := rfl
    rw [hsupply] at hr
    rw [Forest.size]
    simp only [NodeId] at *
    omega

/-- Where cutting is allowed a merge of trees that fit succeeds. -/
theorem mergeRow_inner {fs : Forest Element} (hm : Nests lo hi m)
    (hfs : misfit? ⟨lo, hi⟩ fs = none) : ∃ g, mergeRow .inner fs m s = .ok g := by
  induction fs generalizing lo hi m s with
  | nil => exact ⟨_, rfl⟩
  | node f kids rest ihk ihr =>
    obtain ⟨⟨hord, hlo, hhi⟩, hkids, hrest⟩ := misfit?_eq_none hfs
    obtain ⟨lo', hi', hlo', hhi', hrow, -⟩ := hm.focus [] hlo hord hhi
    have hnest := (hrow.opening hlo' hord hhi' [] s).2.1
    obtain ⟨inside, hin⟩ := ihk (s := (opened [] f.span m s).2.take) hnest hkids
    have hplaced := grows_placed hm hlo hord hhi (grows_mergeRow hnest hkids hin)
    have hp := (place_inner_iff hm hlo hord hhi claims_nil (fresh_nil s)).mpr ⟨inside, hin, rfl⟩
    obtain ⟨g, hg⟩ := ihr (s := (placed f [] m s inside).supply) hplaced.nests hrest
    refine ⟨g, ?_⟩
    rw [mergeRow, hp]
    exact hg

/-- Where it is not, a merge must take no number for a cut. -/
theorem mergeRow_strict_iff {fs : Forest Element} (hm : Nests lo hi m)
    (hfs : misfit? ⟨lo, hi⟩ fs = none) :
    mergeRow .strict fs m s = .ok g ↔
      mergeRow .inner fs m s = .ok g ∧ g.supply.next = s.next + fs.size := by
  induction fs generalizing lo hi m s g with
  | nil =>
    constructor
    · intro h
      cases h
      exact ⟨rfl, rfl⟩
    · exact fun h => h.1
  | node f kids rest ihk ihr =>
    obtain ⟨⟨hord, hlo, hhi⟩, hkids, hrest⟩ := misfit?_eq_none hfs
    obtain ⟨lo', hi', hlo', hhi', hrow, -⟩ := hm.focus [] hlo hord hhi
    have hnest := (hrow.opening hlo' hord hhi' [] s).2.1
    have hcross := crossing_eq_none_iff (s := s) hm hlo hord hhi claims_nil (fresh_nil s)
    have hopened : s.next ≤ (opened [] f.span m s).2.next := next_le_opened
    have htake : (opened [] f.span m s).2.take.next = (opened [] f.span m s).2.next + 1 := rfl
    rw [Forest.size]
    constructor
    · intro h
      obtain ⟨p, hp, hg⟩ := mergeRow_node h
      obtain ⟨hnone, inside, hin, rfl⟩ :=
        (place_strict_iff hm hlo hord hhi claims_nil (fresh_nil s)).mp hp
      have hplaced := grows_placed hm hlo hord hhi (grows_mergeRow hnest hkids hin)
      obtain ⟨hin, hk⟩ := (ihk hnest hkids).mp hin
      obtain ⟨hg, hr⟩ := (ihr hplaced.nests hrest).mp hg
      have hp' := (place_inner_iff hm hlo hord hhi claims_nil (fresh_nil s)).mpr ⟨inside, hin, rfl⟩
      have hsupply : (placed f [] m s inside).supply = inside.supply := rfl
      rw [hsupply] at hr
      constructor
      · rw [mergeRow, hp']
        exact hg
      · rw [hcross] at hnone
        simp only [NodeId] at *
        omega
    · rintro ⟨h, hnext⟩
      obtain ⟨p, hp, hg⟩ := mergeRow_node h
      obtain ⟨inside, hin, rfl⟩ :=
        (place_inner_iff hm hlo hord hhi claims_nil (fresh_nil s)).mp hp
      have hplaced := grows_placed hm hlo hord hhi (grows_mergeRow hnest hkids hin)
      have hk := mergeRow_next hnest hkids hin
      have hr := mergeRow_next hplaced.nests hrest hg
      have hsupply : (placed f [] m s inside).supply = inside.supply := rfl
      rw [hsupply] at hr
      -- no step takes less than its share, so none takes more
      have hexact : (opened [] f.span m s).2.next = s.next ∧
          inside.supply.next = (opened [] f.span m s).2.take.next + kids.size ∧
          g.supply.next = inside.supply.next + rest.size := by
        simp only [NodeId] at *
        omega
      have hin' := (ihk hnest hkids).mpr ⟨hin, hexact.2.1⟩
      have hg' := (ihr hplaced.nests hrest).mpr ⟨hg, hexact.2.2⟩
      have hp' := (place_strict_iff hm hlo hord hhi claims_nil (fresh_nil s)).mpr
        ⟨hcross.mpr hexact.1, inside, hin', rfl⟩
      rw [mergeRow, hp']
      exact hg'

end Markup

namespace Document

open Markup

namespace WellFormed

variable {doc : Document} {e : Element} {claimed : List NodeId} {balancing : Balancing}
  {a : Addition} {t : Tree Element} (h : doc.WellFormed)

include h

/-! ## Additions to a document -/

/-- An insertion takes at least one number. -/
theorem insert_next (hc : doc.ClaimsWithin claimed e.span)
    (ha : doc.insert e claimed balancing = .ok a) : doc.next + 1 ≤ a.document.next := by
  obtain ⟨-, rfl⟩ := h.insert_eq hc ha
  exact Nat.succ_le_succ (next_le_opened (s := ⟨doc.next, []⟩))

/-- Where cutting is allowed an element that fits can be inserted. -/
theorem insert_inner (hc : doc.ClaimsWithin claimed e.span)
    (hord : e.span.start ≤ e.span.stop) (hstop : e.span.stop ≤ doc.text.length) :
    ∃ a, doc.insert e claimed .inner = .ok a := by
  have hins := h.insertable hord hstop hc
  have hp : doc.markup.place e claimed .inner (fun inside s => .ok ⟨inside, s⟩)
      ⟨doc.next, []⟩ = .ok _ :=
    (place_inner_iff h.nests (Nat.zero_le _) hord hstop hins.claims hins.claimed_lt).mpr
      ⟨_, rfl, rfl⟩
  have hfit := misfit?_span_eq_none.mpr ⟨hord, hstop⟩
  exact ⟨doc.grown [e] _, by rw [Document.insert, hfit, hp]⟩

/-- Where it is not, the insertion must take no other number. -/
theorem insert_strict_iff (hc : doc.ClaimsWithin claimed e.span) :
    doc.insert e claimed .strict = .ok a ↔
      doc.insert e claimed .inner = .ok a ∧ a.document.next = doc.next + 1 := by
  constructor
  · intro ha
    obtain ⟨⟨hord, hstop⟩, p, hp, rfl⟩ := insert_ok ha
    have hins := h.insertable hord hstop hc
    obtain ⟨hnone, inside, hin, rfl⟩ := (place_strict_iff h.nests (Nat.zero_le _) hord hstop
      hins.claims hins.claimed_lt).mp hp
    cases hin
    have hp' : doc.markup.place e claimed .inner (fun inside s => .ok ⟨inside, s⟩)
        ⟨doc.next, []⟩ = .ok _ :=
      (place_inner_iff h.nests (Nat.zero_le _) hord hstop hins.claims hins.claimed_lt).mpr
        ⟨_, rfl, rfl⟩
    constructor
    · rw [Document.insert, misfit?_span_eq_none.mpr ⟨hord, hstop⟩, hp']
    · exact congrArg (· + 1) ((crossing_eq_none_iff h.nests (Nat.zero_le _) hord hstop hins.claims
        hins.claimed_lt).mp hnone)
  · rintro ⟨ha, hnext⟩
    obtain ⟨⟨hord, hstop⟩, p, hp, rfl⟩ := insert_ok ha
    have hins := h.insertable hord hstop hc
    obtain ⟨inside, hin, rfl⟩ := (place_inner_iff h.nests (Nat.zero_le _) hord hstop hins.claims
      hins.claimed_lt).mp hp
    cases hin
    have hnone := (crossing_eq_none_iff h.nests (Nat.zero_le _) hord hstop hins.claims
      hins.claimed_lt).mpr (Nat.succ.inj hnext)
    have hp' : doc.markup.place e claimed .strict (fun inside s => .ok ⟨inside, s⟩)
        ⟨doc.next, []⟩ = .ok _ :=
      (place_strict_iff h.nests (Nat.zero_le _) hord hstop hins.claims hins.claimed_lt).mpr
        ⟨hnone, _, rfl, rfl⟩
    rw [Document.insert, misfit?_span_eq_none.mpr ⟨hord, hstop⟩, hp']

/-- A merge takes at least one number for every element. -/
theorem merge_next (ha : doc.merge t balancing = .ok a) :
    doc.next + (1 + t.children.size) ≤ a.document.next := by
  obtain ⟨⟨hord, hstop⟩, hkids, p, hp, rfl⟩ := merge_ok ha
  obtain ⟨inside, hin, rfl⟩ := place_ok h.nests (Nat.zero_le _) hord hstop claims_nil
    (fresh_nil _) hp
  obtain ⟨lo', hi', hlo', hhi', hrow, -⟩ := h.nests.focus [] (Nat.zero_le _) hord hstop
  have hnest := (hrow.opening hlo' hord hhi' [] ⟨doc.next, []⟩).2.1
  have hk := mergeRow_next hnest hkids hin
  have hopened : doc.next ≤ (opened [] t.label.span doc.markup ⟨doc.next, []⟩).2.next :=
    next_le_opened (s := ⟨doc.next, []⟩)
  have htake : (opened [] t.label.span doc.markup ⟨doc.next, []⟩).2.take.next =
    (opened [] t.label.span doc.markup ⟨doc.next, []⟩).2.next + 1 := rfl
  show doc.next + (1 + t.children.size) ≤ inside.supply.next
  simp only [NodeId] at *
  omega

/-- Where cutting is allowed a tree that fits can be merged. -/
theorem merge_inner (hord : t.label.span.start ≤ t.label.span.stop)
    (hstop : t.label.span.stop ≤ doc.text.length)
    (hkids : Markup.misfit? t.label.span t.children = none) :
    ∃ a, doc.merge t .inner = .ok a := by
  obtain ⟨lo', hi', hlo', hhi', hrow, -⟩ := h.nests.focus [] (Nat.zero_le _) hord hstop
  have hnest := (hrow.opening hlo' hord hhi' [] ⟨doc.next, []⟩).2.1
  obtain ⟨inside, hin⟩ :=
    mergeRow_inner (s := (opened [] t.label.span doc.markup ⟨doc.next, []⟩).2.take) hnest hkids
  have hp := (place_inner_iff h.nests (Nat.zero_le _) hord hstop claims_nil (fresh_nil _)).mpr
    ⟨inside, hin, rfl⟩
  have hfit := misfit?_span_eq_none.mpr ⟨hord, hstop⟩
  exact ⟨doc.grown (Forest.ofTree t).preorder _,
    by rw [Document.merge, hfit, hkids, Markup.mergeTree, hp]⟩

/-- Where it is not, the merge must take no number for a cut. -/
theorem merge_strict_iff : doc.merge t .strict = .ok a ↔
    doc.merge t .inner = .ok a ∧ a.document.next = doc.next + (1 + t.children.size) := by
  have hopened : doc.next ≤ (opened [] t.label.span doc.markup ⟨doc.next, []⟩).2.next :=
    next_le_opened (s := ⟨doc.next, []⟩)
  have htake : (opened [] t.label.span doc.markup ⟨doc.next, []⟩).2.take.next =
    (opened [] t.label.span doc.markup ⟨doc.next, []⟩).2.next + 1 := rfl
  constructor
  · intro ha
    obtain ⟨⟨hord, hstop⟩, hkids, p, hp, rfl⟩ := merge_ok ha
    obtain ⟨lo', hi', hlo', hhi', hrow, -⟩ := h.nests.focus [] (Nat.zero_le _) hord hstop
    have hnest := (hrow.opening hlo' hord hhi' [] ⟨doc.next, []⟩).2.1
    obtain ⟨hnone, inside, hin, rfl⟩ := (place_strict_iff h.nests (Nat.zero_le _) hord hstop
      claims_nil (fresh_nil _)).mp hp
    obtain ⟨hin, hk⟩ := (mergeRow_strict_iff hnest hkids).mp hin
    have hp' := (place_inner_iff h.nests (Nat.zero_le _) hord hstop claims_nil (fresh_nil _)).mpr
      ⟨inside, hin, rfl⟩
    have hnext := (crossing_eq_none_iff (s := ⟨doc.next, []⟩) h.nests (Nat.zero_le _) hord hstop
      claims_nil (fresh_nil _)).mp hnone
    constructor
    · rw [Document.merge, misfit?_span_eq_none.mpr ⟨hord, hstop⟩, hkids, Markup.mergeTree, hp']
    · show inside.supply.next = _
      simp only [NodeId] at *
      omega
  · rintro ⟨ha, hnext⟩
    obtain ⟨⟨hord, hstop⟩, hkids, p, hp, rfl⟩ := merge_ok ha
    obtain ⟨lo', hi', hlo', hhi', hrow, -⟩ := h.nests.focus [] (Nat.zero_le _) hord hstop
    have hnest := (hrow.opening hlo' hord hhi' [] ⟨doc.next, []⟩).2.1
    obtain ⟨inside, hin, rfl⟩ := (place_inner_iff h.nests (Nat.zero_le _) hord hstop
      claims_nil (fresh_nil _)).mp hp
    have hk := mergeRow_next hnest hkids hin
    have hnext : inside.supply.next = doc.next + (1 + t.children.size) := hnext
    have hexact : (opened [] t.label.span doc.markup ⟨doc.next, []⟩).2.next = doc.next ∧
        inside.supply.next = (opened [] t.label.span doc.markup ⟨doc.next, []⟩).2.take.next +
          t.children.size := by
      simp only [NodeId] at *
      omega
    have hin' := (mergeRow_strict_iff hnest hkids).mpr ⟨hin, hexact.2⟩
    have hnone := (crossing_eq_none_iff (s := ⟨doc.next, []⟩) h.nests (Nat.zero_le _) hord hstop
      claims_nil (fresh_nil _)).mpr hexact.1
    have hp' := (place_strict_iff h.nests (Nat.zero_le _) hord hstop claims_nil (fresh_nil _)).mpr
      ⟨hnone, inside, hin', rfl⟩
    rw [Document.merge, misfit?_span_eq_none.mpr ⟨hord, hstop⟩, hkids, Markup.mergeTree, hp']

end WellFormed

end Document

end Standoff
