import Standoff.Proofs.Crossings
import Standoff.Proofs.Kinship

/-! # Elements in any order

Elements over different spans that do not cross give one tree, in whatever order they come.  A late
element around others adopts them, and no marker comes to stand at a boundary of an element around
it.  Then the spans alone tell where each element stands: by start, markers first, and the longer
element before the shorter.

* `Span.leads`: that order of spans.
* `Markup.Tidy`: no marker stands at a boundary of an element around it.
* `Markup.elements_ext`: tidy mark-up is told by its elements in document order.
* `Document.Holds`: what is there after some additions, whatever their order.
* `Document.addSpans_confluent`: the tree does not depend on the order. -/

namespace Standoff

namespace Span

variable {s t : Span}

/-- The spans may stand in one tree, in one place each. -/
def Apart (s t : Span) : Prop := s ≠ t ∧ s.crosses t = false

instance (s t : Span) : Decidable (s.Apart t) := inferInstanceAs (Decidable (_ ∧ _))

theorem Apart.symm (h : s.Apart t) : t.Apart s := by
  refine ⟨h.1.symm, ?_⟩
  rw [crosses_comm]
  exact h.2

/-- The order of elements in a tidy tree: by start, markers first, longer ones before shorter. -/
def leads (s t : Span) : Prop :=
  s.start < t.start ∨
    (s.start = t.start ∧ (s.stop ≤ s.start ∨ (t.start < t.stop ∧ t.stop ≤ s.stop)))

theorem leads_antisymm (hs : s.start ≤ s.stop) (ht : t.start ≤ t.stop) (hst : s.leads t)
    (hts : t.leads s) : s = t := by
  unfold leads at hst hts
  obtain ⟨a, b⟩ := s
  obtain ⟨c, d⟩ := t
  simp only [Span.mk.injEq] at *
  omega

end Span

namespace Markup

variable {lo hi : Nat} {m f g kids rest : Markup} {n x : Node} {s : Supply} {e : Element}

/-! ## Tidy mark-up -/

/-- No marker stands at a boundary of an element around it. -/
def Tidy (m : Markup) : Prop := Interior (fun _ => true) m

theorem tidy_node : Tidy (.node n kids rest) ↔
    (∀ x ∈ kids.preorder, x.span.stop ≤ x.span.start →
      n.span.start < x.span.start ∧ x.span.start < n.span.stop) ∧ Tidy kids ∧ Tidy rest := by
  simp only [Tidy, Interior, forall_const]

/-- In tidy mark-up every element comes after those that its span lets come first. -/
theorem Tidy.pairwise (h : Tidy m) (hm : Nests lo hi m) :
    m.preorder.Pairwise fun x y => x.span.leads y.span := by
  induction m generalizing lo hi with
  | nil => exact .nil
  | node n kids rest ihk ihr =>
    obtain ⟨hn, hkids, hrest⟩ := tidy_node.mp h
    obtain ⟨-, hnkids, hnrest⟩ := hm
    have hord := hnkids.le
    rw [Forest.preorder_node, List.pairwise_cons, List.pairwise_append]
    refine ⟨?_, ihk hkids hnkids, ihr hrest hnrest, ?_⟩
    · intro y hy
      unfold Span.leads
      rcases List.mem_append.mp hy with hy | hy
      · have hbounds := hnkids.bounds hy
        by_cases hmarker : y.span.stop ≤ y.span.start
        · exact .inl (hn y hy hmarker).1
        · omega
      · have hbounds := hnrest.bounds hy
        omega
    · intro x hx y hy
      have hx := hnkids.bounds hx
      have hy := hnrest.bounds hy
      unfold Span.leads
      omega

/-- The elements in document order. -/
def elementList (m : Markup) : List Element := m.preorder.map (·.toElement)

theorem elementList_node : elementList (.node n kids rest) =
    n.toElement :: (kids.elementList ++ rest.elementList) := by
  simp [elementList]

/-- What starts before the end of the first element stands below it, the rest behind. -/
theorem Tidy.split (h : Tidy (.node n kids rest)) (hm : Nests lo hi (.node n kids rest)) :
    (kids.elementList ++ rest.elementList).filter (fun e => decide (e.span.start < n.span.stop)) =
        kids.elementList ∧
      (kids.elementList ++ rest.elementList).filter
        (fun e => !decide (e.span.start < n.span.stop)) = rest.elementList := by
  obtain ⟨hn, -, -⟩ := tidy_node.mp h
  obtain ⟨-, hkids, hrest⟩ := hm
  have hin : ∀ e ∈ kids.elementList, e.span.start < n.span.stop := by
    intro e he
    obtain ⟨x, hx, rfl⟩ := List.mem_map.mp he
    have hbounds := hkids.bounds hx
    by_cases hmarker : x.span.stop ≤ x.span.start
    · exact (hn x hx hmarker).2
    · omega
  have hout : ∀ e ∈ rest.elementList, ¬e.span.start < n.span.stop := by
    intro e he
    obtain ⟨x, hx, rfl⟩ := List.mem_map.mp he
    exact Nat.not_lt.mpr (hrest.bounds hx).1
  rw [List.filter_append, List.filter_append]
  constructor
  · rw [List.filter_eq_self.mpr (by simpa using hin),
      List.filter_eq_nil_iff.mpr (by simpa using hout), List.append_nil]
  · rw [List.filter_eq_nil_iff.mpr (by simpa using hin),
      List.filter_eq_self.mpr (by simpa using hout), List.nil_append]

/-- Tidy mark-up is told by its elements in document order. -/
theorem elements_ext (hf : Tidy f) (hg : Tidy g) (hnf : Nests lo hi f) {lo' hi' : Nat}
    (hng : Nests lo' hi' g) (h : f.elementList = g.elementList) : f.elements = g.elements := by
  induction f generalizing g lo hi lo' hi' with
  | nil =>
    cases g with
    | nil => rfl
    | node n kids rest => cases h
  | node n kids rest ihk ihr =>
    cases g with
    | nil => cases h
    | node n' kids' rest' =>
      rw [elementList_node, elementList_node, List.cons.injEq] at h
      obtain ⟨hn, hlist⟩ := h
      have hspan : n.span = n'.span := congrArg Element.span hn
      obtain ⟨hkids, hrest⟩ := hf.split hnf
      obtain ⟨hkids', hrest'⟩ := hg.split hng
      rw [hlist, hspan] at hkids hrest
      have ihk := ihk (tidy_node.mp hf).2.1 (tidy_node.mp hg).2.1 hnf.2.1 hng.2.1
        (hkids.symm.trans hkids')
      have ihr := ihr (tidy_node.mp hf).2.2 (tidy_node.mp hg).2.2 hnf.2.2 hng.2.2
        (hrest.symm.trans hrest')
      rw [elements, Forest.map, elements, Forest.map, hn]
      congr 1

/-- An insertion that claims nothing keeps mark-up tidy. -/
theorem Insertable.tidy (h : Insertable lo hi [] e m s) (ht : Tidy m)
    (hnew : ∀ x ∈ (joined e [] m s).ids, x < s.next ∨ x = (opened [] e.span m s).2.next) :
    Tidy (joined e [] m s) := by
  let q : NodeId → Bool := fun x => decide (x < s.next)
  let q' : NodeId → Bool := fun x => q x || decide (x = (opened [] e.span m s).2.next)
  have hin : Interior q m := ht.mono fun _ _ _ => rfl
  have hall : Interior q' (joined e [] m s) := by
    refine h.interior_joined hin ?_ ?_
    · intro x hx
      exact ⟨of_decide_eq_true hx, List.not_mem_nil⟩
    · intro x hx
      simpa [q'] using hx
  refine hall.mono ?_
  intro x hx _
  simpa [q', q] using hnew x hx

end Markup

namespace Document

open Markup

/-- Adds elements one after another. -/
def addSpans (doc : Document) : List (String × Span) → Except MergeConflict Document
  | [] => .ok doc
  | r :: rows =>
    match doc.addSpan r.1 r.2 with
    | .error conflict => .error conflict
    | .ok a => a.document.addSpans rows

/-- The element of a row. -/
def ofRow (r : String × Span) : Element := ⟨r.1, r.2, {}⟩

/-- What is there after some additions to a text, whatever their order. -/
structure Holds (text : String) (rows : List (String × Span)) (doc : Document) : Prop where
  wellFormed : doc.WellFormed
  text : doc.text = text
  tidy : doc.markup.Tidy
  rows : doc.markup.elementList.Perm (rows.map ofRow)

variable {text : String} {rows rows' : List (String × Span)} {doc doc' : Document} {a : Addition}
  {r : String × Span}

theorem holds_ofText (text : String) : Holds text [] (ofText text) :=
  ⟨wellFormed_ofText text, rfl, trivial, .nil⟩

/-- Every element is that of a row. -/
theorem Holds.exists_row (h : Holds text rows doc) {n : Node} (hn : n ∈ doc.markup.preorder) :
    ∃ p ∈ rows, ofRow p = n.toElement :=
  List.mem_map.mp (h.rows.mem_iff.mp (List.mem_map_of_mem hn))

/-- An addition is accepted if it lies apart from those before, and keeps what they left. -/
theorem Holds.add (h : Holds text rows doc) (hin : r.2.start ≤ r.2.stop ∧ r.2.stop ≤ text.length)
    (hapart : ∀ p ∈ rows, p.2.Apart r.2) :
    ∃ a, doc.addSpan r.1 r.2 = .ok a ∧ Holds text (rows ++ [r]) a.document := by
  have hnone : crossing r.2 doc.markup = [] := by
    refine List.filter_eq_nil_iff.mpr ?_
    intro n hn
    obtain ⟨p, hp, hpn⟩ := h.exists_row hn
    have hspan : p.2 = n.span := congrArg Element.span hpn
    rw [← hspan, (hapart p hp).2]
    exact Bool.false_ne_true
  rw [← h.text] at hin
  obtain ⟨a, ha⟩ := h.wellFormed.insert_strict_ok (e := ofRow r) hin.1 hin.2 hnone
  have hwf := h.wellFormed.addSpan ha
  obtain ⟨-, hid, hnext, -, hperm⟩ := h.wellFormed.insert_strict_added ha
  obtain ⟨hins, hmarkup, hopened⟩ := h.wellFormed.insert_joined
    (fun _ hc => absurd hc List.not_mem_nil) ha
  refine ⟨a, ha, hwf, (insert_text ha).trans h.text, ?_, ?_⟩
  · rw [hmarkup]
    refine hins.tidy h.tidy ?_
    intro x hx
    rw [← hmarkup] at hx
    have hlt := (hwf.mem_ids_iff.mp hx).2
    rw [← hopened, hid]
    simp only [NodeId] at *
    omega
  · have helements := hperm.map (·.toElement)
    rw [List.map_cons] at helements
    rw [List.map_append]
    exact helements.trans ((h.rows.cons _).trans (List.perm_append_singleton _ _).symm)

/-- Rows that fit and lie apart are all added. -/
theorem Holds.addSpans {done : List (String × Span)} (h : Holds text done doc)
    (hin : ∀ r ∈ rows, r.2.start ≤ r.2.stop ∧ r.2.stop ≤ text.length)
    (hapart : (done ++ rows).Pairwise fun r r' => r.2.Apart r'.2) :
    ∃ doc', doc.addSpans rows = .ok doc' ∧ Holds text (done ++ rows) doc' := by
  induction rows generalizing doc done with
  | nil =>
    rw [List.append_nil]
    exact ⟨doc, rfl, h⟩
  | cons r rows ih =>
    obtain ⟨hr, hrows⟩ := List.forall_mem_cons.mp hin
    have hbefore := (List.pairwise_append.mp hapart).2.2
    obtain ⟨a, ha, hadded⟩ := h.add hr fun p hp => hbefore p hp r (List.mem_cons_self ..)
    rw [List.append_cons] at hapart ⊢
    obtain ⟨doc', hdoc', hholds⟩ := ih hadded hrows hapart
    exact ⟨doc', by rw [Document.addSpans, ha]; exact hdoc', hholds⟩

/-- The rows tell the tree. -/
theorem Holds.elements_eq (h : Holds text rows doc) (h' : Holds text rows' doc')
    (hapart : rows.Pairwise fun r r' => r.2.Apart r'.2) (hperm : rows.Perm rows') :
    doc.markup.elements = doc'.markup.elements := by
  have hnodup : (rows.map Prod.snd).Nodup :=
    List.pairwise_map.mpr (hapart.imp fun hrr => hrr.1)
  have hlists : doc.markup.elementList.Perm doc'.markup.elementList :=
    h.rows.trans ((hperm.map ofRow).trans h'.rows.symm)
  have horder {d : Document} {rs : List (String × Span)} (hd : Holds text rs d) :
      d.markup.elementList.Pairwise fun x y => x.span.leads y.span :=
    List.pairwise_map.mpr (hd.tidy.pairwise hd.wellFormed.nests)
  have hordered {d : Document} {rs : List (String × Span)} (hd : Holds text rs d) :
      ∀ x ∈ d.markup.elementList, x.span.start ≤ x.span.stop := by
    intro x hx
    obtain ⟨n, hn, rfl⟩ := List.mem_map.mp hx
    exact (hd.wellFormed.nests.bounds hn).2.1
  refine elements_ext h.tidy h'.tidy h.wellFormed.nests h'.wellFormed.nests ?_
  refine List.Perm.eq_of_pairwise ?_ (horder h) (horder h') hlists
  intro x y hx hy hxy hyx
  have hspan := Span.leads_antisymm (hordered h x hx) (hordered h' y hy) hxy hyx
  obtain ⟨p, hp, rfl⟩ := List.mem_map.mp (h.rows.mem_iff.mp hx)
  obtain ⟨p', hp', rfl⟩ := List.mem_map.mp (h.rows.mem_iff.mp (hlists.mem_iff.mpr hy))
  rw [List.inj_on_of_nodup_map hnodup hp hp' hspan]

/-- Elements that fit into a text and lie apart are added in any order, and give one tree. -/
theorem addSpans_confluent (text : String)
    (hin : ∀ r ∈ rows, r.2.start ≤ r.2.stop ∧ r.2.stop ≤ text.length)
    (hapart : rows.Pairwise fun r r' => r.2.Apart r'.2) (hperm : rows.Perm rows') :
    ∃ doc doc', (ofText text).addSpans rows = .ok doc ∧ (ofText text).addSpans rows' = .ok doc' ∧
      doc.markup.elements = doc'.markup.elements ∧
      (doc.markup.preorder.map fun n => (n.name, n.span)).Perm rows := by
  have hapart' := (hperm.pairwise_iff fun hrr => hrr.symm).mp hapart
  obtain ⟨doc, hdoc, hholds⟩ := (holds_ofText text).addSpans hin hapart
  have hin' : ∀ r ∈ rows', r.2.start ≤ r.2.stop ∧ r.2.stop ≤ text.length := by
    intro r hr
    exact hin r (hperm.mem_iff.mpr hr)
  obtain ⟨doc', hdoc', hholds'⟩ := (holds_ofText text).addSpans hin' hapart'
  refine ⟨doc, doc', hdoc, hdoc', hholds.elements_eq hholds' hapart hperm, ?_⟩
  have hrows := hholds.rows.map fun e => (e.name, e.span)
  rw [elementList, List.map_map, List.nil_append, List.map_map] at hrows
  rwa [show (fun e : Element => (e.name, e.span)) ∘ ofRow = id from rfl, List.map_id] at hrows

/-- Elements one inside the other, markers where they meet and at their ends, from the outside in
and in an order in which later elements adopt earlier ones. -/
theorem addSpans_confluent_late :
    let rows := [("a", Span.mk 0 6), ("b", ⟨0, 4⟩), ("c", ⟨0, 2⟩), ("d", ⟨2, 4⟩), ("m", ⟨2, 2⟩),
      ("n", ⟨4, 4⟩), ("o", ⟨0, 0⟩)]
    let rows' := [("n", Span.mk 4 4), ("d", ⟨2, 4⟩), ("o", ⟨0, 0⟩), ("c", ⟨0, 2⟩), ("m", ⟨2, 2⟩),
      ("b", ⟨0, 4⟩), ("a", ⟨0, 6⟩)]
    ∃ doc doc', (ofText "abcdef").addSpans rows = .ok doc ∧
      (ofText "abcdef").addSpans rows' = .ok doc' ∧
      doc.markup.elements = doc'.markup.elements ∧ doc.markup ≠ doc'.markup := by
  intro rows rows'
  have hin : ∀ r ∈ rows, r.2.start ≤ r.2.stop ∧ r.2.stop ≤ "abcdef".length := by decide +kernel
  have hapart : rows.Pairwise fun r r' => r.2.Apart r'.2 := by decide +kernel
  have hperm : rows.Perm rows' := by decide +kernel
  obtain ⟨doc, doc', hdoc, hdoc', helements, -⟩ := addSpans_confluent "abcdef" hin hapart hperm
  have hids : ((ofText "abcdef").addSpans rows).map (·.markup.ids) ≠
      ((ofText "abcdef").addSpans rows').map (·.markup.ids) := by
    decide +kernel
  refine ⟨doc, doc', hdoc, hdoc', helements, ?_⟩
  intro heq
  rw [hdoc, hdoc'] at hids
  exact hids (congrArg (fun m : Markup => Except.ok m.ids) heq)

end Document

end Standoff
