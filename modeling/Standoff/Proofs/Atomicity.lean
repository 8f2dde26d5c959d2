import Standoff.Proofs.InPlace

/-! # Additions are all or nothing

A merge in place puts one node after another into a document that changes under it.  It stays on
the path of `Markup.mergeRow`, because the row below a node that has just been placed is a row that
the rest of its tree fits into:

    w.setBelow P (row with e over kids) = (w.placing P e).setBelow e kids

So a merge that may cut fails before it places the first node or not at all, and one that may not
cut has the copy to go back to.

* `Edit.Hosts`: a row that can stand below a node.
* `InPlace.Mirrors`: a change in place does what a function does to the row below a node.
* `Document.WellFormed.merge_inPlace`: a merge in place gives what the function does.
* `Document.WellFormed.all_or_nothing`: an addition that fails leaves the document as it was. -/

namespace Standoff

/-! ## Rows that can stand below a node -/

namespace Edit

open Document Markup InPlace

/-- The row `m` can stand below node `P`, which lies over `span`, with the supply `s`. -/
structure Hosts (w : Edit) (P : NodeId) (span : Span) (m : Markup) (s : Supply) : Prop where
  span? : w.document.span? P = some span
  stop_le : span.stop ≤ w.document.text.length
  pos : rootId < s.next
  older : Below w.document.markup s
  nests : Nests span.start span.stop m
  nodup : m.ids.Nodup
  below : Below m s

/-- The edit with `e` placed in the row `m` below `P`, and nothing below `e` yet. -/
def placing (w : Edit) (P : NodeId) (e : Element) (m : Markup) (s : Supply) : Edit :=
  w.setBelow P ⟨(site [] e.span m).plug (newRow e [] m s .nil), (opened [] e.span m s).2.take⟩

variable {w : Edit} {P : NodeId} {e : Element} {span : Span} {m m' kids : Markup} {s s' t : Supply}
  {balancing : Balancing} {names names' : List String} {g : Growth}

theorem intern_intern : (w.intern names).intern names' = w.intern (names ++ names') := by
  simp only [intern, NamePool.internAll, List.foldl_append]

theorem intern_placing :
    (w.placing P e m s).intern names = (w.intern names).placing P e m s := rfl

namespace Hosts

theorem intern (h : w.Hosts P span m s) (names : List String) :
    (w.intern names).Hosts P span m s :=
  ⟨h.span?, h.stop_le, h.pos, h.older, h.nests, h.nodup, h.below⟩

/-- A row that has grown can still stand where it stood. -/
theorem grow (h : w.Hosts P span m s) (hg : Grows span.start span.stop m s m' s') :
    w.Hosts P span m' s' where
  span? := h.span?
  stop_le := h.stop_le
  pos := Nat.lt_of_lt_of_le h.pos hg.le.next
  older x hx := Nat.lt_of_lt_of_le (h.older x hx) hg.le.next
  nests := hg.nests
  nodup := by
    rw [List.nodup_iff_count_le_one]
    intro x
    rw [hg.count x, Supply.taken]
    have hle := List.nodup_iff_count_le_one.mp h.nodup x
    split
    · next hx =>
      have hzero : m.ids.count x = 0 :=
        List.count_eq_zero.mpr fun hmem => absurd (h.below x hmem) (Nat.not_lt.mpr hx.1)
      omega
    · exact hle
  below := h.below.of_count hg.le fun x => Nat.le_of_eq (hg.count x)

variable (h : w.Hosts P span m s)
include h

theorem node?_of_ne (hP : P ≠ rootId) :
    ∃ t, w.document.markup.node? P = some t ∧ t.label.span = span := by
  have hspan := h.span?
  rw [Document.span?, if_neg hP] at hspan
  exact Option.map_eq_some_iff.mp hspan

theorem node?_setBelow (hP : P ≠ rootId) (g : Growth) :
    ∃ n, (w.setBelow P g).document.markup.node? P = some ⟨n, g.markup⟩ ∧ n.span = span := by
  obtain ⟨t, ht, hspan⟩ := h.node?_of_ne hP
  refine ⟨t.label, ?_, hspan⟩
  simp only [setBelow, if_neg hP]
  exact node?_withBelow ht

theorem below_setBelow (g : Growth) : (w.setBelow P g).document.below P = g.markup := by
  by_cases hP : P = rootId
  · rw [Document.below, if_pos hP]
    simp only [setBelow, if_pos hP]
  · obtain ⟨n, hn, -⟩ := h.node?_setBelow hP g
    rw [Document.below, if_neg hP, hn]

theorem span?_setBelow (g : Growth) : (w.setBelow P g).document.span? P = some span := by
  by_cases hP : P = rootId
  · have hspan := h.span?
    rw [Document.span?, if_pos hP] at hspan ⊢
    exact hspan
  · obtain ⟨n, hn, hspan⟩ := h.node?_setBelow hP g
    rw [Document.span?, if_neg hP, hn]
    exact congrArg some hspan

/-- The number of an element that is placed is new. -/
theorem next_new (e : Element) : (opened [] e.span m s).2.next ≠ rootId ∧
    (opened [] e.span m s).2.next ∉ w.document.markup.ids := by
  have hle : s.next ≤ (opened [] e.span m s).2.next := next_le_opened
  exact ⟨Nat.ne_of_gt (Nat.lt_of_lt_of_le h.pos hle), fun hmem =>
    absurd (h.older _ hmem) (Nat.not_lt.mpr hle)⟩

variable (hlo : span.start ≤ e.span.start) (hord : e.span.start ≤ e.span.stop)
  (hhi : e.span.stop ≤ span.stop)
include hlo hord hhi

theorem obstacle?_eq_none (g : Growth) : (w.setBelow P g).obstacle? P e.span = none := by
  have htext : e.span.stop ≤ (w.setBelow P g).document.text.length := Nat.le_trans hhi h.stop_le
  rw [obstacle?, h.span?_setBelow]
  simp [Span.isOrdered, Span.contains, hord, hlo, hhi, htext]

theorem insertable : Insertable span.start span.stop [] e m s :=
  ⟨h.nests, hlo, hord, hhi, h.nodup, h.below, claims_nil⟩

/-- What stands below an element that has just been placed. -/
theorem setBelow_placing (kids : Markup) (t : Supply) :
    w.setBelow P (placed e [] m s ⟨kids, t⟩).toGrowth =
      (w.placing P e m s).setBelow (opened [] e.span m s).2.next ⟨kids, t⟩ := by
  have hins := h.insertable hlo hord hhi
  obtain ⟨hne, hold⟩ := h.next_new e
  have hplug : withBelow (opened [] e.span m s).2.next kids
      ((site [] e.span m).plug (newRow e [] m s .nil)) =
        (site [] e.span m).plug (newRow e [] m s kids) := by
    obtain ⟨hbefore, hafter⟩ := hins.next_not_mem_sides
    rw [withBelow_plug hins.next_not_mem, newRow, withBelow_append, withBelow_of_not_mem hbefore,
      withBelow_node, if_pos rfl, withBelow_of_not_mem hafter]
    rfl
  by_cases hP : P = rootId
  · simp only [placing, setBelow, if_pos hP, if_neg hne, hplug, placed_markup]
    rfl
  · simp only [placing, setBelow, if_neg hP, if_neg hne, withBelow_inside hold, hplug,
      placed_markup]
    rfl

/-- The element is found in its row. -/
theorem node?_placing :
    (w.placing P e m s).document.markup.node? (opened [] e.span m s).2.next =
      some ⟨⟨e, (opened [] e.span m s).2.next⟩, .nil⟩ := by
  have hins := h.insertable hlo hord hhi
  have hplug : node? ((site [] e.span m).plug (newRow e [] m s .nil))
      (opened [] e.span m s).2.next = some ⟨⟨e, (opened [] e.span m s).2.next⟩, .nil⟩ := by
    rw [node?_plug_new hins.next_not_mem, newRow, node?_append,
      node?_eq_none_iff.mpr hins.next_not_mem_sides.1, node?_node, if_pos rfl]
    rfl
  by_cases hP : P = rootId
  · simp only [Edit.placing, setBelow, if_pos hP]
    exact hplug
  · obtain ⟨t, ht, -⟩ := h.node?_of_ne hP
    have hmem : P ∈ w.document.markup.ids := by
      by_contra hmem
      rw [node?_eq_none_iff.mpr hmem] at ht
      cases ht
    simp only [Edit.placing, setBelow, if_neg hP]
    rw [node?_withBelow_new (h.next_new e).2 hmem, hplug]

/-- What lies inside an element can stand below it. -/
theorem placing : (w.placing P e m s).Hosts (opened [] e.span m s).2.next e.span
    (opened [] e.span m s).1.inside (opened [] e.span m s).2.take := by
  have hins := h.insertable hlo hord hhi
  have htake : s.Le (opened [] e.span m s).2.take :=
    (opening_le [] e.span _ s).trans (Supply.le_take _)
  have hplug : Below ((site [] e.span m).plug (newRow e [] m s .nil))
      (opened [] e.span m s).2.take := by
    refine h.below.of_count htake fun x => ?_
    have hcount := count_ids_placed e [] m s ⟨.nil, s⟩ x
    rw [placed_markup] at hcount
    simp only [ids_nil, List.count_nil] at hcount
    omega
  refine ⟨?_, Nat.le_trans hhi h.stop_le, Nat.succ_pos _, fun x hx => ?_, hins.nests_inside,
    hins.nodup_inside.1, below_inside fun x hx => h.below x (ids_of_site hx)⟩
  · rw [Document.span?, if_neg (h.next_new e).1, h.node?_placing hlo hord hhi]
    rfl
  · by_cases hP : P = rootId
    · simp only [Edit.placing, setBelow, if_pos hP] at hx
      exact hplug x hx
    · simp only [Edit.placing, setBelow, if_neg hP] at hx
      rcases mem_ids_withBelow hx with hx | hx
      · exact Nat.lt_of_lt_of_le (h.older x hx) htake.next
      · exact hplug x hx

/-- A placement below `P` that may cut, or has nothing to cut. -/
theorem run_place (hstrict : balancing = .strict → crossing? [] e.span m = none) :
    (place P e [] balancing).run.run (w.setBelow P ⟨m, s⟩) =
      (.ok (opened [] e.span m s).2.next,
        ((w.intern (namesOf [e])).placing P e m s).setBelow (opened [] e.span m s).2.next
          ⟨(opened [] e.span m s).1.inside, (opened [] e.span m s).2.take⟩) := by
  have hbelow : (w.setBelow P ⟨m, s⟩).document.below P = m := h.below_setBelow _
  have hcross : balancing = .strict →
      crossing? [] e.span ((w.setBelow P ⟨m, s⟩).document.below P) = none := by rwa [hbelow]
  obtain ⟨p, hp, hrun⟩ := InPlace.run_place (h.obstacle?_eq_none hlo hord hhi ⟨m, s⟩) hcross
  have hp : m.place e [] balancing (fun inside s => .ok ⟨inside, s⟩) s = .ok p := by
    rw [← hp, hbelow]
    rfl
  rw [place_eq h.nests hlo hord hhi claims_nil (fresh_nil s) hstrict] at hp
  cases hp
  rw [hrun, ← (h.intern _).setBelow_placing hlo hord hhi, intern_setBelow]
  rfl

/-- A placement below `P` that may not cut and would have to. -/
theorem run_place_strict {n : Node} (hcross : crossing? [] e.span m = some n) :
    ((place P e [] .strict).run.run (w.setBelow P ⟨m, s⟩)).1 =
      .error ⟨e.name, e.span, .crossing n.name n.span⟩ := by
  rw [InPlace.run_place_strict (h.obstacle?_eq_none hlo hord hhi ⟨m, s⟩)
    (by rwa [h.below_setBelow])]

end Hosts

end Edit

/-! ## Merges below a node -/

namespace InPlace

open Document Markup

/-- Below any node over `span`, `change` does to the document what `grow` does to the row, and the
names come in. -/
def Mirrors (span : Span) (names : List String) (change : NodeId → InPlace Unit)
    (grow : Markup → Supply → Except MergeConflict Growth) : Prop :=
  ∀ (w : Edit) P m s, w.Hosts P span m s →
    (∀ g, grow m s = .ok g →
      (change P).run.run (w.setBelow P ⟨m, s⟩) = (.ok (), (w.intern names).setBelow P g)) ∧
    ∀ conflict, grow m s = .error conflict →
      ((change P).run.run (w.setBelow P ⟨m, s⟩)).1 = .error conflict

variable {α β : Type} {span : Span} {names : List String} {change : NodeId → InPlace Unit}
  {fill : Markup → Supply → Except MergeConflict Growth} {w : Edit} {P : NodeId} {m : Markup}
  {s : Supply} {e : Element} {balancing : Balancing}

/-- What fails first fails the whole. -/
theorem run_bind_failed {x : InPlace α} {f : α → InPlace β} {conflict : MergeConflict}
    (h : (x.run.run w).1 = .error conflict) : ((x >>= f).run.run w).1 = .error conflict := by
  have hrun : x.run.run w = (.error conflict, (x.run.run w).2) := Prod.ext h rfl
  rw [run_bind_error hrun]

/-- The placement of an element, a change below it, and whatever comes next. -/
theorem Mirrors.place (balancing : Balancing) (hfill : Mirrors e.span names change fill)
    (h : w.Hosts P span m s) (hlo : span.start ≤ e.span.start)
    (hord : e.span.start ≤ e.span.stop) (hhi : e.span.stop ≤ span.stop) (next : NodeId → InPlace α) :
    let run := (place P e [] balancing >>= fun id => change id >>= fun _ => next id).run.run
      (w.setBelow P ⟨m, s⟩)
    (∀ p, m.place e [] balancing fill s = .ok p →
      run = (next p.id).run.run ((w.intern (namesOf [e] ++ names)).setBelow P p.toGrowth)) ∧
    ∀ conflict, m.place e [] balancing fill s = .error conflict → run.1 = .error conflict := by
  intro run
  by_cases hstrict : balancing = .strict → crossing? [] e.span m = none
  · have hrun : run = (change (opened [] e.span m s).2.next >>= fun _ =>
        next (opened [] e.span m s).2.next).run.run
          (((w.intern (namesOf [e])).placing P e m s).setBelow (opened [] e.span m s).2.next
            ⟨(opened [] e.span m s).1.inside, (opened [] e.span m s).2.take⟩) :=
      run_bind_ok (h.run_place hlo hord hhi hstrict)
    obtain ⟨hok, herror⟩ := hfill _ _ _ _ ((h.intern (namesOf [e])).placing hlo hord hhi)
    rw [place_eq h.nests hlo hord hhi claims_nil (fresh_nil s) hstrict]
    cases hg : fill (opened [] e.span m s).1.inside (opened [] e.span m s).2.take with
    | ok g =>
      refine ⟨fun p hp => ?_, fun conflict hconflict => by cases hconflict⟩
      cases hp
      rw [hrun, run_bind_ok (hok g hg), Edit.intern_placing, Edit.intern_intern,
        ← (h.intern _).setBelow_placing hlo hord hhi]
      rfl
    | error conflict =>
      refine ⟨fun p hp => (by cases hp), fun conflict' hconflict => ?_⟩
      cases hconflict
      rw [hrun]
      exact run_bind_failed (herror conflict hg)
  · obtain ⟨rfl, hcross⟩ := Classical.not_imp.mp hstrict
    obtain ⟨n, hn⟩ := Option.ne_none_iff_exists'.mp hcross
    rw [place_strict_of_crossing hn]
    refine ⟨fun p hp => (by cases hp), fun conflict hconflict => ?_⟩
    cases hconflict
    exact run_bind_failed (h.run_place_strict hlo hord hhi hn)

/-- The merge of a row in place is the merge into the row below the node. -/
theorem mirrors_mergeBelow (balancing : Balancing) {fs : Forest Element}
    (hfs : Markup.misfit? span fs = none) :
    Mirrors span (namesOf fs.preorder) (mergeBelow balancing fs) (mergeRow balancing fs) := by
  induction fs generalizing span with
  | nil =>
    intro w P m s _
    refine ⟨fun g hg => ?_, fun conflict hconflict => by cases hconflict⟩
    cases hg
    rfl
  | node e kids rest ihk ihr =>
    obtain ⟨⟨hord, hlo, hhi⟩, hkids, hrest⟩ := misfit?_eq_none hfs
    intro w P m s h
    have hnames : namesOf (Forest.node e kids rest).preorder =
        (namesOf [e] ++ namesOf kids.preorder) ++ namesOf rest.preorder := by
      simp [namesOf]
    obtain ⟨hok, herror⟩ := (ihk hkids).place balancing h hlo hord hhi
      (fun _ => mergeBelow balancing rest P)
    rw [mergeBelow, mergeRow, hnames, ← Edit.intern_intern]
    cases hp : m.place e [] balancing (fun inside s => mergeRow balancing kids inside s) s with
    | error conflict =>
      refine ⟨fun g hg => (by cases hg), fun conflict' hconflict => ?_⟩
      cases hconflict
      exact herror conflict hp
    | ok p =>
      -- the rest is merged into a row that has grown by the first tree
      obtain ⟨inside, hin, rfl⟩ := place_ok h.nests hlo hord hhi claims_nil (fresh_nil s) hp
      have hinside := (h.insertable hlo hord hhi).nests_inside
      have hgrown := grows_placed h.nests hlo hord hhi (grows_mergeRow hinside hkids hin)
      have hrun := hok _ hp
      dsimp only at hrun ⊢
      rw [hrun]
      exact ihr hrest _ _ _ _ ((h.grow hgrown).intern _)

/-! ## Cuts -/

/-- Whatever comes of the change, the cuts stay. -/
def KeepsCuts (x : InPlace α) : Prop := ∀ w, (x.run.run w).2.cuts = w.cuts

theorem KeepsCuts.bind {x : InPlace α} {f : α → InPlace β} (hx : KeepsCuts x)
    (hf : ∀ a, KeepsCuts (f a)) : KeepsCuts (x >>= f) := by
  intro w
  cases hrun : x.run.run w with
  | mk outcome w' =>
    have hcuts : w'.cuts = w.cuts := by rw [← hx w, hrun]
    cases outcome with
    | error conflict => rw [run_bind_error hrun, hcuts]
    | ok a => rw [run_bind_ok hrun, hf a w', hcuts]

/-- A placement that may not cut does not. -/
theorem keepsCuts_place (P : NodeId) (e : Element) (claimed : List NodeId) :
    KeepsCuts (place P e claimed .strict) := by
  intro w
  cases hobstacle : w.obstacle? P e.span with
  | some reason => rw [run_place_of_obstacle hobstacle]
  | none =>
    cases hcross : crossing? claimed e.span (w.document.below P) with
    | some n =>
      rw [run_place_strict hobstacle hcross]
      rfl
    | none =>
      obtain ⟨p, hp, hrun⟩ := run_place hobstacle fun _ : Balancing.strict = .strict => hcross
      rw [crossing?] at hcross
      simp only [place_of_row, placeInRow, hcross, cutCrossing_of_firstCrossing hcross] at hp
      cases hp
      rw [hrun]
      rfl

theorem keepsCuts_mergeBelow (fs : Forest Element) (P : NodeId) :
    KeepsCuts (mergeBelow .strict fs P) := by
  induction fs generalizing P with
  | nil => exact fun w => rfl
  | node e kids rest ihk ihr =>
    rw [mergeBelow]
    exact (keepsCuts_place P e []).bind fun id => (ihk id).bind fun _ => ihr P

theorem keepsCuts_mergeWithin (t : Tree Element) (P : NodeId) :
    KeepsCuts (mergeWithin .strict t P) :=
  (keepsCuts_place P t.label []).bind fun id => (keepsCuts_mergeBelow t.children id).bind
    fun _ => fun _ => rfl

end InPlace

/-! ## Merges of a tree -/

namespace InPlace

open Document

variable {α : Type} {t : Tree Element} {balancing : Balancing} {w w' : Edit} {id : NodeId}
  {conflict : MergeConflict}

theorem run_tryCatch_ok {x : InPlace α} {handle : MergeConflict → InPlace α} {a : α}
    (h : x.run.run w = (.ok a, w')) : (tryCatch x handle).run.run w = (.ok a, w') := by
  rw [ExceptT.run_tryCatch, StateT.run_bind, h]
  rfl

theorem run_tryCatch_error {x : InPlace α} {handle : MergeConflict → InPlace α}
    (h : x.run.run w = (.error conflict, w')) :
    (tryCatch x handle).run.run w = (handle conflict).run.run w' := by
  rw [ExceptT.run_tryCatch, StateT.run_bind, h]
  rfl

theorem run_merge_refused (ht : w.document.refusal? t = some conflict) :
    (merge t balancing).run.run w = (.error conflict, w) := by
  rw [merge, run_get]
  simp only [ht]
  rfl

theorem run_merge_inner (ht : w.document.refusal? t = none) :
    (merge t .inner).run.run w = (mergeWithin .inner t rootId).run.run w := by
  rw [merge, run_get]
  simp only [ht]

theorem run_merge_strict (ht : w.document.refusal? t = none)
    (hrun : (mergeWithin .strict t rootId).run.run w = (.ok id, w')) :
    (merge t .strict).run.run w = (.ok id, w') := by
  rw [merge, run_get]
  simp only [ht]
  exact run_tryCatch_ok hrun

/-- A strict merge that fails goes back to the document that it started with. -/
theorem run_merge_strict_failed (ht : w.document.refusal? t = none)
    (hrun : (mergeWithin .strict t rootId).run.run w = (.error conflict, w')) :
    (merge t .strict).run.run w = (.error conflict, { w' with document := w.document }) := by
  rw [merge, run_get]
  simp only [ht]
  exact run_tryCatch_error hrun

end InPlace

namespace Forest

variable {α : Type}

/-- Every label of a row with the one that it stands below; the outermost ones stand below `a`. -/
def edges (a : α) : Forest α → List (α × α)
  | nil => []
  | node b kids rest => (a, b) :: (kids.edges b ++ rest.edges a)

end Forest

namespace Document

open Markup InPlace

variable {doc : Document} {t : Tree Element} {balancing : Balancing} {conflict : MergeConflict}

/-- Every element is ordered and lies within the one that it stands below. -/
theorem misfit?_eq_none_iff {parent : Element} {fs : Forest Element} :
    Markup.misfit? parent.span fs = none ↔ ∀ p ∈ fs.edges parent,
      p.2.span.isOrdered = true ∧ p.1.span.contains p.2.span = true := by
  induction fs generalizing parent with
  | nil => simp [Markup.misfit?, Forest.edges]
  | node e kids rest ihk ihr =>
    rw [Markup.misfit?, Forest.edges, List.forall_mem_cons, List.forall_mem_append, ← ihk, ← ihr]
    cases e.span.isOrdered <;> cases parent.span.contains e.span <;>
      simp [Option.or_eq_none_iff]

theorem refusal?_eq_none_iff : doc.refusal? t = none ↔
    doc.misfit? t.label.span = none ∧ Markup.misfit? t.label.span t.children = none := by
  rw [refusal?]
  cases doc.misfit? t.label.span <;> simp

/-- A merge is refused at once, or else its tree goes into the mark-up. -/
theorem merge_eq (doc : Document) (t : Tree Element) (balancing : Balancing) :
    doc.merge t balancing = match doc.refusal? t with
      | some conflict => .error conflict
      | none => (doc.markup.mergeTree balancing t ⟨doc.next, []⟩).map
          (doc.grown (Forest.ofTree t).preorder) := by
  rw [merge, refusal?]
  cases doc.misfit? t.label.span with
  | some reason => rfl
  | none =>
    cases Markup.misfit? t.label.span t.children with
    | some conflict => rfl
    | none =>
      dsimp only
      cases doc.markup.mergeTree balancing t ⟨doc.next, []⟩ <;> rfl

/-- A merge is refused at once exactly if the root of its tree does not lie in the text, or some
element does not lie within the one that it stands below. -/
theorem refusal?_ne_none_iff : doc.refusal? t ≠ none ↔
    t.label.span.isOrdered = false ∨ doc.text.length < t.label.span.stop ∨
      ∃ p ∈ t.children.edges t.label,
        p.2.span.isOrdered = false ∨ p.1.span.contains p.2.span = false := by
  have hroot : doc.misfit? t.label.span = none ↔
      t.label.span.isOrdered = true ∧ ¬doc.text.length < t.label.span.stop := by
    rw [misfit?_span_eq_none, Span.isOrdered, decide_eq_true_iff, Nat.not_lt]
  rw [Ne, refusal?_eq_none_iff, hroot, misfit?_eq_none_iff, not_and_or, not_and_or, or_assoc]
  simp only [Bool.not_eq_true, not_not, not_forall, not_and_or, exists_prop]

/-- If the change fails it leaves the document as it was. -/
def Atomic (doc : Document) (change : InPlace NodeId) : Prop :=
  ∀ conflict, (doc.perform change).outcome = .error conflict → (doc.perform change).target = doc

theorem atomic_of_deliver {change : InPlace NodeId} {attempt : Except MergeConflict Addition}
    (h : doc.perform change = doc.deliver attempt) : doc.Atomic change := by
  intro conflict hconflict
  rw [h] at hconflict ⊢
  cases attempt with
  | error conflict => rfl
  | ok a => cases hconflict

namespace WellFormed

variable (h : doc.WellFormed)
include h

/-- The whole mark-up stands below the document node. -/
theorem hosts : Edit.Hosts { document := doc } rootId doc.wholeSpan doc.markup ⟨doc.next, []⟩ where
  span? := by rw [Document.span?, if_pos rfl]
  stop_le := Nat.le_refl _
  pos := h.pos
  older x hx := (h.mem_ids_iff.mp hx).2
  nests := h.nests
  nodup := h.nodup
  below x hx := (h.mem_ids_iff.mp hx).2

/-- The merge of a tree in place does to the document what it does to the mark-up. -/
theorem run_mergeWithin (balancing : Balancing) (ht : doc.refusal? t = none) :
    (∀ p, doc.markup.mergeTree balancing t ⟨doc.next, []⟩ = .ok p →
      (mergeWithin balancing t rootId).run.run { document := doc } =
        (.ok p.id, ⟨(doc.grown (Forest.ofTree t).preorder p).document, p.supply.cuts⟩)) ∧
    ∀ conflict, doc.markup.mergeTree balancing t ⟨doc.next, []⟩ = .error conflict →
      ((mergeWithin balancing t rootId).run.run { document := doc }).1 = .error conflict := by
  obtain ⟨hfit, hkids⟩ := refusal?_eq_none_iff.mp ht
  obtain ⟨hord, hstop⟩ := misfit?_span_eq_none.mp hfit
  obtain ⟨hok, herror⟩ := (mirrors_mergeBelow balancing hkids).place balancing h.hosts
    (Nat.zero_le _) hord hstop (fun id => pure id)
  refine ⟨fun p hp => (hok p hp).trans ?_, herror⟩
  obtain ⟨inside, -, rfl⟩ := place_ok h.nests (Nat.zero_le _) hord hstop claims_nil (fresh_nil _) hp
  have hnames : namesOf (Forest.ofTree t).preorder =
      namesOf [t.label] ++ namesOf t.children.preorder := by
    simp [namesOf, Forest.ofTree]
  rw [Document.grown, hnames]
  rfl

/-- Where cutting is allowed, a tree that is not refused at once is merged to the end. -/
theorem mergeTree_inner (ht : doc.refusal? t = none) :
    ∃ p, doc.markup.mergeTree .inner t ⟨doc.next, []⟩ = .ok p := by
  obtain ⟨hfit, hkids⟩ := refusal?_eq_none_iff.mp ht
  obtain ⟨hord, hstop⟩ := misfit?_span_eq_none.mp hfit
  obtain ⟨a, ha⟩ := h.merge_inner hord hstop hkids
  obtain ⟨-, -, p, hp, -⟩ := merge_ok ha
  exact ⟨p, hp⟩

/-- A merge in place gives what the function does. -/
theorem merge_inPlace (t : Tree Element) (balancing : Balancing) :
    doc.perform (InPlace.merge t balancing) = doc.deliver (doc.merge t balancing) := by
  rw [merge_eq]
  cases ht : doc.refusal? t with
  | some conflict =>
    rw [perform_eq (run_merge_refused ht)]
    rfl
  | none =>
    obtain ⟨hok, herror⟩ := h.run_mergeWithin balancing ht
    cases balancing with
    | inner =>
      obtain ⟨p, hp⟩ := h.mergeTree_inner ht
      have hrun := (run_merge_inner (w := { document := doc }) ht).trans (hok p hp)
      rw [hp, perform_eq hrun]
      rfl
    | strict =>
      cases hp : doc.markup.mergeTree .strict t ⟨doc.next, []⟩ with
      | ok p =>
        have hrun := run_merge_strict (w := { document := doc }) ht (hok p hp)
        rw [perform_eq hrun]
        rfl
      | error conflict =>
        have hcuts := keepsCuts_mergeWithin t rootId { document := doc }
        have hrun := run_merge_strict_failed (w := { document := doc }) ht
          (Prod.ext (herror conflict hp) rfl)
        rw [perform_eq hrun, hcuts]
        rfl

/-- A merge that may cut fails at once or not at all. -/
theorem merge_inner_iff : (∃ conflict, (doc.perform (InPlace.merge t .inner)).outcome =
    .error conflict) ↔ doc.refusal? t ≠ none := by
  rw [h.merge_inPlace, merge_eq]
  cases ht : doc.refusal? t with
  | some conflict => exact iff_of_true ⟨conflict, rfl⟩ (by simp)
  | none =>
    obtain ⟨p, hp⟩ := h.mergeTree_inner ht
    rw [hp]
    exact iff_of_false (by rintro ⟨conflict, hconflict⟩; cases hconflict) (by simp)

/-- In place, node after node, additions do what the functions do.  One that fails leaves the whole
document as it was.  A merge that may cut fails exactly if the root of its tree does not lie in the
text or some element does not lie within its parent; once it has begun to place nodes it does not
fail any more. -/
theorem all_or_nothing :
    (∀ name span, doc.perform (InPlace.addSpan name span) = doc.deliver (doc.addSpan name span) ∧
      doc.Atomic (InPlace.addSpan name span)) ∧
    (∀ e claimed balancing,
      doc.perform (InPlace.insert e claimed balancing) =
        MergeTarget.insert doc e claimed balancing ∧
      doc.Atomic (InPlace.insert e claimed balancing)) ∧
    (∀ t balancing,
      doc.perform (InPlace.merge t balancing) = MergeTarget.merge doc t balancing ∧
      doc.Atomic (InPlace.merge t balancing)) ∧
    (∀ t : Tree Element,
      (∃ conflict, (doc.perform (InPlace.merge t .inner)).outcome = .error conflict) ↔
        t.label.span.isOrdered = false ∨ doc.text.length < t.label.span.stop ∨
          ∃ p ∈ t.children.edges t.label,
            p.2.span.isOrdered = false ∨ p.1.span.contains p.2.span = false) ∧
    ∀ t, doc.refusal? t = none →
      ∃ id, (doc.perform (InPlace.mergeWithin .inner t rootId)).outcome = .ok id := by
  refine ⟨fun name span => ?_, fun e claimed balancing => ?_, fun t balancing => ?_, fun t => ?_,
    fun t ht => ?_⟩
  · have hdeliver := (addSpan_inPlace doc name span).symm
    exact ⟨hdeliver, atomic_of_deliver hdeliver⟩
  · have hdeliver := (insert_inPlace doc e claimed balancing).symm
    exact ⟨hdeliver, atomic_of_deliver hdeliver⟩
  · have hdeliver := h.merge_inPlace t balancing
    exact ⟨hdeliver, atomic_of_deliver hdeliver⟩
  · rw [h.merge_inner_iff, refusal?_ne_none_iff]
  · obtain ⟨p, hp⟩ := h.mergeTree_inner ht
    exact ⟨p.id, by rw [perform_eq ((h.run_mergeWithin .inner ht).1 p hp)]⟩

end WellFormed

/-- A strict merge that has placed its root when a child is refused, and goes back. -/
theorem WellFormed.all_or_nothing_halfway :
    let t : Tree Element := ⟨⟨"p", ⟨0, 5⟩, {}⟩, .node ⟨"q", ⟨0, 2⟩, {}⟩ .nil .nil⟩
    ∃ doc : Document, doc.WellFormed ∧
      (doc.perform (InPlace.mergeWithin .strict t rootId)).target.elementCount = 2 ∧
      (doc.perform (InPlace.merge t .strict)).outcome =
        .error ⟨"q", ⟨0, 2⟩, .crossing "b" ⟨1, 3⟩⟩ ∧
      (doc.perform (InPlace.merge t .strict)).target = doc := by
  intro t
  have hb : ((ofText "abcde").addSpan "b" ⟨1, 3⟩).map (fun a =>
      ((a.document.perform (InPlace.mergeWithin .strict t rootId)).target.elementCount,
        (a.document.perform (InPlace.merge t .strict)).outcome)) =
      .ok (2, .error ⟨"q", ⟨0, 2⟩, .crossing "b" ⟨1, 3⟩⟩) := by
    decide +kernel
  cases ha : (ofText "abcde").addSpan "b" ⟨1, 3⟩ with
  | error conflict =>
    rw [ha] at hb
    cases hb
  | ok a =>
    rw [ha] at hb
    obtain ⟨hcount, houtcome⟩ := Prod.mk.inj (Except.ok.inj hb)
    have hdoc : a.document.WellFormed := (wellFormed_ofText "abcde").addSpan ha
    exact ⟨a.document, hdoc, hcount, houtcome, (hdoc.all_or_nothing.2.2.1 t .strict).2 _ houtcome⟩

end Document

end Standoff
