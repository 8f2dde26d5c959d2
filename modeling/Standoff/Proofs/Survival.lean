import Standoff.Proofs.Origins
import Standoff.Proofs.Sessions

/-! # The mark-up of the host after a run

A run cuts elements of the host, puts others between them and moves markers.  Still everything
that was there can be read off the document as before: the paths without the new elements are the
old ones, the fragments of an element tile its span, and markers stand where they stood.

* `Tiles`: spans that follow one another without a gap.
* `Document.fragments`: what has become of an element of the host.
* `Builder.markup_survives`: the host's mark-up after a run. -/

namespace Standoff

/-! ## Tilings -/

/-- Spans of at least one character that follow one another from `lo` to `hi` without a gap. -/
def Tiles : Nat → Nat → List Span → Prop
  | lo, hi, [] => lo = hi
  | lo, hi, s :: rest => s.start = lo ∧ s.start < s.stop ∧ Tiles s.stop hi rest

/-- Spans in order that cover each character of a range, and no other, tile it. -/
theorem tiles_of_cover {lo hi : Nat} {ss : List Span} (hle : lo ≤ hi)
    (hpos : ∀ s ∈ ss, s.start < s.stop) (horder : ss.Pairwise fun s t => s.stop ≤ t.start)
    (hcover : ∀ i, (∃ s ∈ ss, s.start ≤ i ∧ i < s.stop) ↔ lo ≤ i ∧ i < hi) : Tiles lo hi ss := by
  induction ss generalizing lo with
  | nil =>
    rcases Nat.lt_or_ge lo hi with hlt | hge
    · obtain ⟨s, hs, -⟩ := (hcover lo).mpr ⟨Nat.le_refl _, hlt⟩
      exact absurd hs List.not_mem_nil
    · exact Nat.le_antisymm hle hge
  | cons s rest ih =>
    obtain ⟨hs, hrest⟩ := List.forall_mem_cons.mp hpos
    obtain ⟨hbefore, horder⟩ := List.pairwise_cons.mp horder
    have hfirst := (hcover s.start).mp ⟨s, List.mem_cons_self .., Nat.le_refl _, hs⟩
    have hlast := (hcover (s.stop - 1)).mp ⟨s, List.mem_cons_self .., by omega, by omega⟩
    have hstart : s.start = lo := by
      obtain ⟨t, ht, htlo, -⟩ := (hcover lo).mpr ⟨Nat.le_refl _, by omega⟩
      rcases List.mem_cons.mp ht with rfl | ht
      · omega
      · have := hbefore t ht
        omega
    refine ⟨hstart, hs, ih (by omega) hrest horder fun i => ⟨?_, fun hi' => ?_⟩⟩
    · rintro ⟨t, ht, hti⟩
      have := (hcover i).mp ⟨t, List.mem_cons_of_mem _ ht, hti⟩
      have := hbefore t ht
      omega
    · obtain ⟨t, ht, hti⟩ := (hcover i).mpr ⟨by omega, hi'.2⟩
      rcases List.mem_cons.mp ht with rfl | ht
      · omega
      · exact ⟨t, ht, hti⟩

/-! ## Nodes in document order -/

namespace Markup

variable {lo hi i : Nat} {m m' : Markup} {n x : Node} {ρ : NodeId → Option NodeId}

/-- Of two nodes the later one lies behind the earlier one or in it. -/
theorem Nests.pairwise (h : Nests lo hi m) : m.preorder.Pairwise fun x y =>
    x.span.stop ≤ y.span.start ∨ (x.span.start ≤ y.span.start ∧ y.span.stop ≤ x.span.stop) := by
  induction m generalizing lo hi with
  | nil => exact .nil
  | node n kids rest ihk ihr =>
    obtain ⟨-, hkids, hrest⟩ := h
    rw [Forest.preorder_node]
    refine List.pairwise_cons.mpr ⟨fun y hy => ?_,
      List.pairwise_append.mpr ⟨ihk hkids, ihr hrest, fun x hx y hy => ?_⟩⟩
    · rcases List.mem_append.mp hy with hy | hy
      · have := hkids.bounds hy
        exact .inr ⟨this.1, this.2.2⟩
      · exact .inl (hrest.bounds hy).1
    · exact .inl (Nat.le_trans (hkids.bounds hx).2.2 (hrest.bounds hy).1)

/-- A list of nodes of which no two cover one character, each behind or in those before it. -/
theorem pairwise_of_covers {ns : List Node} (hpos : ∀ x ∈ ns, x.span.start < x.span.stop)
    (horder : ns.Pairwise fun x y =>
      x.span.stop ≤ y.span.start ∨ (x.span.start ≤ y.span.start ∧ y.span.stop ≤ x.span.stop))
    (hone : ∀ i, (ns.filter (covers i)).length ≤ 1) :
    ns.Pairwise fun x y => x.span.stop ≤ y.span.start := by
  induction ns with
  | nil => exact .nil
  | cons x ns ih =>
    obtain ⟨hx, hns⟩ := List.forall_mem_cons.mp hpos
    obtain ⟨hbefore, horder⟩ := List.pairwise_cons.mp horder
    refine List.pairwise_cons.mpr ⟨fun y hy => (hbefore y hy).resolve_right fun hin => ?_,
      ih hns horder fun i => Nat.le_trans ((List.sublist_cons_self x ns).filter _).length_le (hone i)⟩
    have hy' := hns y hy
    have hcx : covers y.span.start x = true := covers_iff.mpr (by omega)
    have hcy : covers y.span.start y = true := covers_iff.mpr (by omega)
    have htwo := hone y.span.start
    rw [List.filter_cons_of_pos hcx, List.length_cons] at htwo
    have := List.length_pos_of_mem (List.mem_filter.mpr ⟨hy, hcy⟩)
    omega

end Markup

/-! ## Fragments -/

namespace Document

open Markup

/-- The nodes of a document that come from node `x` of a host by the cuts in `log`, in document
order. -/
def fragments (doc : Document) (log : List Cut) (x : NodeId) : List Node :=
  doc.markup.preorder.filter fun n => Cut.origin log n.id == x

/-- The nodes over a character that come from a host by the cuts in `log`, the outermost first. -/
def hostPath (host doc : Document) (log : List Cut) (i : Nat) : List Node :=
  (doc.markup.pathAt i).filter fun n => Cut.origin log n.id < host.next

variable {host doc : Document} {log : List Cut} {n x : Node} {i : Nat}

theorem mem_fragments {y : NodeId} :
    x ∈ doc.fragments log y ↔ x ∈ doc.markup.preorder ∧ Cut.origin log x.id = y := by
  rw [fragments, List.mem_filter, beq_iff_eq]

/-- What a node shows of the host: its source, its name and its attributes. -/
def shown (log : List Cut) (n : Node) : Mark := (Cut.origin log n.id, n.name, n.attributes)

theorem filterMap_mark? (ns : List Node) :
    ns.filterMap (mark? (host.source? log)) =
      (ns.filter fun n => Cut.origin log n.id < host.next).map (shown log) := by
  induction ns with
  | nil => rfl
  | cons n ns ih =>
    rw [List.filterMap_cons, List.filter_cons, mark?, source?]
    by_cases hlt : Cut.origin log n.id < host.next
    · rw [if_pos hlt, if_pos (decide_eq_true hlt), List.map_cons, ih]
      rfl
    · rw [if_neg hlt, if_neg (by simpa using hlt), ih]
      rfl

namespace Kept

variable (h : Kept host doc log) (hhost : host.WellFormed) (hdoc : doc.WellFormed)
include h hhost

/-- Nodes of the host come from themselves. -/
theorem origin_of_mem (hn : n ∈ host.markup.preorder) : Cut.origin log n.id = n.id :=
  h.logged.origin_of_lt (hhost.mem_ids_iff.mp (id_mem_ids hn)).2

/-- A fragment without characters is a marker of the host, and nothing has happened to it. -/
theorem eq_of_marker (hn : n ∈ host.markup.preorder) (hx : x ∈ doc.fragments log n.id)
    (hempty : x.span.stop ≤ x.span.start) : x = n := by
  obtain ⟨hmem, horigin⟩ := mem_fragments.mp hx
  have hlt := (hhost.mem_ids_iff.mp (id_mem_ids hn)).2
  have hsource : host.source? log x.id ≠ none := by
    rw [source?, horigin, if_pos hlt]
    exact Option.some_ne_none _
  have hcount := List.count_pos_iff.mpr hmem
  rw [h.keeps.marker x hempty hsource] at hcount
  have hhostx := List.count_pos_iff.mp hcount
  exact eq_of_id hhost.nodup hhostx hn ((h.origin_of_mem hhost hhostx).symm.trans horigin)

include hdoc

/-- The path at a character, without the new elements, is that of the host. -/
theorem hostPath_eq (i : Nat) :
    (host.hostPath doc log i).map (shown log) = (host.markup.pathAt i).map (shown []) := by
  rw [hostPath, hdoc.nests.pathAt_eq, hhost.nests.pathAt_eq, ← filterMap_mark?]
  refine (h.keeps.trail i).trans ?_
  rw [trail, filterMap_mark?, List.filter_eq_self.mpr fun n hn => ?_]
  · refine List.map_congr_left fun n hn => ?_
    rw [shown, h.origin_of_mem hhost (List.mem_filter.mp hn).1]
    rfl
  · have hmem := (List.mem_filter.mp hn).1
    rw [h.origin_of_mem hhost hmem]
    exact decide_eq_true (hhost.mem_ids_iff.mp (id_mem_ids hmem)).2

/-- A node over a character that comes from the host shows a node of the host that was there. -/
theorem exists_shown (hx : x ∈ doc.markup.preorder) (hc : covers i x = true)
    (hlt : Cut.origin log x.id < host.next) :
    ∃ n ∈ host.markup.preorder, covers i n = true ∧ shown [] n = shown log x := by
  have hmem : shown log x ∈ (host.hostPath doc log i).map (shown log) := by
    rw [hostPath, hdoc.nests.pathAt_eq]
    exact List.mem_map_of_mem
      (List.mem_filter.mpr ⟨List.mem_filter.mpr ⟨hx, hc⟩, decide_eq_true hlt⟩)
  rw [h.hostPath_eq hhost hdoc, hhost.nests.pathAt_eq] at hmem
  obtain ⟨n, hn, hshown⟩ := List.mem_map.mp hmem
  exact ⟨n, (List.mem_filter.mp hn).1, (List.mem_filter.mp hn).2, hshown⟩

/-- The fragments of a node cover the characters that it covered. -/
theorem exists_fragment_iff (hn : n ∈ host.markup.preorder) :
    (∃ x ∈ doc.fragments log n.id, covers i x = true) ↔ covers i n = true := by
  have hlt := (hhost.mem_ids_iff.mp (id_mem_ids hn)).2
  constructor
  · rintro ⟨x, hx, hc⟩
    obtain ⟨hmem, horigin⟩ := mem_fragments.mp hx
    obtain ⟨n', hn', hc', hshown⟩ := h.exists_shown hhost hdoc hmem hc (horigin ▸ hlt)
    have hid : n'.id = n.id := (congrArg Prod.fst hshown).trans horigin
    exact eq_of_id hhost.nodup hn' hn hid ▸ hc'
  · intro hc
    have hmem : shown [] n ∈ (host.markup.pathAt i).map (shown []) := by
      rw [hhost.nests.pathAt_eq]
      exact List.mem_map_of_mem (List.mem_filter.mpr ⟨hn, hc⟩)
    rw [← h.hostPath_eq hhost hdoc, hostPath, hdoc.nests.pathAt_eq] at hmem
    obtain ⟨x, hx, hshown⟩ := List.mem_map.mp hmem
    obtain ⟨hx, hcx⟩ := List.mem_filter.mp (List.mem_filter.mp hx).1
    exact ⟨x, mem_fragments.mpr ⟨hx, congrArg Prod.fst hshown⟩, hcx⟩

/-- Fragments keep name and attributes. -/
theorem fragment_shows (hn : n ∈ host.markup.preorder) (hx : x ∈ doc.fragments log n.id) :
    x.name = n.name ∧ x.attributes = n.attributes := by
  rcases Nat.lt_or_ge x.span.start x.span.stop with hpos | hempty
  · obtain ⟨hmem, horigin⟩ := mem_fragments.mp hx
    have hlt := (hhost.mem_ids_iff.mp (id_mem_ids hn)).2
    obtain ⟨n', hn', -, hshown⟩ := h.exists_shown hhost hdoc hmem
      (covers_iff.mpr ⟨Nat.le_refl _, hpos⟩) (horigin ▸ hlt)
    obtain rfl : n' = n :=
      eq_of_id hhost.nodup hn' hn ((congrArg Prod.fst hshown).trans horigin)
    have htext := congrArg Prod.snd hshown
    exact ⟨(congrArg Prod.fst htext).symm, (congrArg Prod.snd htext).symm⟩
  · rw [h.eq_of_marker hhost hn hx hempty]
    exact ⟨rfl, rfl⟩

/-- No two fragments of a node cover one character. -/
theorem length_fragments_le (hn : n ∈ host.markup.preorder) (i : Nat) :
    ((doc.fragments log n.id).filter (covers i)).length ≤ 1 := by
  have hlt := (hhost.mem_ids_iff.mp (id_mem_ids hn)).2
  have hpath : (host.hostPath doc log i).countP (fun x => Cut.origin log x.id == n.id) =
      (host.markup.pathAt i).countP fun x => x.id == n.id := by
    have hshown := congrArg (List.countP fun show' : Mark => show'.1 == n.id)
      (h.hostPath_eq hhost hdoc i)
    rwa [List.countP_map, List.countP_map] at hshown
  calc ((doc.fragments log n.id).filter (covers i)).length
      = (host.hostPath doc log i).countP fun x => Cut.origin log x.id == n.id := by
        rw [hostPath, hdoc.nests.pathAt_eq, List.filter_filter, List.countP_filter, fragments,
          List.filter_filter, ← List.countP_eq_length_filter]
        refine List.countP_congr fun x _ => ?_
        simp only [Bool.and_eq_true, beq_iff_eq, decide_eq_true_eq]
        exact ⟨fun hx => ⟨hx.2, hx.2 ▸ hlt, hx.1⟩, fun hx => ⟨hx.2.2, hx.1⟩⟩
    _ = (host.markup.pathAt i).countP fun x => x.id == n.id := hpath
    _ ≤ host.markup.preorder.countP fun x => x.id == n.id := by
        rw [hhost.nests.pathAt_eq]
        exact List.filter_sublist.countP_le
    _ = host.markup.ids.count n.id := by
        rw [ids, List.count, List.countP_map]
        rfl
    _ ≤ 1 := List.nodup_iff_count_le_one.mp hhost.nodup _

/-- The fragments of an element tile its span. -/
theorem fragments_tile (hn : n ∈ host.markup.preorder) (hpos : n.span.start < n.span.stop) :
    Tiles n.span.start n.span.stop ((doc.fragments log n.id).map (·.span)) := by
  have hne : ∀ x ∈ doc.fragments log n.id, x.span.start < x.span.stop := fun x hx =>
    Nat.lt_of_not_le fun hempty => by
      rw [h.eq_of_marker hhost hn hx hempty] at hempty
      omega
  refine tiles_of_cover (Nat.le_of_lt hpos) ?_ ?_ fun i => ?_
  · exact List.forall_mem_map.mpr hne
  · exact List.pairwise_map.mpr (pairwise_of_covers hne (hdoc.nests.pairwise.filter _)
      (h.length_fragments_le hhost hdoc hn))
  · rw [← covers_iff, ← h.exists_fragment_iff hhost hdoc hn]
    simp only [List.mem_map, exists_exists_and_eq_and, covers_iff]

/-- A marker is left as it is. -/
theorem fragments_marker (hn : n ∈ host.markup.preorder) (hempty : n.span.stop ≤ n.span.start) :
    doc.fragments log n.id = [n] := by
  have hall : ∀ x ∈ doc.fragments log n.id, x = n := fun x hx => by
    rcases Nat.lt_or_ge x.span.start x.span.stop with hpos | hle
    · have hc := (h.exists_fragment_iff hhost hdoc hn).mp
        ⟨x, hx, covers_iff.mpr ⟨Nat.le_refl _, hpos⟩⟩
      have := covers_iff.mp hc
      omega
    · exact h.eq_of_marker hhost hn hx hle
  have hself := h.origin_of_mem hhost hn
  have hsource : host.source? log n.id ≠ none := by
    rw [source?, hself, if_pos (hhost.mem_ids_iff.mp (id_mem_ids hn)).2]
    exact Option.some_ne_none _
  have hmem : n ∈ doc.markup.preorder := by
    rw [← List.count_pos_iff, h.keeps.marker n hempty hsource]
    exact List.count_pos_iff.mpr hn
  have hcount : (doc.fragments log n.id).count n = 1 :=
    List.count_eq_one_of_mem ((List.Nodup.of_map _ hdoc.nodup).filter _)
      (mem_fragments.mpr ⟨hmem, hself⟩)
  have hrep := List.eq_replicate_of_mem hall
  rw [hrep, List.count_replicate_self] at hcount
  rw [hrep, hcount]
  rfl

end Kept

end Document

/-! ## Runs -/

namespace Builder

open Document Markup

/-- The mark-up of the host after a run, whichever events were refused.  What does not come from the
host was made for a nonterminal, not by a cut.  At every character the elements that come from the
host are those that were there, in the same nesting; the fragments of an element keep its name and
attributes, and tile its span; and markers are as they were. -/
theorem markup_survives {host : Document} (h : host.WellFormed) (options : Options) (resume : Bool)
    (events : List Event) :
    let r := run resume (start host options) events
    let doc := r.1.target
    let log := cutsOf r.2
    (∀ x ∈ doc.markup.preorder, host.next ≤ Cut.origin log x.id →
      ∀ c ∈ log, c.right ≠ Cut.origin log x.id) ∧
    (∀ i, (host.hostPath doc log i).map (fun n => (Cut.origin log n.id, n.name, n.attributes)) =
      (host.markup.pathAt i).map fun n => (n.id, n.name, n.attributes)) ∧
    (∀ n ∈ host.markup.preorder, n.span.start < n.span.stop →
      Tiles n.span.start n.span.stop ((doc.fragments log n.id).map (·.span)) ∧
        ∀ x ∈ doc.fragments log n.id, x.name = n.name ∧ x.attributes = n.attributes) ∧
    ∀ n ∈ host.markup.preorder, n.span.stop ≤ n.span.start → doc.fragments log n.id = [n] := by
  intro r doc log
  obtain ⟨hdoc, hkept⟩ := kept_run h options resume events
  exact ⟨fun x _ _ c hc => hkept.logged.right_ne_origin hc x.id,
    fun i => hkept.hostPath_eq h hdoc i,
    fun n hn hpos => ⟨hkept.fragments_tile h hdoc hn hpos,
      fun x hx => hkept.fragment_shows h hdoc hn hx⟩,
    fun n hn hempty => hkept.fragments_marker h hdoc hn hempty⟩

/-- An element that is cut around a marker, by a run that goes on after a refusal. -/
theorem markup_survives_crossing :
    let host := Session.apply (Document.ofText "abcdef") [.addSpan "a" ⟨0, 4⟩, .addSpan "m" ⟨2, 2⟩]
    let events : List Event := [.excluded 2, .endAttribute, .startNonterminal "p", .terminal 99,
      .terminal 100, .terminal 101, .endNonterminal "p"]
    host.WellFormed ∧ ∃ r, run true (start host { merge := .incremental }) events = r ∧
      (r.1.target.fragments (cutsOf r.2) 1).map (·.span) = [⟨0, 2⟩, ⟨2, 4⟩] ∧
      Tiles 0 4 ((r.1.target.fragments (cutsOf r.2) 1).map (·.span)) ∧
      r.1.target.fragments (cutsOf r.2) 2 = [⟨⟨"m", ⟨2, 2⟩, {}⟩, 2⟩] := by
  intro host events
  have h : host.WellFormed :=
    (Session.wellFormed_apply (Document.wellFormed_ofText "abcdef") (by decide +kernel)).1
  obtain ⟨-, -, hfragments, hmarkers⟩ := markup_survives h { merge := .incremental } true events
  have ha : (⟨⟨"a", ⟨0, 4⟩, {}⟩, 1⟩ : Node) ∈ host.markup.preorder := by decide +kernel
  have hm : (⟨⟨"m", ⟨2, 2⟩, {}⟩, 2⟩ : Node) ∈ host.markup.preorder := by decide +kernel
  have hspans : ((run true (start host { merge := .incremental }) events).1.target.fragments
      (cutsOf (run true (start host { merge := .incremental }) events).2) 1).map (·.span) =
        [⟨0, 2⟩, ⟨2, 4⟩] := by decide +kernel
  -- the run is evaluated once, above, and nowhere below
  generalize run true (start host { merge := .incremental }) events = r at *
  exact ⟨h, r, rfl, hspans, (hfragments _ ha (by decide)).1, hmarkers _ hm (by decide)⟩

end Builder

end Standoff
