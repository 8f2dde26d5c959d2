import Standoff.Proofs.Cuts

/-!
# Searches along links

Two loops of a placement only look.  One goes down from link to link to the row that has room for
the new element, which is the row of `Markup.site`; what it comes to is part of the way through the
mark-up from the front.  The other goes up from a claimed node, and comes to what is above it.

* `Markup.OverSite`: the node over the row, and the mark-up around the row.
* `Arena.Stores.setBelow`: an arena with another row holds the document with that row.
* `Arena.Full.descend`, `Arena.Full.climb`, `Arena.Full.astray`: the loops.
-/

namespace Standoff

namespace Markup

variable {m f g kids : Markup} {t u : Tree Node} {P Q x : NodeId} {claimed : List NodeId}
  {span : Span}

/-- Another row below a node that is itself below `P`. -/
theorem withBelow_within (hm : m.ids.Nodup) (hu : m.node? P = some u) (hQ : Q ∈ ids u.children) :
    withBelow P (withBelow Q g u.children) m = withBelow Q g m := by
  induction m with
  | nil => cases hu
  | node n kids rest ihk ihr =>
    obtain ⟨hnk, hnr, hk, hr, hkr⟩ := nodup_node.mp hm
    rw [node?_node] at hu
    rw [withBelow_node, withBelow_node]
    split at hu
    · next hn =>
      cases hu
      have hQn : n.id ≠ Q := fun heq => hnk (heq ▸ hQ)
      rw [if_pos hn, if_neg hQn, withBelow_of_not_mem (m := rest) (hn ▸ hnr),
        withBelow_of_not_mem (m := rest) (hkr Q hQ)]
    · next hn =>
      rw [if_neg hn]
      have hin {f : Markup} (hf : f.node? P = some u) : Q ∈ f.ids :=
        treeIds_subset hf (treeIds_eq u ▸ List.mem_cons_of_mem _ hQ)
      rcases Option.or_eq_some_iff.mp hu with hu | ⟨hnone, hu⟩
      · have hQn : n.id ≠ Q := fun heq => hnk (heq ▸ hin hu)
        rw [if_neg hQn, ihk hk hu, withBelow_of_not_mem (m := rest) (hkr P (mem_of_node? hu)),
          withBelow_of_not_mem (m := rest) (hkr Q (hin hu))]
      · have hQn : n.id ≠ Q := fun heq => hnr (heq ▸ hin hu)
        have hQk : Q ∉ ids kids := fun hmem => hkr Q hmem (hin hu)
        rw [if_neg hQn, ihr hr hu, withBelow_of_not_mem (m := kids) (node?_eq_none_iff.mp hnone),
          withBelow_of_not_mem (m := kids) hQk]

/-- The node over the row that is searched for: `P`, over all of the mark-up, or one that the
search goes into. -/
def OverSite (claimed : List NodeId) (span : Span) (m : Markup) (P Q : NodeId) : Prop :=
  (Q = P ∧ site claimed span m = ⟨m, id⟩) ∨
    ∃ n, m.node? Q = some ⟨n, (site claimed span m).row⟩ ∧ enters claimed span n = true ∧
      ∀ g, (site claimed span m).plug g = withBelow Q g m

/-- A row is found below a node. -/
theorem OverSite.inner {n : Node} {rest : Markup} (hm : (ids (f ++ .node n kids rest)).Nodup)
    (hf : ∀ a ∈ f.labels, enters claimed span a = false) (hn : enters claimed span n = true)
    (h : OverSite claimed span kids n.id Q) :
    OverSite claimed span (f ++ .node n kids rest) P Q := by
  rw [ids_append, List.nodup_append] at hm
  obtain ⟨-, hnode, hdisj⟩ := hm
  obtain ⟨hnk, -, -, -, hkr⟩ := nodup_node.mp hnode
  have hnf : n.id ∉ f.ids := fun hmem => hdisj _ hmem _ (by simp) rfl
  rw [OverSite, site_append_node hf hn]
  refine .inr ?_
  rcases h with ⟨rfl, hsite⟩ | ⟨k, hk, henters, hplug⟩
  · refine ⟨n, ?_, hn, fun g => ?_⟩
    · rw [node?_append, node?_eq_none_iff.mpr hnf, node?_node, if_pos rfl, hsite]
      rfl
    · rw [hsite, withBelow_append, withBelow_of_not_mem hnf, withBelow_node, if_pos rfl,
        withBelow_of_not_mem (nodup_node.mp hnode).2.1]
      rfl
  · have hQ := mem_of_node? hk
    have hQf : Q ∉ f.ids := fun hmem => hdisj _ hmem Q (by simp [hQ]) rfl
    have hQn : n.id ≠ Q := fun heq => hnk (heq ▸ hQ)
    refine ⟨k, ?_, henters, fun g => ?_⟩
    · rw [node?_append, node?_eq_none_iff.mpr hQf, node?_node, if_neg hQn, hk]
      rfl
    · rw [withBelow_append, withBelow_of_not_mem hQf, withBelow_node, if_neg hQn, ← hplug,
        withBelow_of_not_mem (m := rest) (hkr Q hQ)]

end Markup

namespace Arena

open Document Markup

variable {a b : Arena} {s t : Family} {P Q x : NodeId} {m : Markup} {claimed l todo : List NodeId}
  {span : Span} {w : Edit} {g : Growth}

theorem Full.links_live (h : a.Full s) (hx : x ∈ s.live) :
    (a.links x).parent = s.parent x ∧ (a.links x).firstChild = (s.row x).head? := by
  rw [h.toKeeps.links x hx]
  exact ⟨rfl, rfl⟩

/-! ## Rows of documents -/

namespace Stores

variable {doc : Document} (h : a.Stores s doc)
include h

/-- The row below a node. -/
theorem below (hP : P = rootId ∨ P ∈ doc.markup.ids) :
    s.row P = (doc.below P).rootIds ∧ a.Carries s.row (doc.below P) := by
  refine ⟨h.row_eq P, ?_⟩
  rw [Document.below]
  split
  · exact h.carries
  · next hP0 =>
    obtain ⟨u, hu⟩ := exists_node? (hP.resolve_left hP0)
    rw [hu]
    exact (h.carries.row_of_node? hu).2

end Stores

/-- Another row below one node, with the rest as it was, makes the document with that row. -/
theorem Stores.setBelow (h : a.Stores s w.document)
    (hQ : Q = rootId ∨ Q ∈ w.document.markup.ids) (hb : b.Full t)
    (hframe : Frame a s (Q :: ids (w.document.below Q)) (ids (w.document.below Q)) b t)
    (hrow : t.row Q = rootIds g.markup) (hg : b.Carries t.row g.markup)
    (hsize : b.slots.size = g.supply.next) : b.Stores t (w.setBelow Q g).document := by
  have hlt : rootId < a.slots.size := h.live_lt h.root_live
  by_cases hQ0 : Q = rootId
  · subst hQ0
    have hout : rootId ∉ ids (w.document.below rootId) := by
      rw [Document.below, if_pos rfl]
      exact fun hmem => (h.mem_ids.mp hmem).1 rfl
    refine ⟨hb, hsize, hframe.names.trans h.names, ?_,
      (hframe.content rootId hlt hout).trans h.whole, ?_⟩
    · simpa only [Edit.setBelow, if_pos] using hrow
    · simpa only [Edit.setBelow, if_pos] using hg
  · obtain ⟨u, hu⟩ := exists_node? (hQ.resolve_left hQ0)
    have hbelow : w.document.below Q = u.children := by rw [Document.below, if_neg hQ0, hu]
    rw [hbelow] at hframe
    have hsub {y : NodeId} (hy : y ∈ ids u.children) : y ∈ w.document.markup.ids :=
      treeIds_subset hu (treeIds_eq u ▸ List.mem_cons_of_mem _ hy)
    have hout : rootId ∉ ids u.children := fun hmem => (h.mem_ids.mp (hsub hmem)).1 rfl
    have hQu : Q ∉ ids u.children := by
      have hnodup := nodup_treeIds h.rooted.nodup hu
      rw [treeIds_eq, (node?_spec hu).1] at hnodup
      exact (List.nodup_cons.mp hnodup).1
    have hin {y : NodeId} (hy : y ∈ w.document.markup.ids) : y < a.slots.size :=
      h.size ▸ (h.mem_ids.mp hy).2
    have hmarkup : (w.setBelow Q g).document.markup = .withBelow Q g.markup w.document.markup := by
      simp only [Edit.setBelow, if_neg hQ0]
    refine ⟨hb, hsize, hframe.names.trans h.names, ?_,
      (hframe.content rootId hlt hout).trans h.whole, ?_⟩
    · rw [hmarkup, rootIds_withBelow, ← h.root]
      exact hframe.row rootId hlt (List.not_mem_cons_of_ne_of_not_mem (Ne.symm hQ0) hout)
    · rw [hmarkup]
      refine h.carries.withBelow h.rooted.nodup hu hg hrow
        (hframe.content Q (hin (mem_of_node? hu)) hQu) fun y hy hyQ hyu => ?_
      exact ⟨hframe.row y (hin hy) (List.not_mem_cons_of_ne_of_not_mem hyQ hyu),
        hframe.content y (hin hy) hyu⟩

/-- Another row below a node that is below `P`. -/
theorem Stores.setBelow_within (h : a.Stores s w.document)
    (hP : P = rootId ∨ P ∈ w.document.markup.ids) (hQ : Q ∈ ids (w.document.below P)) :
    w.setBelow P ⟨.withBelow Q g.markup (w.document.below P), g.supply⟩ = w.setBelow Q g := by
  by_cases hP0 : P = rootId
  · subst hP0
    rw [Document.below, if_pos rfl] at hQ ⊢
    have hQ0 : Q ≠ rootId := (h.mem_ids.mp hQ).1
    simp only [Edit.setBelow, if_pos, if_neg hQ0]
  · obtain ⟨u, hu⟩ := exists_node? (hP.resolve_left hP0)
    have hbelow : w.document.below P = u.children := by rw [Document.below, if_neg hP0, hu]
    rw [hbelow] at hQ ⊢
    have hQ0 : Q ≠ rootId :=
      (h.mem_ids.mp (treeIds_subset hu (treeIds_eq u ▸ List.mem_cons_of_mem _ hQ))).1
    simp only [Edit.setBelow, if_neg hP0, if_neg hQ0, withBelow_within h.rooted.nodup hu hQ]

/-! ## Down -/

/-- The search passes nodes that it does not go into. -/
theorem descend_pass {done : List NodeId} {l : List Node} (h : a.Full s)
    (hrow : s.row P = done ++ (l.map (·.id) ++ todo))
    (hl : ∀ n ∈ l, enters claimed span n = false ∧ (a.element n.id).span = n.span) (fuel : Nat) :
    a.descend claimed span (fuel + l.length) P (l.map (·.id) ++ todo).head? =
      (a.descend claimed span fuel P todo.head?).map fun r => (r.1, l.map (·.id) ++ r.2) := by
  induction l generalizing done with
  | nil => exact (Option.map_id' (x := a.descend claimed span fuel P todo.head?)).symm
  | cons n l ih =>
    obtain ⟨hn, hspan⟩ := hl n (List.mem_cons_self ..)
    have hrow' : s.row P = done ++ [n.id] ++ (l.map (·.id) ++ todo) := by
      rw [hrow, List.append_assoc]
      rfl
    have hout : ¬ (n.id ∉ claimed ∧ (a.element n.id).span.admits span = true) := by
      rw [hspan, ← enters_iff, hn]
      exact Bool.false_ne_true
    have hnext : (a.links n.id).next = (l.map (·.id) ++ todo).head? := h.next_of_row hrow
    show a.descend claimed span (fuel + l.length + 1) P (some n.id) = _
    rw [descend, if_neg hout, hnext, ih hrow' fun k hk => hl k (List.mem_cons_of_mem _ hk),
      Option.map_map]
    rfl

/-- The search down from `P` finds the row of the focus, through nodes that are not claimed. -/
theorem Full.descend (h : a.Full s) (hm : a.Carries s.row m) (hrow : s.row P = m.rootIds)
    (claimed : List NodeId) (span : Span) :
    ∃ Q way, (∀ fuel, m.size ≤ fuel →
        a.descend claimed span fuel P m.rootIds.head? = some (Q, way)) ∧
      way.Sublist m.ids ∧ OverSite claimed span m P Q ∧
      ∀ c ∈ claimed, Relation.ReflTransGen s.Over c Q → Relation.ReflTransGen s.Over c P := by
  induction m using Forest.focus_induction (enters claimed span) generalizing P with
  | row m hnone =>
    refine ⟨P, rootIds m, fun fuel hfuel => ?_, (Forest.labels_sublist m).map _,
      .inl ⟨rfl, site_of_none hnone⟩, fun _ _ hcP => hcP⟩
    have hlen := length_labels_le m
    obtain ⟨fuel, rfl⟩ : ∃ k, fuel = k + m.labels.length := ⟨fuel - m.labels.length, by omega⟩
    have hrow' : s.row P = [] ++ (m.labels.map (·.id) ++ []) := by
      rw [hrow, List.append_nil, List.nil_append, rootIds]
    have hpass := descend_pass h hrow' (fun n hn => ⟨hnone n hn,
      congrArg Element.span (hm.element (Forest.labels_subset_preorder hn))⟩) fuel
    rw [List.append_nil] at hpass
    rw [rootIds, hpass]
    cases fuel <;> simp [Arena.descend]
  | inner f n kids rest hf hn ih =>
    obtain ⟨hfcarries, ⟨hnrow, hncontent⟩, hkids, -⟩ := carries_append.mp hm
    obtain ⟨Q, way, hloop, hsub, howns, habove⟩ := ih hkids hnrow
    have hlabels : s.row P = [] ++ (shape (f ++ .node n kids rest)).labels := by
      rw [labels_shape, hrow, List.nil_append]
    have hnodup := (h.sound.apart hm.unfolds hlabels).1
    rw [shape_preorder] at hnodup
    have hover : s.Over P n.id := h.sound.mem_row.mp (by simp [hrow, rootIds])
    refine ⟨Q, rootIds f ++ n.id :: way, fun fuel hfuel => ?_, ?_, howns.inner hnodup hf hn,
      fun c hc hcQ => ?_⟩
    · have hlen := length_labels_le f
      rw [Forest.size_append, Forest.size] at hfuel
      obtain ⟨fuel, rfl⟩ : ∃ k, fuel = k + 1 + f.labels.length :=
        ⟨fuel - 1 - f.labels.length, by omega⟩
      have hrow' : s.row P = [] ++ (f.labels.map (·.id) ++ n.id :: rootIds rest) := by
        rw [hrow, rootIds_append]
        rfl
      have hspan : (a.element n.id).span = n.span := by rw [element_of_content hncontent]
      have hin : n.id ∉ claimed ∧ (a.element n.id).span.admits span = true := by
        rw [hspan, ← enters_iff, hn]
      have hfirst : (a.links n.id).firstChild = (rootIds kids).head? := by
        rw [(h.links_live (h.sound.inside hover).2).2, hnrow]
      have hpass := descend_pass h hrow' (fun k hk => ⟨hf k hk,
        congrArg Element.span (hfcarries.element (Forest.labels_subset_preorder hk))⟩) (fuel + 1)
      rw [rootIds_append]
      show a.descend claimed span _ P (f.labels.map (·.id) ++ n.id :: rootIds rest).head? = _
      rw [hpass, List.head?_cons, Arena.descend, if_pos hin, hfirst, hloop fuel (by omega)]
      rfl
    · rw [ids_append, ids_node]
      refine List.Sublist.append ((Forest.labels_sublist f).map _) (List.Sublist.cons_cons _ ?_)
      exact hsub.trans (List.sublist_append_left _ _)
    · rcases Relation.ReflTransGen.cases_tail (habove c hc hcQ) with heq | ⟨z, hcz, hz⟩
      · exact absurd (heq ▸ hc) (enters_iff.mp hn).1
      · cases hz.symm.trans hover
        exact hcz

/-! ## Up -/

/-- The way up from a node comes to what is at or above it. -/
theorem Full.climb_from (h : a.Full s) (P : NodeId) (hx : x ∈ s.live) : ∃ found up,
    (∀ fuel, up.length ≤ fuel → a.climb P fuel (some x) = some (found, up)) ∧
      (found = true ↔ Relation.ReflTransGen s.Over P x) ∧ up.Nodup ∧
      ∀ y ∈ up, Relation.ReflTransGen s.Over y x := by
  obtain ⟨rank, hrank⟩ := h.sound.ranked
  -- upwards the ranks grow, but not over the sum of all
  induction hn : (s.live.map rank).sum - rank x using Nat.strongRecOn generalizing x with
  | ind n ih =>
    by_cases hxP : x = P
    · refine ⟨true, [x], fun fuel hfuel => ?_, by simp [hxP, Relation.ReflTransGen.refl],
        List.nodup_singleton x, by simp [Relation.ReflTransGen.refl]⟩
      obtain ⟨fuel, rfl⟩ : ∃ k, fuel = k + 1 := ⟨fuel - 1, by simp at hfuel; omega⟩
      rw [climb, if_pos hxP]
    · have hstep (fuel : Nat) : a.climb P (fuel + 1) (some x) =
          (a.climb P fuel (s.parent x)).map fun r => (r.1, x :: r.2) := by
        rw [climb, if_neg hxP, (h.links_live hx).1]
      cases hparent : s.parent x with
      | none =>
        refine ⟨false, [x], fun fuel hfuel => ?_, ?_, List.nodup_singleton x,
          by simp [Relation.ReflTransGen.refl]⟩
        · obtain ⟨fuel, rfl⟩ : ∃ k, fuel = k + 1 := ⟨fuel - 1, by simp at hfuel; omega⟩
          rw [hstep, hparent]
          cases fuel <;> rfl
        · refine iff_of_false Bool.false_ne_true fun hPx => ?_
          rcases Relation.ReflTransGen.cases_tail hPx with heq | ⟨z, -, hz⟩
          · exact hxP heq
          · cases hparent.symm.trans hz
      | some p =>
        have hp : p ∈ s.live := (h.sound.inside hparent).1
        have hlt := hrank p x hparent
        have hle : rank p ≤ (s.live.map rank).sum :=
          List.single_le_sum (fun _ _ => Nat.zero_le _) _ (List.mem_map_of_mem hp)
        obtain ⟨found, up, hloop, hfound, hnodup, hup⟩ := ih _ (by omega) hp rfl
        refine ⟨found, x :: up, fun fuel hfuel => ?_, hfound.trans ?_, ?_, fun y hy => ?_⟩
        · obtain ⟨fuel, rfl⟩ : ∃ k, fuel = k + 1 := ⟨fuel - 1, by simp at hfuel; omega⟩
          rw [hstep, hparent, hloop fuel (Nat.le_of_succ_le_succ hfuel)]
          rfl
        · refine ⟨fun hPp => hPp.tail hparent, fun hPx => ?_⟩
          rcases Relation.ReflTransGen.cases_tail hPx with heq | ⟨z, hz, hzx⟩
          · exact absurd heq hxP
          · cases hparent.symm.trans hzx
            exact hz
        · refine List.nodup_cons.mpr ⟨fun hmem => ?_, hnodup⟩
          exact h.sound.not_above_self x (Relation.TransGen.tail' (hup x hmem) hparent)
        · rcases List.mem_cons.mp hy with rfl | hy
          · exact .refl
          · exact (hup y hy).tail hparent

/-- The way up from the parent of a node tells whether `P` is above it. -/
theorem Full.climb (h : a.Full s) (P : NodeId) (hx : x ∈ s.live) : ∃ found up,
    (∀ fuel, a.slots.size ≤ fuel → a.climb P fuel (a.links x).parent = some (found, up)) ∧
      (found = true ↔ s.Above P x) ∧ up.Nodup ∧ ∀ y ∈ up, y < a.slots.size := by
  rw [(h.links_live hx).1]
  cases hparent : s.parent x with
  | none =>
    refine ⟨false, [], fun fuel _ => by cases fuel <;> rfl, ?_, .nil, by simp⟩
    refine iff_of_false Bool.false_ne_true fun hPx => ?_
    obtain ⟨z, -, hz⟩ := Relation.TransGen.tail'_iff.mp hPx
    cases hparent.symm.trans hz
  | some p =>
    have hp := (h.sound.inside hparent).1
    obtain ⟨found, up, hloop, hfound, hnodup, hup⟩ := h.climb_from P hp
    have hlive : ∀ y ∈ up, y < a.slots.size := fun y hy => h.mem_live.mp <| by
      rcases Relation.ReflTransGen.cases_head (hup y hy) with rfl | ⟨z, hz, -⟩
      · exact hp
      · exact (h.sound.inside hz).1
    refine ⟨found, up, fun fuel hfuel => hloop fuel
      (Nat.le_trans (length_le_of_nodup hnodup hlive) hfuel), hfound.trans ?_, hnodup, hlive⟩
    refine ⟨fun hPp => Relation.TransGen.tail' hPp hparent, fun hPx => ?_⟩
    obtain ⟨z, hPz, hz⟩ := Relation.TransGen.tail'_iff.mp hPx
    cases hparent.symm.trans hz
    exact hPz

/-- The claimed nodes that are not below `P`, where the row `m` stands. -/
theorem Full.astray (h : a.Full s) (hm : a.Carries s.row m) (hrow : s.row P = m.rootIds)
    (hclaimed : ∀ c ∈ claimed, c < a.slots.size) : ∃ ways,
    (∀ fuel, a.slots.size ≤ fuel →
        a.astray P fuel claimed = some (claimed.filter (· ∉ m.ids), ways)) ∧
      ways.length = claimed.length ∧ ∀ w ∈ ways, w.Nodup ∧ ∀ y ∈ w, y < a.slots.size := by
  have hbelow {c : NodeId} : c ∈ m.ids ↔ s.Above P c := by
    rw [← shape_preorder]
    exact h.sound.mem_preorder ((labels_shape m).trans hrow.symm) hm.unfolds
  induction claimed with
  | nil => exact ⟨[], fun fuel _ => rfl, rfl, by simp⟩
  | cons c claimed ih =>
    obtain ⟨ways, hloop, hlength, hways⟩ := ih fun c hc => hclaimed c (List.mem_cons_of_mem _ hc)
    obtain ⟨found, up, hclimb, hfound, hup⟩ :=
      h.climb P (h.mem_live.mpr (hclaimed c (List.mem_cons_self ..)))
    refine ⟨up :: ways, fun fuel hfuel => ?_, congrArg (· + 1) hlength, fun w hw => ?_⟩
    · rw [Arena.astray, hclimb fuel hfuel, Option.bind_some, hloop fuel hfuel, Option.map_some]
      by_cases hc : c ∈ m.ids
      · rw [List.filter_cons_of_neg (by simp [hc]), if_pos (hfound.mpr (hbelow.mp hc))]
      · rw [List.filter_cons_of_pos (by simp [hc]), if_neg fun hf => hc (hbelow.mpr (hfound.mp hf))]
    · rcases List.mem_cons.mp hw with rfl | hw
      · exact hup
      · exact hways w hw

end Arena

end Standoff
