import Standoff.Proofs.Searches

/-!
# Children of a new node

A new node first stands alone in its row, in front of the first sibling after it.  Then its children
are moved below it one after another, from the row around it and from elsewhere.  What comes of that
is the row with its inner part below the new node, and with strays what `Markup.gather` makes of it.

    f │ g    ──▸    f │ n │ g    ──▸    before │ n │ after
                                               │
                                            inside

* `Markup.inside_deal`, `Markup.exists_halves`: what is inside, and the row without it.
* `Markup.foldl_moveUnder_deal`: the children from the row.
* `Markup.foldl_moveUnder_withBelow`: moves within a row below a node.
* `Markup.foldl_moveUnder_again`: children that are moved once more.
* `Arena.Stores.moveUnder`, `Arena.Stores.adoptAll`: moves along links.
-/

namespace Standoff

namespace Markup

variable {m f g N kids rest : Markup} {n : Node} {t u : Tree Node} {x P Q : NodeId}
  {claimed xs ys : List NodeId} {span : Span} {passed : Bool}

/-! ## Rows in parts -/

theorem without_congr (h : ∀ x ∈ m.ids, x ∈ xs ↔ x ∈ ys) : without xs m = without ys m := by
  induction m with
  | nil => rfl
  | node n kids rest ihk ihr =>
    simp only [ids_node, List.mem_cons, List.mem_append] at h
    rw [without_node, without_node, ihk fun x hx => h x (.inr (.inl hx)),
      ihr fun x hx => h x (.inr (.inr hx))]
    exact if_congr (h n.id (.inl rfl)) rfl rfl

/-- What the deal of a row makes of its first tree: it goes inside, or the row ends there, or it
stands after the span, or before it. -/
theorem deal_cases (claimed : List NodeId) (span : Span) (passed : Bool) (n : Node)
    (kids rest : Markup) :
    deal claimed span passed (.node n kids rest) =
        { deal claimed span passed rest with
          inside := .node n kids (deal claimed span passed rest).inside } ∨
      deal claimed span passed (.node n kids rest) = ⟨.nil, .nil, .node n kids rest⟩ ∨
      deal claimed span passed (.node n kids rest) =
        { deal claimed span true rest with
          after := .node n kids (deal claimed span true rest).after } ∨
      passed = false ∧ deal claimed span passed (.node n kids rest) =
        { deal claimed span false rest with
          before := .node n kids (deal claimed span false rest).before } := by
  by_cases hc : n.id ∈ claimed
  · exact .inl (deal_claimed _ hc)
  · have hother (hside : n.span.side span ≠ .inside ∧ n.span.side span ≠ .after) :
        deal claimed span passed (.node n kids rest) =
          if passed then { deal claimed span passed rest with
            after := .node n kids (deal claimed span passed rest).after }
          else { deal claimed span passed rest with
            before := .node n kids (deal claimed span passed rest).before } := by
      rw [deal, if_neg hc]
      cases hs : n.span.side span with
      | inside => exact absurd hs hside.1
      | after => exact absurd hs hside.2
      | before => rfl
      | crossing pos => rfl
    cases hside : n.span.side span with
    | inside => exact .inl (deal_inside _ hc hside)
    | after =>
      cases hbeyond : n.span.isBeyond span with
      | true => exact .inr (.inl (deal_beyond _ hc hside hbeyond))
      | false => exact .inr (.inr (.inl (deal_after _ hc hside hbeyond)))
    | before | crossing pos =>
      have heq := hother ⟨by simp [hside], by simp [hside]⟩
      cases passed with
      | true => exact .inr (.inr (.inl heq))
      | false => exact .inr (.inr (.inr ⟨rfl, heq⟩))

/-- What is inside is trees of the row. -/
theorem inside_deal (claimed : List NodeId) (span : Span) (passed : Bool) (hm : m.ids.Nodup) :
    let inside := (deal claimed span passed m).inside
    inside.ids.Sublist m.ids ∧ inside.rootIds.Sublist m.rootIds ∧
      ∀ x ∈ inside.ids, m.node? x = inside.node? x := by
  induction m generalizing passed with
  | nil => exact ⟨List.Sublist.refl _, List.Sublist.refl _, by simp [deal]⟩
  | node n kids rest _ ih =>
    obtain ⟨-, hnr, -, hr, hkr⟩ := nodup_node.mp hm
    have hskip {inside : Markup} (hids : inside.ids.Sublist (ids rest))
        (hroots : inside.rootIds.Sublist (rootIds rest))
        (hfound : ∀ x ∈ inside.ids, node? rest x = inside.node? x) :
        inside.ids.Sublist (ids (.node n kids rest)) ∧
          inside.rootIds.Sublist (rootIds (.node n kids rest)) ∧
          ∀ x ∈ inside.ids, node? (.node n kids rest) x = inside.node? x := by
      refine ⟨?_, hroots.cons _, fun x hx => ?_⟩
      · rw [ids_node]
        exact (hids.trans (List.sublist_append_right _ _)).cons _
      · have hxr := hids.subset hx
        have hne : n.id ≠ x := fun heq => hnr (heq ▸ hxr)
        rw [node?_node, if_neg hne, node?_eq_none_iff.mpr fun hk => hkr x hk hxr, Option.none_or,
          hfound x hx]
    rcases deal_cases claimed span passed n kids rest with h | h | h | ⟨-, h⟩
    · obtain ⟨hids, hroots, hfound⟩ := ih passed hr
      simp only [h]
      refine ⟨?_, hroots.cons_cons _, fun x hx => ?_⟩
      · rw [ids_node, ids_node]
        exact ((List.Sublist.refl _).append hids).cons_cons _
      · rw [ids_node, List.mem_cons, List.mem_append] at hx
        rw [node?_node, node?_node]
        split
        · rfl
        · next hne =>
          rcases hx with hx | hx | hx
          · exact absurd hx.symm hne
          · obtain ⟨t, ht⟩ := exists_node? hx
            rw [ht, Option.some_or, Option.some_or]
          · rw [hfound x hx]
    · simp only [h]
      exact ⟨List.nil_sublist _, List.nil_sublist _, by simp⟩
    · simp only [h]
      obtain ⟨hids, hroots, hfound⟩ := ih true hr
      exact hskip hids hroots hfound
    · simp only [h]
      obtain ⟨hids, hroots, hfound⟩ := ih false hr
      exact hskip hids hroots hfound

/-- A tree that stays when some nodes of the rest of its row go. -/
theorem without_kept (hm : (ids (.node n kids rest)).Nodup)
    (hxs : ∀ x ∈ ids (.node n kids rest), x ∈ xs ↔ x ∈ ys) (hys : ys ⊆ ids rest) :
    n.id ∉ xs ∧ without xs kids = kids ∧ ∀ x ∈ ids rest, x ∈ xs ↔ x ∈ ys := by
  obtain ⟨-, hnr, -, -, hkr⟩ := nodup_node.mp hm
  simp only [ids_node, List.mem_cons, List.mem_append] at hxs
  exact ⟨fun hmem => hnr (hys ((hxs n.id (.inl rfl)).mp hmem)),
    without_of_disjoint fun x hx hk => hkr x hk (hys ((hxs x (.inr (.inl hk))).mp hx)),
    fun x hx => hxs x (.inr (.inr hx))⟩

/-- A tree that goes with some nodes of the rest of its row. -/
theorem without_gone (hm : (ids (.node n kids rest)).Nodup)
    (hxs : ∀ x ∈ ids (.node n kids rest), x ∈ xs ↔ x ∈ n.id :: ys) :
    n.id ∈ xs ∧ ∀ x ∈ ids rest, x ∈ xs ↔ x ∈ ys := by
  obtain ⟨-, hnr, -, -, -⟩ := nodup_node.mp hm
  simp only [ids_node, List.mem_cons, List.mem_append] at hxs
  refine ⟨(hxs n.id (.inl rfl)).mpr (.inl rfl), fun x hx => ?_⟩
  have hne : x ≠ n.id := fun heq => hnr (heq ▸ hx)
  rw [hxs x (.inr (.inr hx)), or_iff_right hne]

/-- Once a sibling lies after the span, all stays there that does not go inside. -/
theorem after_deal (claimed : List NodeId) (span : Span) (hm : m.ids.Nodup)
    (hxs : ∀ x ∈ m.ids, x ∈ xs ↔ x ∈ (deal claimed span true m).inside.rootIds) :
    (deal claimed span true m).before = .nil ∧ without xs m = (deal claimed span true m).after := by
  induction m with
  | nil => exact ⟨rfl, rfl⟩
  | node n kids rest _ ih =>
    have hr := (nodup_node.mp hm).2.2.2.1
    have hsub : (deal claimed span true rest).inside.rootIds ⊆ ids rest := fun x hx =>
      mem_ids_of_rootIds ((inside_deal claimed span true hr).2.1.subset hx)
    rcases deal_cases claimed span true n kids rest with h | h | h | ⟨hfalse, -⟩
    · rw [h] at hxs ⊢
      obtain ⟨hn, hxs⟩ := without_gone hm hxs
      obtain ⟨hbefore, hafter⟩ := ih hr hxs
      exact ⟨hbefore, by rw [without_node, if_pos hn, hafter]⟩
    · rw [h] at hxs ⊢
      exact ⟨rfl, without_of_disjoint fun x hx hmem => List.not_mem_nil ((hxs x hmem).mp hx)⟩
    · rw [h] at hxs ⊢
      obtain ⟨hn, hkids, hxs⟩ := without_kept hm hxs hsub
      obtain ⟨hbefore, hafter⟩ := ih hr hxs
      exact ⟨hbefore, by rw [without_node, if_neg hn, hkids, hafter]⟩
    · cases hfalse

/-- The row in two halves, the second one from the first sibling after the span on, and what is left
of them when the nodes that go inside are gone. -/
theorem exists_halves (claimed : List NodeId) (span : Span) (hm : m.ids.Nodup)
    (hxs : ∀ x ∈ m.ids, x ∈ xs ↔ x ∈ (deal claimed span false m).inside.rootIds) :
    ∃ f g, m = f ++ g ∧ g.rootIds.head? = (deal claimed span false m).after.rootIds.head? ∧
      without xs f = (deal claimed span false m).before ∧
      without xs g = (deal claimed span false m).after := by
  induction m with
  | nil => exact ⟨.nil, .nil, rfl, rfl, rfl, rfl⟩
  | node n kids rest _ ih =>
    have hr := (nodup_node.mp hm).2.2.2.1
    have hsub (passed : Bool) : (deal claimed span passed rest).inside.rootIds ⊆ ids rest :=
      fun x hx => mem_ids_of_rootIds ((inside_deal claimed span passed hr).2.1.subset hx)
    rcases deal_cases claimed span false n kids rest with h | h | h | ⟨-, h⟩
    · rw [h] at hxs ⊢
      obtain ⟨hn, hxs⟩ := without_gone hm hxs
      obtain ⟨f, g, hfg, hhead, hf, hg⟩ := ih hr hxs
      exact ⟨.node n kids f, g, by rw [hfg]; rfl, hhead, by rw [without_node, if_pos hn, hf], hg⟩
    · rw [h] at hxs ⊢
      exact ⟨.nil, .node n kids rest, rfl, rfl, rfl,
        without_of_disjoint fun x hx hmem => List.not_mem_nil ((hxs x hmem).mp hx)⟩
    · rw [h] at hxs ⊢
      obtain ⟨hn, hkids, hxs⟩ := without_kept hm hxs (hsub true)
      obtain ⟨hbefore, hafter⟩ := after_deal claimed span hr hxs
      exact ⟨.nil, .node n kids rest, rfl, rfl, hbefore.symm,
        by rw [without_node, if_neg hn, hkids, hafter]⟩
    · rw [h] at hxs ⊢
      obtain ⟨hn, hkids, hxs⟩ := without_kept hm hxs (hsub false)
      obtain ⟨f, g, hfg, hhead, hf, hg⟩ := ih hr hxs
      exact ⟨.node n kids f, g, by rw [hfg]; rfl, hhead,
        by rw [without_node, if_neg hn, hkids, hf], hg⟩

/-! ## Children from the row -/

theorem perm_ids_foldl_moveUnder (h : Movable P xs m) :
    (ids (xs.foldl (moveUnder P) m)).Perm m.ids := (perm_foldl_moveUnder h).map _

/-- A new node takes what is inside from the row around it. -/
theorem foldl_moveUnder_deal (claimed : List NodeId) (span : Span) (hm : m.ids.Nodup)
    (hn : n.id ∉ m.ids) : ∃ f g, m = f ++ g ∧
      g.rootIds.head? = (deal claimed span false m).after.rootIds.head? ∧
      Movable n.id (deal claimed span false m).inside.rootIds (f ++ .node n .nil g) ∧
      (deal claimed span false m).inside.rootIds.foldl (moveUnder n.id) (f ++ .node n .nil g) =
        (deal claimed span false m).before ++
          .node n (deal claimed span false m).inside (deal claimed span false m).after := by
  obtain ⟨hids, hroots, hfound⟩ := inside_deal claimed span false hm
  obtain ⟨d, hd⟩ : ∃ d, d = deal claimed span false m := ⟨_, rfl⟩
  obtain ⟨f, g, hfg, hhead, hf, hg⟩ := exists_halves claimed span hm fun _ _ => Iff.rfl
  rw [← hd] at hids hroots hfound hhead hf hg ⊢
  have hnodup := hids.nodup hm
  have hnew : n.id ∉ d.inside.ids := fun hmem => hn (hids.subset hmem)
  have hperm : (ids (f ++ .node n .nil g)).Perm (n.id :: m.ids) := by
    rw [hfg, ids_append, ids_append, ids_node]
    exact List.perm_middle
  -- the trees from inside stand in the row as they do there
  have hstands {x : NodeId} (hx : x ∈ d.inside.ids) :
      node? (f ++ .node n .nil g) x = d.inside.node? x := by
    have hne : n.id ≠ x := fun heq => hnew (heq ▸ hx)
    rw [← hfound x hx, hfg, node?_append, node?_append, node?_node, if_neg hne, node?_nil,
      Option.none_or]
  have hmovable : Movable n.id d.inside.rootIds (f ++ .node n .nil g) := by
    refine ⟨hperm.nodup_iff.mpr (List.nodup_cons.mpr ⟨hn, hm⟩), by simp, fun x hx => ?_⟩
    obtain ⟨t, ht⟩ := exists_node? (mem_ids_of_rootIds hx)
    exact ⟨t, (hstands (mem_ids_of_rootIds hx)).trans ht, fun hmem => hnew (treeIds_subset ht hmem)⟩
  refine ⟨f, g, hfg, hhead, hmovable, ?_⟩
  have hdedup : d.inside.rootIds.dedup = d.inside.rootIds :=
    List.dedup_eq_self.mpr (hnodup.sublist ((Forest.labels_sublist _).map _))
  have hbared : bared (f ++ .node n .nil g) d.inside.rootIds d.inside.rootIds = d.inside := by
    have hall := bared_row hnodup (fun x hx => hstands hx) (fun x hx _ => hx) fun _ => true
    rwa [Forest.keep_of_all fun _ _ => rfl] at hall
  have hn' : n.id ∉ d.inside.rootIds := fun hmem => hnew (mem_ids_of_rootIds hmem)
  rw [foldl_moveUnder hmovable, hdedup, hbared, without_append, without_node, if_neg hn', hf, hg,
    without_nil, adopting_append, adopting_node, if_pos rfl,
    adopting_of_not_mem fun hmem => hn ?_, adopting_of_not_mem fun hmem => hn ?_, Forest.nil_append]
  all_goals rw [hfg, ids_append, List.mem_append]
  · exact .inr ((without_sublist _ g).subset (hg ▸ hmem))
  · exact .inl ((without_sublist _ f).subset (hf ▸ hmem))

/-! ## Moves below a node -/

theorem without_withBelow (hxs : ∀ x ∈ xs, x ∉ m.ids) :
    without xs (withBelow Q g m) = withBelow Q (without xs g) m := by
  induction m with
  | nil => rfl
  | node n kids rest ihk ihr =>
    simp only [ids_node, List.mem_cons, List.mem_append, not_or] at hxs
    have hn : n.id ∉ xs := fun hmem => (hxs _ hmem).1 rfl
    rw [withBelow_node, withBelow_node, without_node, if_neg hn, ihr fun x hx => (hxs x hx).2.2]
    split
    · rfl
    · rw [ihk fun x hx => (hxs x hx).2.1]

theorem adopting_withBelow (hP : P ∉ m.ids) (f : Markup) :
    adopting P f (withBelow Q g m) = withBelow Q (adopting P f g) m := by
  induction m with
  | nil => rfl
  | node n kids rest ihk ihr =>
    simp only [ids_node, List.mem_cons, List.mem_append, not_or] at hP
    rw [withBelow_node, withBelow_node, adopting_node, if_neg (Ne.symm hP.1), ihr hP.2.2]
    split
    · rfl
    · rw [ihk hP.2.1]

/-- Another row below `Q` leaves the trees that `Q` is not in. -/
theorem node?_withBelow_apart (hm : m.ids.Nodup) (hu : m.node? x = some u) (hQu : Q ∉ treeIds u)
    (hx : x ∉ g.ids) (hQ : ∀ v, m.node? Q = some v → x ∉ ids v.children) :
    (withBelow Q g m).node? x = some u := by
  induction m with
  | nil => cases hu
  | node n kids rest ihk ihr =>
    obtain ⟨hnk, hnr, hk, hr, hkr⟩ := nodup_node.mp hm
    rw [node?_node] at hu
    rw [withBelow_node, node?_node]
    split at hu
    · next hn =>
      cases hu
      rw [treeIds_eq, List.mem_cons, not_or] at hQu
      rw [if_pos hn, if_neg (Ne.symm hQu.1), withBelow_of_not_mem hQu.2]
    · next hn =>
      rw [if_neg hn]
      by_cases hnQ : n.id = Q
      · have hnone : node? kids x = none :=
          node?_eq_none_iff.mpr (hQ ⟨n, kids⟩ (by rw [node?_node, if_pos hnQ]))
        rw [hnone, Option.none_or] at hu
        rw [if_pos hnQ, node?_eq_none_iff.mpr hx, Option.none_or,
          withBelow_of_not_mem (m := rest) (hnQ ▸ hnr), hu]
      · rw [if_neg hnQ]
        rcases Option.or_eq_some_iff.mp hu with hu | ⟨hnone, hu⟩
        · rw [ihk hk hu fun v hv => hQ v (by rw [node?_node, if_neg hnQ, hv, Option.some_or]),
            Option.some_or]
        · have hkids : node? (withBelow Q g kids) x = none := node?_eq_none_iff.mpr fun hmem =>
            (mem_ids_withBelow hmem).elim (node?_eq_none_iff.mp hnone) hx
          rw [hkids, Option.none_or, ihr hr hu fun v hv => hQ v ?_]
          have hQk : Q ∉ ids kids := fun hmem => hkr Q hmem (mem_of_node? hv)
          rw [node?_node, if_neg hnQ, node?_eq_none_iff.mpr hQk, Option.none_or, hv]

section Below

variable (hQ : Q ∈ N.ids) (hP : P ∉ N.ids) (hxs : ∀ x ∈ xs, x ∉ N.ids)
  (hm : (ids (withBelow Q g N)).Nodup)

include hQ hP hxs hm

/-- What can be moved in a row can be moved where the row is below a node. -/
theorem Movable.withBelow (h : Movable P xs g) : Movable P xs (.withBelow Q g N) := by
  refine ⟨hm, ?_, fun x hx => ?_⟩
  · obtain ⟨t, ht⟩ := exists_node? h.parent
    exact mem_of_node? ((node?_withBelow_new hP hQ).trans ht)
  · obtain ⟨t, ht, hPt⟩ := h.tree x hx
    exact ⟨t, (node?_withBelow_new (hxs x hx) hQ).trans ht, hPt⟩

/-- Moves within a row below a node. -/
theorem foldl_moveUnder_withBelow (h : Movable P xs g) :
    xs.foldl (moveUnder P) (.withBelow Q g N) = .withBelow Q (xs.foldl (moveUnder P) g) N := by
  have houter := h.withBelow hQ hP hxs hm
  rw [foldl_moveUnder houter, foldl_moveUnder h, without_withBelow hxs, adopting_withBelow hP]
  congr 1
  refine congrArg (adopting P · _) (bared_congr fun y hy => ?_)
  obtain ⟨t, ht, -⟩ := h.tree y (List.mem_dedup.mp hy)
  exact ⟨t, (node?_withBelow_new (hxs y (List.mem_dedup.mp hy)) hQ).trans ht, ht, rfl⟩

end Below

/-! ## Moves once more -/

/-- Nodes that are moved later need not be moved before. -/
theorem foldl_moveUnder_again (h : Movable P ys m) (hxs : xs ⊆ ys) :
    ys.foldl (moveUnder P) (xs.foldl (moveUnder P) m) = ys.foldl (moveUnder P) m := by
  have hmem {x : NodeId} : x ∈ xs ++ ys ↔ x ∈ ys :=
    ⟨fun hx => (List.mem_append.mp hx).elim (fun hx => hxs hx) fun hx => hx,
      fun hx => List.mem_append_right _ hx⟩
  have hboth : Movable P (xs ++ ys) m := ⟨h.nodup, h.parent, fun x hx => h.tree x (hmem.mp hx)⟩
  rw [← List.foldl_append, foldl_moveUnder hboth, foldl_moveUnder h,
    List.Subset.dedup_append_right hxs, without_congr fun _ _ => hmem]
  congr 1
  refine bared_congr fun y hy => ?_
  obtain ⟨t, ht, -⟩ := h.tree y (List.mem_dedup.mp hy)
  exact ⟨t, ht, ht, without_congr fun _ _ => hmem⟩

end Markup

/-! ## Moves along links -/

namespace Arena

open Document Markup

variable {a b : Arena} {s t : Family} {row row' : NodeId → List NodeId} {m g : Markup}
  {u : Tree Node} {x y P : NodeId} {xs : List NodeId} {doc : Document}

theorem rootIds_without (hm : m.rootIds.Nodup) : rootIds (without [x] m) = m.rootIds.erase x := by
  induction m with
  | nil => rfl
  | node n kids rest _ ih =>
    obtain ⟨hn, hrest⟩ := List.nodup_cons.mp hm
    show _ = (n.id :: rootIds rest).erase x
    rw [without_one_node]
    split
    · next heq => rw [ih hrest, heq, List.erase_cons_head, List.erase_of_not_mem (heq ▸ hn)]
    · next hne =>
      rw [List.erase_cons_tail (by simpa using hne), ← ih hrest]
      rfl

theorem rootIds_adopting (P : NodeId) (g m : Markup) : rootIds (adopting P g m) = m.rootIds := by
  induction m with
  | nil => rfl
  | node n kids rest _ ih =>
    rw [adopting_node]
    split <;> exact congrArg (n.id :: ·) ih

/-- A tree is taken out. -/
theorem Carries.without (h : a.Carries row m) (hm : m.ids.Nodup)
    (hx : ∀ y ∈ m.ids, row' y = (row y).erase x ∧ b.content y = a.content y) :
    b.Carries row' (.without [x] m) := by
  induction m with
  | nil => trivial
  | node n kids rest ihk ihr =>
    obtain ⟨⟨hrow, hcontent⟩, hkids, hrest⟩ := h
    obtain ⟨-, -, hk, hr, -⟩ := nodup_node.mp hm
    simp only [ids_node, List.mem_cons, List.mem_append] at hx
    obtain ⟨hn₁, hn₂⟩ := hx n.id (.inl rfl)
    have hrest := ihr hrest hr fun y hy => hx y (.inr (.inr hy))
    rw [without_one_node]
    split
    · exact hrest
    · refine ⟨⟨?_, hn₂.trans hcontent⟩, ihk hkids hk fun y hy => hx y (.inr (.inl hy)), hrest⟩
      rw [hn₁, hrow, rootIds_without (hk.sublist ((Forest.labels_sublist kids).map _))]

/-- A node has more children. -/
theorem Carries.adopting (h : a.Carries row m) (hm : m.ids.Nodup) (hg : b.Carries row' g)
    (hP : row' P = row P ++ rootIds g)
    (hx : ∀ y ∈ m.ids, (y ≠ P → row' y = row y) ∧ b.content y = a.content y) :
    b.Carries row' (.adopting P g m) := by
  induction m with
  | nil => trivial
  | node n kids rest ihk ihr =>
    obtain ⟨⟨hrow, hcontent⟩, hkids, hrest⟩ := h
    obtain ⟨hnk, -, hk, hr, -⟩ := nodup_node.mp hm
    simp only [ids_node, List.mem_cons, List.mem_append] at hx
    obtain ⟨hn₁, hn₂⟩ := hx n.id (.inl rfl)
    have hrest := ihr hrest hr fun y hy => hx y (.inr (.inr hy))
    rw [adopting_node]
    split
    · next hn =>
      refine ⟨⟨?_, hn₂.trans hcontent⟩, carries_append.mpr ⟨hkids.congr fun y hy => ?_, hg⟩, hrest⟩
      · rw [hn, hP, ← hn, hrow, rootIds_append]
      · obtain ⟨hy₁, hy₂⟩ := hx y (.inr (.inl hy))
        exact ⟨hy₁ fun heq => hnk (hn.trans heq.symm ▸ hy), hy₂⟩
    · next hn =>
      refine ⟨⟨?_, hn₂.trans hcontent⟩, ihk hkids hk fun y hy => hx y (.inr (.inl hy)), hrest⟩
      rw [hn₁ hn, hrow, rootIds_adopting]

namespace Stores

variable (h : a.Stores s doc)
include h

/-- A tree of the document is what is at or below a node. -/
theorem mem_treeIds (hu : doc.markup.node? x = some u) :
    y ∈ treeIds u ↔ Relation.ReflTransGen s.Over x y := by
  obtain ⟨hrow, hcarries⟩ := h.carries.row_of_node? hu
  rw [treeIds_eq, (node?_spec hu).1, List.mem_cons, ← shape_preorder,
    h.sound.mem_preorder ((labels_shape _).trans hrow.symm) hcarries.unfolds,
    Relation.reflTransGen_iff_eq_or_transGen]
  exact Iff.rfl

/-- A node is moved below another one, behind the children there. -/
theorem moveUnder (hP : P ∈ doc.markup.ids) (hu : doc.markup.node? x = some u)
    (hPu : P ∉ treeIds u) :
    ∃ t, ((a.detach x).append P x).Stores t
      { doc with markup := Markup.moveUnder P doc.markup x } := by
  have hlive {y : NodeId} (hy : y ∈ doc.markup.ids) : y < a.slots.size :=
    h.size ▸ (h.mem_ids.mp hy).2
  obtain ⟨p, l₁, l₂, hp⟩ := h.exists_row (mem_of_node? hu)
  have hover : s.Over p x := h.sound.mem_row.mp (hp ▸ by simp)
  obtain ⟨t, hfull, halike, hrow⟩ := h.toFull.move hover (h.mem_live.mpr (hlive hP))
    (fun hxP => hPu ((h.mem_treeIds hu).mpr hxP)) (List.append_nil ((s.row P).erase x)).symm
  have hnodup := h.rooted.nodup
  have hmoved := moveUnder_eq (P := P) hnodup hu
  refine ⟨t, hfull, halike.size.trans h.size, halike.names.trans h.names, ?_,
    (halike.content rootId).trans h.whole, ?_⟩
  · have hne : rootId ≠ P := fun heq => (h.mem_ids.mp hP).1 heq.symm
    rw [hrow, if_neg hne, h.root, hmoved, rootIds_adopting,
      rootIds_without (hnodup.sublist ((Forest.labels_sublist _).map _))]
  · show Carries _ t.row (Markup.moveUnder P doc.markup x)
    rw [hmoved]
    have hwithout : a.Carries (fun y => (s.row y).erase x) (.without [x] doc.markup) :=
      h.carries.without hnodup fun y _ => ⟨rfl, rfl⟩
    have htree : Carries _ t.row (Forest.ofTree u) := (h.carries.tree hu).congr fun y hy => by
      have hy : y ∈ treeIds u := hy
      have hxy : x ∉ s.row y := fun hmem => by
        cases (h.sound.mem_row.mp hmem).symm.trans hover
        exact h.sound.not_above_self x (Relation.TransGen.tail' ((h.mem_treeIds hu).mp hy) hover)
      have hne : y ≠ P := fun heq => hPu (heq ▸ hy)
      exact ⟨by rw [hrow, if_neg hne, List.erase_of_not_mem hxy], halike.content y⟩
    refine hwithout.adopting (nodup_without hnodup) htree ?_ fun y _ =>
      ⟨fun hne => by rw [hrow, if_neg hne], halike.content y⟩
    rw [hrow, if_pos rfl]
    show _ = _ ++ [u.label.id]
    rw [(node?_spec hu).1]

/-- Nodes are moved below another one, one after another. -/
theorem adoptAll (hxs : Movable P xs doc.markup) :
    ∃ t, (a.adoptAll P xs).Stores t
      { doc with markup := xs.foldl (Markup.moveUnder P) doc.markup } := by
  induction xs generalizing a s doc with
  | nil => exact ⟨s, h⟩
  | cons x xs ih =>
    obtain ⟨u, hu, hPu⟩ := hxs.tree x (List.mem_cons_self ..)
    obtain ⟨t, ht⟩ := h.moveUnder hxs.parent hu hPu
    rw [Arena.adoptAll, List.foldl_cons, List.foldl_cons]
    exact ih ht hxs.step

end Stores

end Arena

end Standoff
