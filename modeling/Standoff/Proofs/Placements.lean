import Standoff.Proofs.Adoptions
import Standoff.Proofs.Reaches

/-!
# Placement along links

A placement along links ends.  No loop comes to a node twice, not even to nodes that a cut puts into
the row behind the cursor, so the slots before the placement say how much fuel is enough.  What it
leaves behind is the arena of the document that the placement in place makes.

* `Arena.Stores.insertLeaf`, `Arena.Stores.settle`: the new node and its children.
* `Arena.Visited.Within`: nodes that the loops come to, and how many.
* `Document.WellFormed.loops_end`: placements and cuts end.
-/

namespace Standoff

namespace Markup

variable {m g : Markup} {u : Tree Node} {x Q : NodeId}

theorem perm_insertInOrder (p : NodeId × Span) (ps : List (NodeId × Span)) :
    (insertInOrder p ps).Perm (p :: ps) := by
  induction ps with
  | nil => exact .refl _
  | cons q ps ih =>
    rw [insertInOrder]
    split
    · exact .refl _
    · exact (ih.cons q).trans (.swap ..)

theorem perm_inOrder (ps : List (NodeId × Span)) : (inOrder ps).Perm ps := by
  induction ps with
  | nil => exact .refl _
  | cons p ps ih => exact (perm_insertInOrder p _).trans (ih.cons p)

/-- What is below a node is gone when nothing is left below it. -/
theorem not_mem_withBelow_nil (hm : m.ids.Nodup) (hu : m.node? Q = some u)
    (hx : x ∈ ids u.children) : x ∉ ids (withBelow Q .nil m) := by
  induction m with
  | nil => cases hu
  | node n kids rest ihk ihr =>
    obtain ⟨hnk, hnr, hk, hr, hkr⟩ := nodup_node.mp hm
    have hin {f : Markup} (hf : f.node? Q = some u) : x ∈ f.ids :=
      treeIds_subset hf (treeIds_eq u ▸ List.mem_cons_of_mem _ hx)
    have hout {f : Markup} (hf : x ∉ f.ids) : x ∉ ids (withBelow Q .nil f) := fun hmem =>
      (mem_ids_withBelow hmem).elim hf List.not_mem_nil
    rw [node?_node] at hu
    rw [withBelow_node, ids_node, List.mem_cons, List.mem_append, not_or, not_or]
    split at hu
    · next hn =>
      cases hu
      rw [if_pos hn]
      exact ⟨fun heq => hnk (heq ▸ hx), List.not_mem_nil, hout (hkr x hx)⟩
    · next hn =>
      rw [if_neg hn]
      rcases Option.or_eq_some_iff.mp hu with hu | ⟨-, hu⟩
      · exact ⟨fun heq => hnk (heq ▸ hin hu), ihk hk hu, hout (hkr x (hin hu))⟩
      · exact ⟨fun heq => hnr (heq ▸ hin hu), hout fun hmem => hkr x hmem (hin hu), ihr hr hu⟩

end Markup

namespace Edit

open Document Markup

variable {w : Edit} {Q : NodeId} {g : Growth}

theorem below_setBelow (hQ : Q = rootId ∨ Q ∈ w.document.markup.ids) :
    (w.setBelow Q g).document.below Q = g.markup := by
  by_cases hQ0 : Q = rootId
  · subst hQ0
    simp only [setBelow, Document.below, if_pos]
  · obtain ⟨u, hu⟩ := exists_node? (hQ.resolve_left hQ0)
    simp only [setBelow, Document.below, if_neg hQ0, node?_withBelow hu]

theorem known_setBelow (hQ : Q = rootId ∨ Q ∈ w.document.markup.ids) :
    Q = rootId ∨ Q ∈ (w.setBelow Q g).document.markup.ids := by
  by_cases hQ0 : Q = rootId
  · exact .inl hQ0
  · obtain ⟨u, hu⟩ := exists_node? (hQ.resolve_left hQ0)
    simp only [setBelow, if_neg hQ0]
    exact .inr (mem_of_node? (node?_withBelow hu))

/-- The row that the search ends in, changed twice with new names in between. -/
theorem Site.setBelow_twice {P : NodeId} {claimed : List NodeId} {span : Span}
    (h : w.Site claimed span P Q) (names : List String) (g k : Growth) :
    let plug (g : Growth) : Growth :=
      ⟨(site claimed span (w.document.below P)).plug g.markup, g.supply⟩
    ((w.setBelow P (plug g)).intern names).setBelow P (plug k) =
      ((w.setBelow Q g).intern names).setBelow Q k := by
  intro plug
  rw [intern_setBelow, intern_setBelow]
  exact congrArg (·.intern names) (h.setBelow k)

end Edit

/-! ## The new node and its children -/

namespace Arena

open Document Markup

theorem mem_brood {a : Arena} {l strays : List NodeId} {x : NodeId} :
    x ∈ a.brood l strays ↔ x ∈ l ∨ x ∈ strays := by
  cases strays with
  | nil => simp [brood]
  | cons c rest =>
    show x ∈ (inOrder _).map (·.1) ↔ _
    rw [((perm_inOrder _).map (·.1)).mem_iff]
    simp

/-- The children in their order, as the mark-up tells their spans. -/
theorem brood_eq {a : Arena} {m : Markup} {l strays : List NodeId} (hne : strays ≠ [])
    (hspan : ∀ x ∈ l ++ strays, ∃ t, m.node? x = some t ∧ t.label.span = (a.element x).span) :
    a.brood l strays = (inOrder ((l ++ strays).filterMap fun x =>
      (m.node? x).map fun t => (x, t.label.span))).map (·.1) := by
  obtain ⟨c, rest, rfl⟩ := List.exists_cons_of_ne_nil hne
  have hmembers : (l ++ c :: rest).filterMap (fun x => (m.node? x).map fun t => (x, t.label.span)) =
      (l ++ c :: rest).map fun x => (x, (a.element x).span) := by
    rw [← List.filterMap_eq_map]
    refine List.filterMap_congr fun x hx => ?_
    obtain ⟨t, ht, hs⟩ := hspan x hx
    rw [ht, Option.map_some, hs]
    rfl
  rw [hmembers]
  rfl

section Settling

variable {a : Arena} {s : Family} {w : Edit} {P Q x : NodeId} {u : Tree Node} {e : Element}
  {f g : Markup} {claimed strays : List NodeId}

/-- The arena knows more names. -/
theorem Stores.intern (h : a.Stores s w.document) (names : List String) :
    ({ a with names := a.names.internAll names } : Arena).Stores s (w.intern names).document :=
  ⟨⟨h.toKeeps.names _, h.free, h.loose⟩, h.size, by rw [h.names]; rfl, h.root, h.whole,
    h.carries.congr fun _ _ => ⟨rfl, rfl⟩⟩

namespace Stores

variable (h : a.Stores s w.document) (hQ : Q = rootId ∨ Q ∈ w.document.markup.ids)
include h hQ

theorem not_mem_below :
    Q ∉ ids (w.document.below Q) ∧ w.document.next ∉ ids (w.document.below Q) := by
  obtain ⟨hrow, hcarries⟩ := h.below hQ
  obtain ⟨-, hout, hlt⟩ := h.toFull.apart hcarries (hrow.trans (List.nil_append _).symm)
  exact ⟨hout, fun hmem => Nat.lt_irrefl _ (h.size ▸ hlt _ hmem)⟩

/-- A new node without children, in front of `g`. -/
theorem insertLeaf (hfg : w.document.below Q = f ++ g) (e : Element) :
    (a.alloc { element := e }).2 = w.document.next ∧
      ∃ t, ((a.alloc { element := e }).1.insertBefore Q g.rootIds.head? w.document.next).Stores t
        (w.setBelow Q ⟨f ++ .node ⟨e, w.document.next⟩ .nil g, w.supply.take⟩).document := by
  obtain ⟨hrow, hcarries⟩ := h.below hQ
  obtain ⟨-, hout, hlt⟩ := h.toFull.apart hcarries (hrow.trans (List.nil_append _).symm)
  have hnew : a.slots.size ∉ s.live := fun hmem => Nat.lt_irrefl _ (h.live_lt hmem)
  have hQlive : Q ∈ s.live := hQ.elim (fun hQ => hQ ▸ h.root_live) fun hQ =>
    h.mem_live.mpr (h.size ▸ (h.mem_ids.mp hQ).2)
  have hQne : Q ≠ a.slots.size := fun heq => hnew (heq ▸ hQlive)
  obtain ⟨hid, hbsize, hbfree, hnames, hslot⟩ := alloc_last h.free { element := e }
  have hkeeps := h.toKeeps.alloc (show ({ element := e } : Slot).links = {} from rfl)
  obtain ⟨b, hb⟩ : ∃ b, b = (a.alloc { element := e }).1 := ⟨_, rfl⟩
  rw [hid] at hkeeps
  rw [← hb] at hkeeps hbsize hbfree hnames hslot
  have hsplit : s.row Q = f.rootIds ++ g.rootIds := by rw [hrow, hfg, rootIds_append]
  have hlinked := h.toFull.link_new hkeeps hbfree hnew hQlive hsplit
  have halike := alike_insertBefore b Q g.rootIds.head? a.slots.size
  have hcontent {x : NodeId} (hx : x < a.slots.size) : b.content x = a.content x := by
    rw [content, hslot, if_neg (Nat.ne_of_lt hx)]
    rfl
  have htrow {x : NodeId} (hx : x ≠ Q) :
      ((s.alloc a.slots.size).join Q a.slots.size (f.rootIds ++ a.slots.size :: g.rootIds)).row x =
        s.row x := Function.update_of_ne hx _ _
  have hkept := hcarries.congr (b := b.insertBefore Q g.rootIds.head? a.slots.size) fun x hx =>
    ⟨htrow fun heq => hout (heq ▸ hx), (halike.content x).trans (hcontent (hlt x hx))⟩
  rw [hfg, carries_append] at hkept
  rw [← hb, hid, ← h.size]
  refine ⟨rfl, _, h.setBelow hQ hlinked ⟨?_, ?_, fun x _ hx => ?_, fun x hx _ => ?_⟩ ?_
    (carries_append.mpr ⟨hkept.1, ⟨?_, ?_⟩, trivial, hkept.2⟩) ?_⟩
  · rw [halike.size, hbsize]
    exact Nat.le_succ _
  · exact halike.names.trans hnames
  · exact htrow fun heq => hx (heq ▸ List.mem_cons_self ..)
  · exact (halike.content x).trans (hcontent hx)
  · rw [rootIds_append]
    exact Function.update_self ..
  · refine (htrow hQne.symm).trans (List.eq_nil_iff_forall_not_mem.mpr fun y hy => ?_)
    exact hnew (h.owner_live hy)
  · rw [halike.content, content, hslot, if_pos rfl]
    rfl
  · rw [halike.size, hbsize, h.size]
    rfl

/-- The mark-up around the row below `Q`. -/
theorem exists_around (hQ0 : Q ≠ rootId) : ∃ N : Markup, Q ∈ N.ids ∧
    (∀ k, (w.setBelow Q k).document.markup = withBelow Q k.markup N) ∧
    ∀ x, x ∉ w.document.markup.ids ∨ x ∈ ids (w.document.below Q) → x ∉ N.ids := by
  obtain ⟨u, hu⟩ := exists_node? (hQ.resolve_left hQ0)
  have hbelow : w.document.below Q = u.children := by rw [Document.below, if_neg hQ0, hu]
  refine ⟨withBelow Q .nil w.document.markup, mem_of_node? (node?_withBelow hu), fun k => ?_,
    fun x hx => ?_⟩
  · rw [withBelow_withBelow]
    simp only [Edit.setBelow, if_neg hQ0]
  · rcases hx with hx | hx
    · exact fun hmem => hx ((mem_ids_withBelow hmem).resolve_right List.not_mem_nil)
    · exact not_mem_withBelow_nil h.rooted.nodup hu (hbelow ▸ hx)

/-- A new node is found in the row that it has come into. -/
theorem node?_new {k : Growth} (hx : x ∉ w.document.markup.ids) :
    (w.setBelow Q k).document.markup.node? x = k.markup.node? x := by
  by_cases hQ0 : Q = rootId
  · simp only [Edit.setBelow, if_pos hQ0]
  · obtain ⟨N, hQN, hN, hout⟩ := h.exists_around hQ hQ0
    rw [hN, node?_withBelow_new (hout x (.inl hx)) hQN]

omit hQ in
/-- A stray is found as before. -/
theorem node?_stray {k : Growth} (hu : w.document.markup.node? x = some u) (hQu : Q ∉ treeIds u)
    (hx : x ∉ ids (w.document.below Q)) (hk : x ∉ k.markup.ids) :
    (w.setBelow Q k).document.markup.node? x = some u := by
  have hQ0 : Q ≠ rootId := fun heq => by
    rw [heq, Document.below, if_pos rfl] at hx
    exact hx (mem_of_node? hu)
  simp only [Edit.setBelow, if_neg hQ0]
  refine node?_withBelow_apart h.rooted.nodup hu hQu hk fun v hv => ?_
  rwa [Document.below, if_neg hQ0, hv] at hx

/-- Moves below a new node within the row below `Q`. -/
theorem moves_below {xs : List NodeId} {k : Growth} (hP : P ∉ w.document.markup.ids)
    (hxs : ∀ x ∈ xs, x ∈ ids (w.document.below Q)) (hmovable : Movable P xs k.markup)
    (hnodup : (w.setBelow Q k).document.markup.ids.Nodup) :
    Movable P xs (w.setBelow Q k).document.markup ∧
      xs.foldl (Markup.moveUnder P) (w.setBelow Q k).document.markup =
        (w.setBelow Q ⟨xs.foldl (Markup.moveUnder P) k.markup, k.supply⟩).document.markup := by
  by_cases hQ0 : Q = rootId
  · simp only [Edit.setBelow, if_pos hQ0]
    exact ⟨hmovable, trivial⟩
  · obtain ⟨N, hQN, hN, hout⟩ := h.exists_around hQ hQ0
    have hxsN : ∀ x ∈ xs, x ∉ N.ids := fun x hx => hout x (.inr (hxs x hx))
    rw [hN] at hnodup
    rw [hN, hN]
    exact ⟨hmovable.withBelow hQN (hout P (.inl hP)) hxsN hnodup,
      foldl_moveUnder_withBelow hQN (hout P (.inl hP)) hxsN hnodup hmovable⟩

/-- A new node that has its children from the row already gathers strays among them. -/
theorem gather_brood {n : Node} {k₀ k₁ : Growth} {inside : Markup}
    (hmovable : Movable n.id (a.brood inside.rootIds strays) (w.setBelow Q k₀).document.markup)
    (hfold : inside.rootIds.foldl (Markup.moveUnder n.id) (w.setBelow Q k₀).document.markup =
      (w.setBelow Q k₁).document.markup)
    (hnode : (w.setBelow Q k₁).document.markup.node? n.id = some ⟨n, inside⟩)
    (hinside : ∀ x ∈ inside.ids, ∃ u, inside.node? x = some u ∧
      (w.document.below Q).node? x = some u)
    (hstrays : ∀ x ∈ strays, ∃ u, w.document.markup.node? x = some u ∧
      (w.setBelow Q k₁).document.markup.node? x = some u) :
    (w.setBelow Q k₁).document.markup.gather n.id strays =
      (a.brood inside.rootIds strays).foldl (Markup.moveUnder n.id)
        (w.setBelow Q k₀).document.markup := by
  by_cases hne : strays = []
  · subst hne
    exact hfold.symm
  · have hroots : inside.rootIds ⊆ a.brood inside.rootIds strays := fun x hx =>
      mem_brood.mpr (.inl hx)
    have hnodup : (w.setBelow Q k₁).document.markup.ids.Nodup := by
      have hmovable₀ : Movable n.id inside.rootIds (w.setBelow Q k₀).document.markup :=
        ⟨hmovable.nodup, hmovable.parent, fun x hx => hmovable.tree x (hroots hx)⟩
      rw [← hfold]
      exact (perm_ids_foldl_moveUnder hmovable₀).nodup_iff.mpr hmovable.nodup
    -- the arena still holds the spans by which the children are put in order
    have hspan : ∀ x ∈ inside.rootIds ++ strays, ∃ u,
        (w.setBelow Q k₁).document.markup.node? x = some u ∧
          u.label.span = (a.element x).span := fun x hx => by
      rcases List.mem_append.mp hx with hx | hx
      · have hx := mem_ids_of_rootIds hx
        obtain ⟨u, hu, hbelow⟩ := hinside x hx
        obtain ⟨hid, hmem⟩ := node?_spec hbelow
        refine ⟨u, (node?_children hnodup hnode hx).trans hu, ?_⟩
        rw [← hid, (h.below hQ).2.element (hmem _ (by simp [Forest.ofTree]))]
      · obtain ⟨u, hu, hnew⟩ := hstrays x hx
        obtain ⟨hid, hmem⟩ := node?_spec hu
        refine ⟨u, hnew, ?_⟩
        rw [← hid, h.carries.element (hmem _ (by simp [Forest.ofTree]))]
    rw [gather_eq hne hnode, ← brood_eq hne hspan, ← hfold, foldl_moveUnder_again hmovable hroots]

/-- The new node goes into the row below `Q`, over what lies inside and over strays. -/
theorem insertOver (e : Element) (claimed : List NodeId) (hstrays : ∀ x ∈ strays,
      x ∉ ids (w.document.below Q) ∧ ∃ u, w.document.markup.node? x = some u ∧ Q ∉ treeIds u)
    {d : Deal} (hd : d = deal claimed e.span false (w.document.below Q)) :
    (a.alloc { element := e }).2 = w.document.next ∧
      ∃ t, (((a.alloc { element := e }).1.insertBefore Q d.after.rootIds.head?
          w.document.next).adoptAll w.document.next (a.brood d.inside.rootIds strays)).Stores t
        ((w.setBelow Q ⟨d.before ++ .node ⟨e, w.document.next⟩ d.inside d.after,
          w.supply.take⟩).gather w.document.next strays).document := by
  obtain ⟨n, hn⟩ : ∃ n : Node, n = ⟨e, w.document.next⟩ := ⟨_, rfl⟩
  have hid : n.id = w.document.next := by rw [hn]
  obtain ⟨hrow, hcarries⟩ := h.below hQ
  have hbelow := (h.ids_below hQ).1
  have hnew : n.id ∉ ids (w.document.below Q) := hid ▸ (h.not_mem_below hQ).2
  have hfresh : n.id ∉ w.document.markup.ids := fun hmem =>
    Nat.lt_irrefl _ (hid ▸ (h.mem_ids.mp hmem).2)
  obtain ⟨hsub, -, hfound⟩ := inside_deal claimed e.span false hbelow
  obtain ⟨f, g, hfg, hhead, hmovable, hfold⟩ := foldl_moveUnder_deal claimed e.span hbelow hnew
  rw [← hd] at hsub hfound hhead hmovable hfold
  have hinside {x : NodeId} (hx : x ∈ d.inside.rootIds) : x ∈ ids (w.document.below Q) :=
    hsub.subset (mem_ids_of_rootIds hx)
  -- the new node alone, and over what lies inside
  obtain ⟨k₀, hk₀⟩ : ∃ k : Growth, k = ⟨f ++ .node n .nil g, w.supply.take⟩ := ⟨_, rfl⟩
  obtain ⟨k₁, hk₁⟩ : ∃ k : Growth, k = ⟨d.before ++ .node n d.inside d.after, w.supply.take⟩ :=
    ⟨_, rfl⟩
  obtain ⟨halloc, t₀, h₀⟩ := h.insertLeaf hQ hfg e
  rw [← hn, ← hk₀, hhead] at h₀
  rw [← hn, ← hk₁]
  obtain ⟨hmov₀, hfold₀⟩ := h.moves_below hQ hfresh (k := k₀) (fun x hx => hinside hx)
    (hk₀ ▸ hmovable) h₀.rooted.nodup
  have hrow₁ : (⟨d.inside.rootIds.foldl (Markup.moveUnder n.id) k₀.markup, k₀.supply⟩ : Growth) =
      k₁ := by
    rw [hk₁, hk₀, ← hfold]
  rw [hrow₁] at hfold₀
  have hperm₀ : k₀.markup.ids.Perm (n.id :: ids (w.document.below Q)) := by
    rw [hk₀, hfg, ids_append, ids_append, ids_node]
    exact List.perm_middle
  have hperm₁ : k₁.markup.ids.Perm (n.id :: ids (w.document.below Q)) := by
    rw [hk₀] at hperm₀
    rw [hk₁, ← hfold]
    exact (perm_ids_foldl_moveUnder hmovable).trans hperm₀
  have hout {x : NodeId} (hx : x ∈ strays) : x ∉ n.id :: ids (w.document.below Q) := by
    obtain ⟨hxbelow, u, hu, -⟩ := hstrays x hx
    rw [List.mem_cons, not_or]
    exact ⟨fun heq => hfresh (heq ▸ mem_of_node? hu), hxbelow⟩
  -- strays come from elsewhere
  have hmovable : Movable n.id (a.brood d.inside.rootIds strays)
      (w.setBelow Q k₀).document.markup := by
    refine ⟨hmov₀.nodup, hmov₀.parent, fun x hx => ?_⟩
    rcases mem_brood.mp hx with hx | hx
    · exact hmov₀.tree x hx
    · obtain ⟨hxbelow, u, hu, hQu⟩ := hstrays x hx
      exact ⟨u, h.node?_stray hu hQu hxbelow (fun hmem => hout hx (hperm₀.mem_iff.mp hmem)),
        fun hmem => hfresh (treeIds_subset hu hmem)⟩
  obtain ⟨t, ht⟩ := h₀.adoptAll hmovable
  have hbefore : n.id ∉ d.before.ids := fun hmem => by
    have hnodup := hperm₁.nodup_iff.mpr (List.nodup_cons.mpr ⟨hnew, hbelow⟩)
    rw [hk₁, ids_append, ids_node] at hnodup
    exact (List.nodup_append.mp hnodup).2.2 n.id hmem n.id (List.mem_cons_self ..) rfl
  have hnode : (w.setBelow Q k₁).document.markup.node? n.id = some ⟨n, d.inside⟩ := by
    rw [h.node?_new hQ hfresh, hk₁, node?_append, node?_eq_none_iff.mpr hbefore, node?_node,
      if_pos rfl, Option.none_or]
  have hgather := h.gather_brood hQ hmovable hfold₀ hnode
    (fun x hx => (exists_node? hx).imp fun v hv => ⟨hv, (hfound x hx).trans hv⟩)
    fun x hx => by
      obtain ⟨hxbelow, u, hu, hQu⟩ := hstrays x hx
      exact ⟨u, hu, h.node?_stray hu hQu hxbelow fun hmem => hout hx (hperm₁.mem_iff.mp hmem)⟩
  refine ⟨halloc, t, ?_⟩
  rw [← hid, Edit.gather, hgather]
  rw [← hid] at ht
  subst hk₀ hk₁
  exact ht

theorem settle (e : Element) (claimed : List NodeId) (hstrays : ∀ x ∈ strays,
      x ∉ ids (w.document.below Q) ∧ ∃ u, w.document.markup.node? x = some u ∧ Q ∉ treeIds u)
    {d : Deal} (hd : d = deal claimed e.span false (w.document.below Q)) :
    (a.settle Q d.after.rootIds.head? e (a.brood d.inside.rootIds strays)).2 = w.document.next ∧
      ∃ t, (a.settle Q d.after.rootIds.head? e (a.brood d.inside.rootIds strays)).1.Stores t
        (((w.intern (namesOf [e])).setBelow Q
          ⟨d.before ++ .node ⟨e, w.document.next⟩ d.inside d.after, w.supply.take⟩).gather
            w.document.next strays).document := by
  obtain ⟨halloc, t, ht⟩ := (h.intern (namesOf [e])).insertOver (w := w.intern (namesOf [e])) hQ e
    claimed hstrays hd
  rw [Arena.settle, Element.rebuilt_eq]
  refine ⟨halloc, t, ?_⟩
  dsimp only
  rw [halloc]
  exact ht

end Stores

end Settling

/-! ## The whole placement -/

section Whole

variable {a : Arena} {s t : Family} {w : Edit} {P Q : NodeId} {e : Element}
  {claimed way late : List NodeId} {balancing : Balancing} {R : Scan}

/-- What the search and the scan leave is the document as the search in place leaves it. -/
theorem Found.searched_eq (hf : a.Found s t w P Q e claimed balancing way R late) :
    w.searched P e claimed balancing = w.setBelow Q
      (Markup.scan claimed e.span balancing (w.document.below Q) w.supply).1 := by
  rw [Edit.searched, hf.site.setBelow ⟨_, _⟩, hf.site.below]

namespace Stores

variable (h : a.Stores s w.document) (hdoc : w.document.WellFormed)
  (hclaims : w.document.ClaimsWithin claimed e.span)
  (hfree : ∀ c ∈ claimed, P ∉ c :: w.document.descendants c)
  (hf : a.Found s t w P Q e claimed balancing way R late)
include h hdoc hclaims hfree hf

/-- Claimed nodes are not over the row. -/
theorem apart_of_claimed {x : NodeId} (hx : x ∈ claimed) :
    ∃ u, w.document.markup.node? x = some u ∧ Q ∉ treeIds u := by
  obtain ⟨u, hu⟩ := exists_node? ((hdoc.claims hclaims).present x hx)
  refine ⟨u, hu, fun hmem => hfree x hx ?_⟩
  have hxP := hf.free x hx ((h.mem_treeIds hu).mp hmem)
  have hmem := (h.mem_treeIds hu).mpr hxP
  rw [treeIds_eq, (node?_spec hu).1] at hmem
  have hx0 : x ≠ rootId := (h.mem_ids.mp (mem_of_node? hu)).1
  rwa [Document.descendants, Document.below, if_neg hx0, hu]

omit h hdoc hclaims hfree in
/-- A placement that comes to a conflict stops where the one in place does. -/
theorem placing_of_conflict {strays : List NodeId} {walks : List (List NodeId)} {n : Node}
    (hclear : w.obstacle? P e.span = none)
    (hcross : (Markup.scan claimed e.span balancing (w.document.below Q) w.supply).2 = some n) :
    let r := R.placing Q e strays way walks
    let run := (InPlace.place P e claimed balancing).run.run w
    r.outcome = run.1 ∧ r.arena = run.2.document.arena := by
  intro r run
  cases balancing with
  | inner =>
    rw [scan_inner] at hcross
    cases hcross
  | strict =>
    have hstores := hf.stores
    rw [hf.searched_eq] at hstores
    have hr : r = { arena := R.arena, outcome := .error ⟨e.name, e.span, .crossing n.name n.span⟩
                    visited := { descent := way, scan := R.visits, splits := R.splits } } := by
      show Scan.placing .. = _
      rw [Scan.placing, hf.scanned.conflict, hcross]
      rfl
    rw [scan_strict] at hcross hstores
    have hn : crossing? claimed e.span (w.document.below P) = some n := by
      rw [crossing?, ← hf.site.below, ← hcross]
    have hrun : run = _ := InPlace.run_place_strict hclear hn
    have hplug := hf.site.setBelow ⟨w.document.below Q, w.supply⟩
    rw [hf.site.below, plug_site] at hplug
    rw [hr, hrun, hplug, ← hf.site.below]
    exact ⟨rfl, hstores.eq_arena⟩

/-- A placement that comes to no conflict settles the new node where the one in place does. -/
theorem placing_of_none {strays : List NodeId} {walks : List (List NodeId)}
    (hstrays : strays = claimed.filter fun x => x ∉ ids (w.document.below Q))
    (hclear : w.obstacle? P e.span = none)
    (hcross : (Markup.scan claimed e.span balancing (w.document.below Q) w.supply).2 = none) :
    let r := R.placing Q e strays way walks
    let run := (InPlace.place P e claimed balancing).run.run w
    r.outcome = run.1 ∧ r.arena = run.2.document.arena := by
  intro r run
  have hstores := hf.stores
  have hread := hf.scanned.read hcross
  obtain ⟨g, hg⟩ : ∃ g, g = cutCrossing claimed e.span (w.document.below Q) w.supply := ⟨_, rfl⟩
  have hscan := scan_of_none hcross
  rw [← hg] at hscan
  rw [hf.searched_eq, hscan] at hstores
  rw [hscan] at hread
  obtain ⟨d, hd⟩ : ∃ d, d = deal claimed e.span false g.markup := ⟨_, rfl⟩
  obtain ⟨hinside, hanchor⟩ : R.inside = d.inside.rootIds ∧ R.anchor = d.after.rootIds.head? := by
    obtain ⟨hinside, hanchor⟩ := Scan.readAll_deal claimed e.span { arena := a } g.markup
    rw [hd]
    exact ⟨hread.1.trans hinside, hread.2.trans hanchor⟩
  have hr : r = { arena := (R.arena.settle Q R.anchor e (R.arena.brood R.inside strays)).1
                  outcome := .ok (R.arena.settle Q R.anchor e (R.arena.brood R.inside strays)).2
                  visited := { descent := way, scan := R.visits, splits := R.splits
                               walks := walks } } := by
    show Scan.placing .. = _
    rw [Scan.placing, hf.scanned.conflict, hcross]
    rfl
  -- the new node
  have hbelow : (w.setBelow Q g).document.below Q = g.markup := Edit.below_setBelow hf.site.known
  have helsewhere : ∀ x ∈ strays, x ∉ ids ((w.setBelow Q g).document.below Q) ∧
      ∃ u, (w.setBelow Q g).document.markup.node? x = some u ∧ Q ∉ treeIds u := fun x hx => by
    rw [hstrays, List.mem_filter, decide_eq_true_eq] at hx
    obtain ⟨v, hv, hQv⟩ := h.apart_of_claimed hdoc hclaims hfree hf hx.1
    have hlt : x < w.supply.next := (h.mem_ids.mp (mem_of_node? hv)).2
    have hxg : x ∉ g.markup.ids := fun hmem => by
      rw [← hscan] at hmem
      exact hx.2 ((mem_ids_scan hlt).mp hmem)
    exact ⟨hbelow ▸ hxg, v, h.node?_stray hv hQv hx.2 hxg, hQv⟩
  obtain ⟨hid, u, hsettled⟩ := hstores.settle (Edit.known_setBelow hf.site.known) e claimed
    helsewhere (hd.trans (by rw [hbelow]))
  -- the placement in place
  have hstrict : balancing = .strict → crossing? claimed e.span (w.document.below P) = none := by
    rintro rfl
    rw [scan_strict] at hcross
    rw [crossing?, ← hf.site.below]
    exact hcross
  have hrun : run = _ := (InPlace.run_bind_ok (InPlace.run_check_none hclear)).trans <|
    (InPlace.run_bind_ok (InPlace.run_search hstrict)).trans (InPlace.run_settle _ _)
  rw [← hf.site.below, ← hg, ← hd, ← hstrays] at hrun
  have htwice := hf.site.setBelow_twice (namesOf [e]) g
    ⟨d.before ++ .node ⟨e, g.supply.next⟩ d.inside d.after, g.supply.take⟩
  dsimp only at htwice
  rw [htwice] at hrun
  rw [hr, hrun, hinside, hanchor]
  exact ⟨congrArg Except.ok hid, hsettled.eq_arena⟩

/-- The placement along links is the one in place. -/
theorem placing_eq (hclear : w.obstacle? P e.span = none) (walks : List (List NodeId)) :
    let r := R.placing Q e (claimed.filter fun x => x ∉ ids (w.document.below Q)) way walks
    let run := (InPlace.place P e claimed balancing).run.run w
    r.outcome = run.1 ∧ r.arena = run.2.document.arena := by
  cases hcross : (Markup.scan claimed e.span balancing (w.document.below Q) w.supply).2 with
  | some n => exact placing_of_conflict hf hclear hcross
  | none => exact h.placing_of_none hdoc hclaims hfree hf rfl hclear hcross

end Stores

end Whole

/-! ## How much the loops visit -/

namespace Visited

/-- The loops come to slots below `bound` only. -/
structure Within (v : Visited) (bound : Nat) : Prop where
  descent : ∀ x ∈ v.descent, x < bound
  scan : ∀ x ∈ v.scan, x < bound
  splits : ∀ p ∈ v.splits, p.1 < bound ∧ p.2 < bound
  walks : ∀ w ∈ v.walks, ∀ x ∈ w, x < bound

/-- No loop comes to more than `bound` nodes: the loops of the cuts for each of `bound` nodes that
are cut, the ways up each for itself. -/
structure AtMost (v : Visited) (bound : Nat) : Prop where
  descent : v.descent.length ≤ bound
  scan : v.scan.length ≤ bound
  levels : (v.splits.map (·.1)).dedup.length ≤ bound
  splits : ∀ level, (v.splits.filter (·.1 = level)).length ≤ bound
  walks : ∀ w ∈ v.walks, w.length ≤ bound

theorem Within.mono {v : Visited} {bound bound' : Nat} (h : v.Within bound) (hle : bound ≤ bound') :
    v.Within bound' where
  descent x hx := Nat.lt_of_lt_of_le (h.descent x hx) hle
  scan x hx := Nat.lt_of_lt_of_le (h.scan x hx) hle
  splits p hp :=
    ⟨Nat.lt_of_lt_of_le (h.splits p hp).1 hle, Nat.lt_of_lt_of_le (h.splits p hp).2 hle⟩
  walks w hw x hx := Nat.lt_of_lt_of_le (h.walks w hw x hx) hle

/-- What is not visited twice is not visited often. -/
theorem Once.atMost {v : Visited} {bound : Nat} (h : v.Once) (hin : v.Within bound) :
    v.AtMost bound where
  descent := length_le_of_nodup h.descent hin.descent
  scan := length_le_of_nodup h.scan hin.scan
  levels := length_le_of_nodup (List.nodup_dedup _) fun x hx => by
    obtain ⟨p, hp, rfl⟩ := List.mem_map.mp (List.mem_dedup.mp hx)
    exact (hin.splits p hp).1
  splits level := by
    have hlevel {p : NodeId × NodeId} (hp : p ∈ v.splits.filter (·.1 = level)) :
        p ∈ v.splits ∧ p.1 = level := by simpa using hp
    rw [← List.length_map (f := (·.2))]
    refine length_le_of_nodup ?_ fun x hx => ?_
    · refine (h.splits.filter _).map_on fun p hp q hq heq => ?_
      exact Prod.ext ((hlevel hp).2.trans (hlevel hq).2.symm) heq
    · obtain ⟨p, hp, rfl⟩ := List.mem_map.mp hx
      exact (hin.splits p (hlevel hp).1).2
  walks w hw := length_le_of_nodup (h.walks w hw) (hin.walks w hw)

end Visited

section Ends

variable {a : Arena} {s t : Family} {w : Edit} {doc : Document} {P Q x : NodeId} {e : Element}
  {claimed way late : List NodeId} {balancing : Balancing} {R : Scan} {u : Tree Node}

theorem upTo_same (r : Placing) (late : List NodeId) (reach : Reach) :
    (r.upTo late reach).arena = r.arena ∧ (r.upTo late reach).outcome = r.outcome := by
  cases reach <;> exact ⟨rfl, rfl⟩

/-- What the loops of a placement come to. -/
theorem visited_placing (R : Scan) (Q : NodeId) (e : Element) (strays way : List NodeId)
    (walks : List (List NodeId)) (late : List NodeId) (reach : Reach) : ∃ l ws,
      ((R.placing Q e strays way walks).upTo late reach).visited =
        { descent := way, scan := R.visits ++ l, splits := R.splits, walks := ws } ∧
      l <+: late ∧ (ws = [] ∨ ws = walks) := by
  cases hconflict : R.conflict <;> cases reach <;>
    simp only [Placing.upTo, Scan.placing, hconflict]
  · exact ⟨[], walks, by rw [List.append_nil], List.nil_prefix, .inr rfl⟩
  · exact ⟨late, walks, rfl, List.prefix_refl _, .inr rfl⟩
  · exact ⟨[], [], by rw [List.append_nil], List.nil_prefix, .inl rfl⟩
  · exact ⟨late, [], rfl, List.prefix_refl _, .inl rfl⟩

/-- The loops of a placement come to no node twice. -/
theorem Found.visited (hf : a.Found s t w P Q e claimed balancing way R late)
    (h : a.Stores s w.document) (hP : P = rootId ∨ P ∈ w.document.markup.ids)
    {strays : List NodeId} {walks : List (List NodeId)}
    (hwalks : ∀ v ∈ walks, v.Nodup ∧ ∀ y ∈ v, y < R.arena.slots.size) (reach : Reach) {v : Visited}
    (heq : v = ((R.placing Q e strays way walks).upTo late reach).visited) :
    v.Once ∧ v.Within R.arena.slots.size ∧ v.walks.length ≤ walks.length := by
  obtain ⟨l, ws, hvisited, hl, hws⟩ := visited_placing R Q e strays way walks late reach
  have hgrown : w.document.next ≤ R.arena.slots.size := h.size ▸ hf.scanned.frame.size
  obtain ⟨hnodup, hin⟩ := h.ids_below hP
  have hlt {y : NodeId} (hy : y ∈ w.document.markup.ids) : y < R.arena.slots.size :=
    Nat.lt_of_lt_of_le (h.mem_ids.mp hy).2 hgrown
  -- the scan goes along the row
  obtain ⟨v, hv, hprefix⟩ := hf.scanned.visits
  have hrow : (R.visits ++ l).Sublist (t.row Q) := by
    rw [hv, List.nil_append, hf.scanned.outer, List.nil_append]
    exact (((List.prefix_append_right_inj v).mpr hl).trans hprefix).sublist
  obtain ⟨sp, hsp, hspnodup, hspin⟩ := hf.scanned.splits
  obtain ⟨-, -, hscanned⟩ := hf.scanned.toFull.apart hf.scanned.carries hf.scanned.outer
  have hwalks : ∀ v ∈ ws, v.Nodup ∧ ∀ y ∈ v, y < R.arena.slots.size := by
    rcases hws with rfl | rfl
    · simp
    · exact hwalks
  have hfew : ws.length ≤ walks.length := by
    rcases hws with rfl | rfl
    · exact Nat.zero_le _
    · exact Nat.le_refl _
  rw [heq, hvisited, hsp, List.nil_append]
  refine ⟨⟨hf.way.nodup hnodup, hrow.nodup (hf.scanned.sound.row_nodup Q), hspnodup,
    fun v hv => (hwalks v hv).1⟩, ⟨fun y hy => hlt (hin y (hf.way.subset hy)),
    fun y hy => hf.scanned.row_lt (hrow.subset hy), fun p hp => ⟨?_, hscanned _ (hspin p hp).2⟩,
    fun v hv => (hwalks v hv).2⟩, hfew⟩
  exact hlt ((h.ids_below hf.site.known).2 _ (hspin p hp).1)

/-- A placement ends. -/
theorem Stores.place_ends (h : a.Stores s w.document) (hP : P = rootId ∨ P ∈ w.document.markup.ids)
    (hdoc : w.document.WellFormed) (hclaims : w.document.ClaimsWithin claimed e.span)
    (balancing : Balancing) (reach : Reach) : ∃ r : Placing,
      (∀ fuel : Nat, 2 * w.document.next ≤ fuel →
        a.place w.document.text.length P e claimed balancing reach fuel = some r) ∧
      r.visited.Once ∧ r.visited.Within (2 * w.document.next) ∧
      r.visited.walks.length ≤ claimed.length ∧
      ((∀ c ∈ claimed, P ∉ c :: w.document.descendants c) →
        let run := (InPlace.place P e claimed balancing).run.run w
        r.outcome = run.1 ∧ r.arena = run.2.document.arena) := by
  cases hclear : w.obstacle? P e.span with
  | some reason =>
    have hobstacle := (h.obstacle?_eq hP e.span).trans hclear
    refine ⟨{ arena := a, outcome := .error ⟨e.name, e.span, reason⟩ }, fun fuel _ => ?_,
      ⟨.nil, .nil, .nil, by simp⟩, ⟨by simp, by simp, by simp, by simp⟩, Nat.zero_le _, fun _ => ?_⟩
    · simp only [Arena.place, hobstacle]
    · intro run
      have hrun : run = _ := InPlace.run_place_of_obstacle hclear
      rw [hrun]
      exact ⟨rfl, h.eq_arena⟩
  | none =>
    obtain ⟨Q, t, way, R, late, hf⟩ := h.found hP hdoc hclear hclaims balancing
    obtain ⟨walks, hplace, hlength, hwalks⟩ := h.place_found hP hdoc hclear hclaims hf
    obtain ⟨honce, hin, hfew⟩ := hf.visited h hP hwalks reach rfl
    obtain ⟨harena, houtcome⟩ := upTo_same (R.placing Q e _ way walks) late reach
    refine ⟨_, hplace reach, honce, hin.mono (h.size_found hP hdoc hclear hclaims hf),
      hlength ▸ hfew, fun hfree => ?_⟩
    rw [harena, houtcome]
    exact h.placing_eq hdoc hclaims hfree hf hclear walks

/-- A cut ends. -/
theorem Stores.split_ends (h : a.Stores s doc) (hdoc : doc.WellFormed)
    (hu : doc.markup.node? x = some u) (pos : Nat) : ∃ cut : Halves,
      (∀ fuel, 2 * doc.next ≤ fuel → a.split pos fuel x = some cut) ∧
      cut.arena.slots.size ≤ 2 * doc.next ∧ cut.visits.Nodup ∧
      ∀ v ∈ cut.visits, v.1 ∈ treeIds u ∧ v.2 < cut.arena.slots.size := by
  obtain ⟨Q, l₁, l₂, hrow⟩ := h.exists_row (mem_of_node? hu)
  have hid := (node?_spec hu).1
  obtain ⟨b, t, visits, hsplit, -, hsize, -, -, hframe, hnodup, hvisits⟩ :=
    cutsTree pos u.label u.children h.toFull (hid.symm ▸ hrow) (h.carries.tree hu)
      (show (⟨doc.next, []⟩ : Supply).next = _ from h.size.symm)
  have hsub : ∀ y ∈ treeIds u, y < doc.next := fun y hy => (h.mem_ids.mp (treeIds_subset hu hy)).2
  have hlength : u.children.size + 1 ≤ doc.next := by
    have hlength := length_le_of_nodup (nodup_treeIds h.rooted.nodup hu) hsub
    rwa [treeIds_eq, List.length_cons, ids, List.length_map, Forest.length_preorder] at hlength
  rw [hid] at hsplit
  refine ⟨⟨b, a.slots.size, visits⟩, fun fuel hfuel => hsplit fuel ?_, ?_, hnodup,
    fun v hv => ⟨treeIds_eq u ▸ (hvisits v hv).1, ?_⟩⟩
  · exact Nat.le_trans (Nat.mul_le_mul_left 2 (Nat.le_of_succ_le hlength)) hfuel
  · have hnests := (nests_node.mp (hdoc.nests_ofTree hu)).2.1
    have hfew : (holding pos u.children).length ≤ u.children.size :=
      Nat.le_trans (List.length_filter_le ..) (Nat.le_of_eq (Forest.length_preorder _))
    show b.slots.size ≤ _
    rw [hsize, next_divide hnests, Nat.two_mul]
    show doc.next + 1 + _ ≤ _
    rw [Nat.add_assoc, Nat.add_comm 1]
    exact Nat.add_le_add_left (Nat.le_trans (Nat.succ_le_succ hfew) hlength) _
  · rcases mem_ids_divide.mp (hvisits v hv).2 with hmem | ⟨-, hlt⟩
    · have hlt := hsub v.2 (treeIds_eq u ▸ List.mem_cons_of_mem _ hmem)
      exact Nat.lt_of_lt_of_le (h.size ▸ hlt) hframe.size
    · exact hsize ▸ hlt

end Ends

end Arena

namespace Document

open Markup

variable {doc : Document}

namespace WellFormed

variable (h : doc.WellFormed)
include h

/-- Placements and cuts end.  Fuel for twice as many nodes as there are slots is enough, more of it
changes nothing, and no loop comes to a node twice.  Unless `P` is claimed, or below a claimed node,
a placement leaves the arena of the document that the placement in place makes. -/
theorem loops_end :
    (∀ {P : NodeId} {e : Element} {claimed : List NodeId},
      (P = rootId ∨ P ∈ doc.markup.ids) → doc.ClaimsWithin claimed e.span →
      ∀ (balancing : Balancing) (reach : Reach), ∃ r : Arena.Placing,
        (∀ fuel : Nat, 2 * doc.arena.slotCount ≤ fuel →
          doc.arena.place doc.text.length P e claimed balancing reach fuel = some r) ∧
        (∀ (fuel : Nat) (r' : Arena.Placing),
          doc.arena.place doc.text.length P e claimed balancing reach fuel = some r' → r' = r) ∧
        r.visited.Once ∧ r.visited.Within (2 * doc.arena.slotCount) ∧
        r.visited.AtMost (2 * doc.arena.slotCount) ∧ r.visited.walks.length ≤ claimed.length ∧
        ((∀ c ∈ claimed, P ∉ c :: doc.descendants c) →
          r.outcome = (doc.perform (InPlace.place P e claimed balancing)).outcome ∧
          r.arena = (doc.perform (InPlace.place P e claimed balancing)).target.arena)) ∧
    ∀ x ∈ doc.markup.ids, ∀ pos : Nat, ∃ cut : Arena.Halves,
      (∀ fuel : Nat, 2 * doc.arena.slotCount ≤ fuel → doc.arena.split pos fuel x = some cut) ∧
      (∀ (fuel : Nat) (cut' : Arena.Halves), doc.arena.split pos fuel x = some cut' → cut' = cut) ∧
      cut.visits.Nodup ∧ cut.arena.slotCount ≤ 2 * doc.arena.slotCount ∧
      ∀ v ∈ cut.visits, v.1 ∈ x :: doc.descendants x ∧ v.2 < cut.arena.slotCount := by
  obtain ⟨s, hs⟩ := h.stores
  have hslots : doc.arena.slotCount = doc.next := hs.size
  rw [hslots]
  refine ⟨fun {P e claimed} hP hclaims balancing reach => ?_, fun x hx pos => ?_⟩
  · obtain ⟨r, hr, honce, hin, hwalks, hrun⟩ :=
      hs.place_ends (w := { document := doc }) hP h hclaims balancing reach
    refine ⟨r, hr, fun fuel r' hr' => ?_, honce, hin, honce.atMost hin, hwalks, hrun⟩
    exact Option.some.inj ((Arena.place_more hr' (Nat.le_max_left ..)).symm.trans
      (hr _ (Nat.le_max_right ..)))
  · obtain ⟨u, hu⟩ := exists_node? hx
    obtain ⟨cut, hcut, hsize, hnodup, hvisits⟩ := hs.split_ends h hu pos
    refine ⟨cut, hcut, fun fuel cut' hcut' => ?_, hnodup, hsize, fun v hv => ⟨?_, (hvisits v hv).2⟩⟩
    · exact Option.some.inj ((Arena.split_more hcut' (Nat.le_max_left ..)).symm.trans
        (hcut _ (Nat.le_max_right ..)))
    · exact h.descendants_of_node? hu ▸ (hvisits v hv).1

omit h in
/-- One element crosses the start, and behind the marker that is claimed another one follows. -/
theorem loops_end_marker :
    let host := Session.apply (ofText "abcdefgh")
      [.addSpan "a" ⟨0, 3⟩, .addSpan "b" ⟨3, 4⟩, .addSpan "m" ⟨5, 5⟩, .addSpan "c" ⟨5, 5⟩,
        .addSpan "d" ⟨5, 7⟩, .addSpan "f" ⟨7, 8⟩]
    let e : Element := ⟨"p", ⟨1, 5⟩, {}⟩
    host.WellFormed ∧ host.ClaimsWithin [4] e.span ∧ (∀ c ∈ [4], rootId ∉ c :: host.descendants c) ∧
      (∃ r : Arena.Placing, (∀ fuel : Nat, 2 * host.arena.slotCount ≤ fuel →
          host.arena.place host.text.length rootId e [4] .inner .needed fuel = some r) ∧
        r.visited.Once ∧ r.visited.AtMost 14 ∧ r.outcome = .ok 8 ∧
        r.arena = (host.perform (InPlace.insert e [4] .inner)).target.arena) ∧
      1 ∈ host.markup.ids ∧ ∃ cut : Arena.Halves, (∀ fuel : Nat, 2 * host.arena.slotCount ≤ fuel →
        host.arena.split 2 fuel 1 = some cut) ∧ cut.visits.Nodup := by
  intro host e
  have h : host.WellFormed :=
    (Session.wellFormed_apply (wellFormed_ofText "abcdefgh") (by decide +kernel)).1
  have hclaims : host.ClaimsWithin [4] e.span := by decide +kernel
  have hfree : ∀ c ∈ [4], rootId ∉ c :: host.descendants c := by decide +kernel
  have hx : 1 ∈ host.markup.ids := by decide +kernel
  have hslots : 2 * host.arena.slotCount = 14 := by decide +kernel
  obtain ⟨hplace, hsplit⟩ := h.loops_end
  obtain ⟨r, hr, -, honce, -, hfew, -, hrun⟩ := hplace (.inl rfl) hclaims .inner .needed
  obtain ⟨houtcome, harena⟩ := hrun hfree
  obtain ⟨cut, hcut, -, hnodup, -⟩ := hsplit 1 hx 2
  exact ⟨h, hclaims, hfree, ⟨r, hr, honce, hslots ▸ hfew, houtcome.trans (by decide +kernel), harena⟩,
    hx, cut, hcut, hnodup⟩

end WellFormed

end Document

end Standoff
