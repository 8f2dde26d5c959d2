import Standoff.Markup.Merge
import Standoff.Proofs.Gathering

/-! # Growth of mark-up

Insertions and merges make mark-up grow: it keeps nesting in the same bounds, keeps every number,
and uses each number that was taken from the supply once.

* `Markup.Grows`: growth from one state to another.
* `Markup.Insertable.grows`: an insertion makes mark-up grow.
* `Markup.grows_mergeRow`: so does the merge of a row of trees. -/

namespace Standoff

namespace Markup

variable {lo hi : Nat} {m m' : Markup} {s s' : Supply} {claimed : List NodeId} {e : Element}
  {balancing : Balancing}

/-- Mark-up `m` with supply `s` has grown to `m'` with supply `s'`. -/
structure Grows (lo hi : Nat) (m : Markup) (s : Supply) (m' : Markup) (s' : Supply) : Prop where
  nests : Nests lo hi m'
  le : s.Le s'
  count : ∀ x, m'.ids.count x = m.ids.count x + s.taken s' x

theorem Grows.refl (h : Nests lo hi m) (s : Supply) : Grows lo hi m s m s :=
  ⟨h, .refl s, fun x => by rw [Supply.taken_self]; rfl⟩

theorem Grows.trans {m'' : Markup} {s'' : Supply} (h₁ : Grows lo hi m s m' s')
    (h₂ : Grows lo hi m' s' m'' s'') : Grows lo hi m s m'' s'' := by
  refine ⟨h₂.nests, h₁.le.trans h₂.le, fun x => ?_⟩
  have := Supply.taken_add h₁.le h₂.le x
  rw [h₂.count, h₁.count]
  omega

/-- The row around the new element nests if what is below it does. -/
theorem nests_newRow {lo' hi' : Nat} {kids : Markup}
    (hrow : Nests lo' hi' (site claimed e.span m).row)
    (hlo : lo' ≤ e.span.start) (hab : e.span.start ≤ e.span.stop) (hhi : e.span.stop ≤ hi')
    (hkids : Nests e.span.start e.span.stop kids) :
    Nests lo' hi' (newRow e claimed m s kids) := by
  obtain ⟨h₁, -, h₃⟩ := hrow.opening hlo hab hhi claimed s
  exact nests_around.mpr ⟨h₁, hkids, h₃⟩

/-- A placement makes mark-up grow if it does so with what lies inside the new element. -/
theorem grows_placed {g : Growth} (hm : Nests lo hi m) (hlo : lo ≤ e.span.start)
    (hab : e.span.start ≤ e.span.stop) (hhi : e.span.stop ≤ hi)
    (hg : Grows e.span.start e.span.stop (opened claimed e.span m s).1.inside
      (opened claimed e.span m s).2.take g.markup g.supply) :
    Grows lo hi m s (placed e claimed m s g).markup g.supply := by
  obtain ⟨lo', hi', hlo', hhi', hrow, hplug⟩ := hm.focus claimed hlo hab hhi
  have hle : s.Le (opened claimed e.span m s).2.take :=
    (opening_le claimed e.span _ s).trans (Supply.le_take _)
  refine ⟨hplug _ (nests_newRow hrow hlo' hab hhi' hg.nests), hle.trans hg.le, fun x => ?_⟩
  have h₁ := count_ids_placed e claimed m s g x
  have h₂ := hg.count x
  have h₃ := Supply.taken_add hle hg.le x
  omega

/-! ## Merges -/

/-- A row of trees that lies in `[lo, hi]`, each tree within its parent. -/
theorem misfit?_eq_none {parent : Span} {kids rest : Forest Element} {f : Element}
    (h : misfit? parent (.node f kids rest) = none) :
    (f.span.start ≤ f.span.stop ∧ parent.start ≤ f.span.start ∧ f.span.stop ≤ parent.stop) ∧
      misfit? f.span kids = none ∧ misfit? parent rest = none := by
  rw [misfit?] at h
  split at h
  · cases h
  · split at h
    · cases h
    · next hord hin =>
      simp [Span.isOrdered, Span.contains] at hord hin
      exact ⟨⟨hord, hin⟩, Option.or_eq_none_iff.mp h⟩

/-- The merge of one tree in a row, and of those to its right. -/
theorem mergeRow_node {kids rest : Forest Element} {g : Growth}
    (h : mergeRow balancing (.node e kids rest) m s = .ok g) :
    ∃ p, m.place e [] balancing (fun inside s => mergeRow balancing kids inside s) s = .ok p ∧
      mergeRow balancing rest p.markup p.supply = .ok g := by
  rw [mergeRow] at h
  split at h
  · cases h
  · exact ⟨_, ‹_›, h⟩

/-- A placement that succeeds puts the new element over the filled inside. -/
theorem place_ok {fill : Markup → Supply → Except MergeConflict Growth} {p : Placement}
    (h : Nests lo hi m) (hlo : lo ≤ e.span.start)
    (hab : e.span.start ≤ e.span.stop) (hhi : e.span.stop ≤ hi) (hclaims : Claims claimed e.span m)
    (hfresh : ∀ c ∈ claimed, c < s.next)
    (hplace : m.place e claimed balancing fill s = .ok p) :
    ∃ inside, fill (opened claimed e.span m s).1.inside (opened claimed e.span m s).2.take =
        .ok inside ∧ p = placed e claimed m s inside := by
  have hstrict : balancing = .strict → crossing? claimed e.span m = none := by
    rintro rfl
    cases hc : crossing? claimed e.span m with
    | none => rfl
    | some n =>
      rw [place_strict_of_crossing hc] at hplace
      cases hplace
  rw [place_eq h hlo hab hhi hclaims hfresh hstrict] at hplace
  cases hfill : fill (opened claimed e.span m s).1.inside (opened claimed e.span m s).2.take with
  | error conflict =>
    rw [hfill] at hplace
    cases hplace
  | ok inside =>
    rw [hfill] at hplace
    cases hplace
    exact ⟨inside, rfl, rfl⟩

/-- Trees merged into mark-up that has room for them make it grow. -/
theorem grows_mergeRow {fs : Forest Element} {g : Growth} (hm : Nests lo hi m)
    (hfs : misfit? ⟨lo, hi⟩ fs = none) (h : mergeRow balancing fs m s = .ok g) :
    Grows lo hi m s g.markup g.supply := by
  induction fs generalizing lo hi m s g with
  | nil =>
    cases h
    exact .refl hm s
  | node f kids rest ihk ihr =>
    obtain ⟨⟨hord, hlo, hhi⟩, hkids, hrest⟩ := misfit?_eq_none hfs
    obtain ⟨p, hp, hg⟩ := mergeRow_node h
    obtain ⟨inside, hin, rfl⟩ := place_ok hm hlo hord hhi claims_nil
      (fun c hc => absurd hc (List.not_mem_nil)) hp
    obtain ⟨lo', hi', hlo', hhi', hrow, -⟩ := hm.focus [] hlo hord hhi
    have hnest := (hrow.opening hlo' hord hhi' [] s).2.1
    have hplaced := grows_placed hm hlo hord hhi (ihk hnest hkids hin)
    exact hplaced.trans (ihr hplaced.nests hrest hg)

/-- The merge of one tree is that of a row. -/
theorem mergeRow_ofTree {t : Tree Element} {p : Placement}
    (h : mergeTree balancing t m s = .ok p) :
    mergeRow balancing (.ofTree t) m s = .ok p.toGrowth := by
  rw [mergeTree] at h
  rw [Forest.ofTree, mergeRow, h]
  rfl

theorem misfit?_ofTree {t : Tree Element} (hlo : lo ≤ t.label.span.start)
    (hord : t.label.span.start ≤ t.label.span.stop) (hhi : t.label.span.stop ≤ hi)
    (hkids : misfit? t.label.span t.children = none) :
    misfit? ⟨lo, hi⟩ (.ofTree t) = none := by
  rw [Forest.ofTree, misfit?, hkids, misfit?]
  simp [Span.isOrdered, Span.contains, hlo, hord, hhi]

/-! ## Insertions -/

theorem gather_nil (m : Markup) (P : NodeId) : m.gather P [] = m := rfl

/-- Below a node that was looked up the row nests in its span. -/
theorem nests_children {x : NodeId} {t : Tree Node} (hm : Nests lo hi m)
    (ht : m.node? x = some t) : Nests t.label.span.start t.label.span.stop t.children := by
  induction m generalizing lo hi with
  | nil => cases ht
  | node n kids rest ihk ihr =>
    obtain ⟨h₁, h₂, h₃⟩ := hm
    rw [node?_node] at ht
    split at ht
    · cases ht
      exact h₂
    · rcases Option.or_eq_some_iff.mp ht with ht | ⟨-, ht⟩
      · exact ihk h₂ ht
      · exact ihr h₃ ht

theorem nests_keep_markerAt {a : Nat} (hm : Nests lo hi m) : Nests a a (m.keep (markerAt a)) := by
  induction m generalizing lo with
  | nil => exact Nat.le_refl a
  | node n kids rest _ ih =>
    obtain ⟨h₁, h₂, h₃⟩ := hm
    have hle := h₂.le
    rw [Forest.keep]
    split
    · next hn =>
      have hspan := markerAt_iff.mp hn
      have hstop : n.span.stop = a := by omega
      refine ⟨by omega, h₂, ?_⟩
      rw [hstop]
      exact ih h₃
    · exact ih h₃

/-- Below strays there are only markers. -/
theorem nests_bared {pos : Nat} (hm : Nests lo hi m) {xs ys : List NodeId}
    (hys : ∀ y ∈ ys, ∃ t, m.node? y = some t ∧ t.label.span = Span.emptyAt pos) :
    Nests pos pos (bared m xs ys) := by
  induction ys with
  | nil => exact Nat.le_refl _
  | cons y ys ih =>
    obtain ⟨t, ht, hspan⟩ := hys y (List.mem_cons_self ..)
    have htree : Nests t.label.span.start t.label.span.stop t.children :=
      nests_children hm ht
    rw [bared, ht]
    refine ⟨?_, htree.prune _, ?_⟩
    · rw [hspan]
      exact Nat.le_refl _
    · rw [hspan]
      exact ih fun z hz => hys z (List.mem_cons_of_mem _ hz)

namespace Insertable

variable (h : Insertable lo hi claimed e m s)
include h

theorem nests_fetched (pos : Nat) : Nests pos pos (fetched claimed e.span m pos) := by
  refine nests_bared h.nests fun y hy => ?_
  obtain ⟨hy, hstands⟩ := List.mem_filter.mp (List.mem_dedup.mp hy)
  obtain ⟨t, ht, -, hspan, -⟩ := h.stray hy
  refine ⟨t, ht, ?_⟩
  rw [standsAt, ht] at hstands
  have hstart : t.label.span.start = pos := by simpa using hstands
  rcases hspan with hspan | hspan
  · rw [hspan] at hstart ⊢
    rw [← hstart]
    rfl
  · rw [hspan] at hstart ⊢
    rw [← hstart]
    rfl

theorem nests_brood :
    Nests e.span.start e.span.stop
      (brood claimed e.span m (opened claimed e.span m s).1.inside) := by
  have hin := h.nests_inside
  have hkeep : Nests e.span.start e.span.start
      ((opened claimed e.span m s).1.inside.keep (markerAt e.span.start)) :=
    nests_keep_markerAt hin
  exact ((hkeep.append (h.nests_fetched _)).append (hin.keep _)).append
    (h.nests_fetched _)

theorem perm_gather (s' : Supply) :
    ((placed e claimed m s ⟨(opened claimed e.span m s).1.inside, s'⟩).markup.gather
        (opened claimed e.span m s).2.next (strays claimed e.span m)).preorder.Perm
      (placed e claimed m s ⟨(opened claimed e.span m s).1.inside, s'⟩).markup.preorder := by
  by_cases hS : strays claimed e.span m = []
  · rw [hS, gather_nil]
  · obtain ⟨x₀, hx₀⟩ := List.exists_mem_of_ne_nil _ hS
    obtain ⟨-, -, hlt, -⟩ := h.stray hx₀
    rw [gather_eq hS (h.node?_placed s'), h.members_eq s', h.inOrder_members hlt h.nests_inside]
    exact perm_foldl_moveUnder (h.movable s' fun x hx => h.mem_order.mp hx)

/-- An insertion makes mark-up grow. -/
theorem grows :
    Grows lo hi m s
      ((placed e claimed m s ⟨(opened claimed e.span m s).1.inside,
          (opened claimed e.span m s).2.take⟩).markup.gather
        (opened claimed e.span m s).2.next (strays claimed e.span m))
      (opened claimed e.span m s).2.take := by
  have hplaced := grows_placed (g := ⟨(opened claimed e.span m s).1.inside,
    (opened claimed e.span m s).2.take⟩) h.nests h.lo_le h.ordered h.le_hi (.refl h.nests_inside _)
  refine ⟨?_, hplaced.le, fun x => ?_⟩
  · rw [gather_placed h]
    have hwithout : Nests lo hi (m.without (strays claimed e.span m)) := h.nests.prune _
    obtain ⟨lo', hi', hlo', hhi', hrow, hplug⟩ :=
      hwithout.focus claimed h.lo_le h.ordered h.le_hi
    rw [row_without] at hrow
    exact hplug _ (nests_newRow hrow hlo' h.ordered hhi' h.nests_brood)
  · rw [← hplaced.count x]
    exact ((h.perm_gather _).map (·.id)).count_eq x

end Insertable

/-! ## What becomes of a node -/

/-- `b` is what is left of `a` under its number. -/
structure Remains (a b : Node) : Prop where
  id : a.id = b.id
  start : a.span.start ≤ b.span.start
  stop : b.span.stop ≤ a.span.stop

theorem Remains.refl (a : Node) : Remains a a := ⟨rfl, Nat.le_refl _, Nat.le_refl _⟩

theorem Remains.trans {a b c : Node} (h₁ : Remains a b) (h₂ : Remains b c) : Remains a c :=
  ⟨h₁.id.trans h₂.id, Nat.le_trans h₁.start h₂.start, Nat.le_trans h₂.stop h₁.stop⟩

/-- What a division leaves under a number that is not new. -/
theorem remains_divide {pos : Nat} {b : Node}
    (hb : b ∈ (divide pos m s).left.preorder ∨ b ∈ (divide pos m s).lifted.preorder ∨
      b ∈ (divide pos m s).right.preorder) (hid : b.id < s.next) :
    ∃ a ∈ m.preorder, Remains a b := by
  induction m generalizing s with
  | nil => simp at hb
  | node n kids rest ihk ihr =>
    have hkeep {t : Supply} (hst : s.next ≤ t.next)
        (hr : b ∈ (divide pos rest t).left.preorder ∨ b ∈ (divide pos rest t).lifted.preorder ∨
          b ∈ (divide pos rest t).right.preorder) :
        ∃ a ∈ (Forest.node n kids rest).preorder, Remains a b := by
      obtain ⟨a, ha, hab⟩ := ihr hr (Nat.lt_of_lt_of_le hid hst)
      exact ⟨a, List.mem_cons_of_mem _ (by simp [Forest.preorderOnto_eq, ha]), hab⟩
    have hself : (b = n ∨ b ∈ kids.preorder) →
        ∃ a ∈ (Forest.node n kids rest).preorder, Remains a b := fun h =>
      ⟨b, by rw [Forest.preorder_node]; simp [h, or_assoc.symm], .refl b⟩
    rcases n.span.lies pos with h | h | h | h
    · have hle := divide_le pos kids (s.cut n pos)
      have hkids (hk : b ∈ (divide pos kids (s.cut n pos)).left.preorder ∨
          b ∈ (divide pos kids (s.cut n pos)).lifted.preorder ∨
          b ∈ (divide pos kids (s.cut n pos)).right.preorder) :
          ∃ a ∈ (Forest.node n kids rest).preorder, Remains a b := by
        obtain ⟨a, ha, hab⟩ := ihk hk (Nat.lt_of_lt_of_le hid (s.le_cut n pos).next)
        exact ⟨a, List.mem_cons_of_mem _ (by simp [Forest.preorderOnto_eq, ha]), hab⟩
      have hnext : s.next ≤ (divide pos kids (s.cut n pos)).supply.next :=
        Nat.le_trans (s.le_cut n pos).next hle.next
      rw [divide_cut h] at hb
      simp only [Forest.preorder_node, Forest.preorder_append, List.mem_cons,
        List.mem_append] at hb
      rcases hb with (rfl | hb | hb) | (hb | hb) | (rfl | hb | hb)
      · exact ⟨n, List.mem_cons_self .., rfl, Nat.le_refl _, Nat.le_of_lt h.2⟩
      · exact hkids (Or.inl hb)
      · exact hkeep hnext (Or.inl hb)
      · exact hkids (Or.inr (Or.inl hb))
      · exact hkeep hnext (Or.inr (Or.inl hb))
      · exact absurd hid (Nat.lt_irrefl _)
      · exact hkids (Or.inr (Or.inr hb))
      · exact hkeep hnext (Or.inr (Or.inr hb))
    · rw [divide_marker h] at hb
      simp only [Forest.preorder_node, List.mem_cons, List.mem_append] at hb
      rcases hb with hb | (hb | hb | hb) | hb
      · exact hkeep (Nat.le_refl _) (Or.inl hb)
      · exact hself (Or.inl hb)
      · exact hself (Or.inr hb)
      · exact hkeep (Nat.le_refl _) (Or.inr (Or.inl hb))
      · exact hkeep (Nat.le_refl _) (Or.inr (Or.inr hb))
    · rw [divide_right h] at hb
      simp only [Forest.preorder_node, List.mem_cons, List.mem_append] at hb
      rcases hb with hb | hb | (hb | hb | hb)
      · exact hkeep (Nat.le_refl _) (Or.inl hb)
      · exact hkeep (Nat.le_refl _) (Or.inr (Or.inl hb))
      · exact hself (Or.inl hb)
      · exact hself (Or.inr hb)
      · exact hkeep (Nat.le_refl _) (Or.inr (Or.inr hb))
    · rw [divide_left h] at hb
      simp only [Forest.preorder_node, List.mem_cons, List.mem_append] at hb
      rcases hb with (hb | hb | hb) | hb | hb
      · exact hself (Or.inl hb)
      · exact hself (Or.inr hb)
      · exact hkeep (Nat.le_refl _) (Or.inl hb)
      · exact hkeep (Nat.le_refl _) (Or.inr (Or.inl hb))
      · exact hkeep (Nat.le_refl _) (Or.inr (Or.inr hb))

theorem mem_keep {p : Node → Bool} {n : Node} (h : n ∈ (m.keep p).preorder) : n ∈ m.preorder :=
  (Forest.preorder_keep_sublist p m).subset h

/-- What an opening leaves under a number that is not new. -/
theorem remains_opening {span : Span} {b : Node}
    (hb : b ∈ (opening claimed span m s).1.before.preorder ∨
      b ∈ (opening claimed span m s).1.inside.preorder ∨
      b ∈ (opening claimed span m s).1.after.preorder) (hid : b.id < s.next) :
    ∃ a ∈ m.preorder, Remains a b := by
  have hright (hr : b ∈ (divide span.stop (divide span.start m s).right
        (divide span.start m s).supply).left.preorder ∨
      b ∈ (divide span.stop (divide span.start m s).right
        (divide span.start m s).supply).lifted.preorder ∨
      b ∈ (divide span.stop (divide span.start m s).right
        (divide span.start m s).supply).right.preorder) : ∃ a ∈ m.preorder, Remains a b := by
    obtain ⟨c, hc, hcb⟩ := remains_divide hr
      (Nat.lt_of_lt_of_le hid (divide_le span.start m s).next)
    obtain ⟨a, ha, hac⟩ := remains_divide (Or.inr (Or.inr hc)) (hcb.id ▸ hid)
    exact ⟨a, ha, hac.trans hcb⟩
  simp only [opening, Forest.preorder_append, List.mem_append, Forest.drop] at hb
  rcases hb with (hb | hb) | ((hb | hb) | hb) | (hb | hb)
  · exact remains_divide (Or.inl hb) hid
  · exact remains_divide (Or.inr (Or.inl (mem_keep hb))) hid
  · exact remains_divide (Or.inr (Or.inl (mem_keep hb))) hid
  · exact hright (Or.inl hb)
  · exact hright (Or.inr (Or.inl (mem_keep hb)))
  · exact hright (Or.inr (Or.inl (mem_keep hb)))
  · exact hright (Or.inr (Or.inr hb))

theorem eq_of_id {a b : Node} (hm : m.ids.Nodup) (ha : a ∈ m.preorder) (hb : b ∈ m.preorder)
    (hid : a.id = b.id) : a = b :=
  List.inj_on_of_nodup_map hm ha hb hid

/-- After an insertion a number that is not new has what remains of its node, and the new number
has the new element. -/
theorem Insertable.nodes (h : Insertable lo hi claimed e m s) {b : Node}
    (hb : b ∈ ((placed e claimed m s ⟨(opened claimed e.span m s).1.inside, s'⟩).markup.gather
        (opened claimed e.span m s).2.next (strays claimed e.span m)).preorder) :
    (b.id < s.next → ∃ a ∈ m.preorder, Remains a b) ∧
      (b.id = (opened claimed e.span m s).2.next → b.toElement = e) := by
  rw [(h.perm_gather s').mem_iff] at hb
  obtain ⟨before, after, hplug⟩ := Forest.preorder_plug (enters claimed e.span) m
  have hm := hplug (site claimed e.span m).row
  rw [site, Forest.plug_focus] at hm
  have hnew := hplug (newRow e claimed m s (opened claimed e.span m s).1.inside)
  refine ⟨fun hid => ?_, fun hid => ?_⟩
  · rw [placed_markup, site, hnew] at hb
    rw [hm]
    simp only [newRow, Forest.preorder_append, Forest.preorder_node, List.mem_append,
      List.mem_cons] at hb ⊢
    have hrow (ho : b ∈ (opened claimed e.span m s).1.before.preorder ∨
        b ∈ (opened claimed e.span m s).1.inside.preorder ∨
        b ∈ (opened claimed e.span m s).1.after.preorder) :
        ∃ a, ((a ∈ before ∨ a ∈ (site claimed e.span m).row.preorder) ∨ a ∈ after) ∧
          Remains a b := by
      obtain ⟨a, ha, hab⟩ := remains_opening ho hid
      exact ⟨a, Or.inl (Or.inr ha), hab⟩
    rcases hb with (hb | hb | rfl | hb | hb) | hb
    · exact ⟨b, Or.inl (Or.inl hb), .refl b⟩
    · exact hrow (Or.inl hb)
    · exact absurd (Nat.lt_of_lt_of_le hid next_le_opened) (Nat.lt_irrefl _)
    · exact hrow (Or.inr (Or.inl hb))
    · exact hrow (Or.inr (Or.inr hb))
    · exact ⟨b, Or.inr hb, .refl b⟩
  · have hmem : (⟨e, (opened claimed e.span m s).2.next⟩ : Node) ∈
        (placed e claimed m s ⟨(opened claimed e.span m s).1.inside, s'⟩).markup.preorder := by
      rw [placed_markup, site, hnew]
      simp [newRow]
    rw [eq_of_id (h.nodup_placed s') hb hmem hid]

end Markup

end Standoff
