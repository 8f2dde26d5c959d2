import Standoff.Proofs.Renumbering

/-! # Trees with claimed roots

The trees that a builder has delivered below an open nonterminal are known by the numbers of their
roots; the numbers below the roots do not matter any more.

* `Markup.only`: keeps the numbers of a list and makes all others 0.
* `Markup.tag`: trees with given numbers at their roots and number 0 below.
* `Markup.tag_append`: one more tree. -/

namespace Standoff

namespace Markup

/-- The numbers of a list; every other one becomes 0. -/
def only (ids : List NodeId) (x : NodeId) : NodeId := if x ∈ ids then x else 0

/-- Trees whose roots have the numbers of a list, with number 0 below them. -/
def tag : List NodeId → Forest Element → Markup
  | _, .nil => .nil
  | ids, .node e kids rest => .node ⟨e, ids.headD 0⟩ (blank kids) (tag ids.tail rest)

variable {lo hi : Nat} {m : Markup} {es kids : Forest Element} {e : Element} {x : NodeId}
  {c xs ys : List NodeId} {ρ σ : NodeId → NodeId}

theorem only_nil : only [] = fun _ => 0 := by
  funext x
  rw [only, if_neg (List.not_mem_nil)]

theorem only_of_mem (h : x ∈ xs) : only xs x = x := if_pos h

theorem only_of_not_mem (h : x ∉ xs) : only xs x = 0 := if_neg h

@[simp] theorem only_zero (xs : List NodeId) : only xs 0 = 0 := by
  unfold only
  split <;> rfl

theorem keeps_only (h0 : 0 ∉ c) (hc : c ⊆ xs) : Keeps c (only xs) := by
  intro x
  refine ⟨fun hx => only_of_mem (hc hx), fun hx => ?_⟩
  by_cases hmem : x ∈ xs
  · rwa [only_of_mem hmem] at hx
  · rw [only_of_not_mem hmem] at hx
    exact absurd hx h0

theorem map_only_of_subset (h : c ⊆ xs) : c.map (only xs) = c := by
  rw [List.map_congr_left fun x hx => only_of_mem (h hx)]
  exact List.map_id _

theorem renumber_renumber (ρ σ : NodeId → NodeId) (m : Markup) :
    (m.renumber ρ).renumber σ = m.renumber fun x => σ (ρ x) := Forest.map_map _ _ m

theorem renumber_congr (h : ∀ x ∈ m.ids, ρ x = σ x) : m.renumber ρ = m.renumber σ := by
  refine Forest.map_congr fun n hn => ?_
  rw [h n.id (id_mem_ids hn)]

/-- Fewer numbers of a list can be taken at once. -/
theorem renumber_only (h : ys ⊆ xs) (m : Markup) :
    (m.renumber (only xs)).renumber (only ys) = m.renumber (only ys) := by
  rw [renumber_renumber]
  refine renumber_congr fun x _ => ?_
  by_cases hx : x ∈ xs
  · rw [only_of_mem hx]
  · rw [only_of_not_mem hx, only_zero, only_of_not_mem fun hy => hx (h hy)]

theorem renumber_blank (h0 : ρ 0 = 0) (es : Forest Element) : (blank es).renumber ρ = blank es := by
  induction es with
  | nil => rfl
  | node e kids rest ihk ihr => rw [blank_node, renumber_node, ihk, ihr, h0]

theorem renumber_tag (h0 : ρ 0 = 0) (c : List NodeId) (es : Forest Element) :
    (tag c es).renumber ρ = tag (c.map ρ) es := by
  induction es generalizing c with
  | nil => rfl
  | node e kids rest _ ih =>
    rw [tag, renumber_node, ih, renumber_blank h0]
    cases c with
    | nil => simp [tag, h0]
    | cons x c => rfl

/-- Trees whose numbers are not kept. -/
theorem renumber_tag_of_disjoint (h : ∀ x ∈ c, x ∉ xs) (es : Forest Element) :
    (tag c es).renumber (only xs) = blank es := by
  have hzero : c.map (only xs) = List.replicate c.length 0 :=
    List.eq_replicate_iff.mpr ⟨List.length_map _, fun y hy => by
      obtain ⟨x, hx, rfl⟩ := List.mem_map.mp hy
      exact only_of_not_mem (h x hx)⟩
  rw [renumber_tag (only_zero xs), hzero]
  generalize c.length = n
  induction es generalizing n with
  | nil => rfl
  | node e kids rest _ ih =>
    rw [tag, blank_node, List.tail_replicate, ih]
    cases n <;> rfl

theorem renumber_tag_of_subset (h : c ⊆ xs) (es : Forest Element) :
    (tag c es).renumber (only xs) = tag c es := by
  rw [renumber_tag (only_zero xs), map_only_of_subset h]

/-- One more tree. -/
theorem tag_append (h : c.length = es.labels.length) (x : NodeId) (e : Element)
    (kids : Forest Element) :
    tag (c ++ [x]) (es ++ .node e kids .nil) = tag c es ++ .node ⟨e, x⟩ (blank kids) .nil := by
  induction es generalizing c with
  | nil =>
    obtain rfl : c = [] := List.length_eq_zero_iff.mp h
    rfl
  | node f fkids rest _ ih =>
    cases c with
    | nil => cases h
    | cons y c =>
      have h : c.length = rest.labels.length := Nat.succ.inj h
      show Forest.node _ _ (tag (c ++ [x]) (rest ++ _)) = _
      rw [ih h]
      rfl

theorem rootIds_tag (h : c.length = es.labels.length) : (tag c es).rootIds = c := by
  induction es generalizing c with
  | nil => exact (List.length_eq_zero_iff.mp h).symm
  | node f fkids rest _ ih =>
    cases c with
    | nil => cases h
    | cons y c => exact congrArg (y :: ·) (ih (Nat.succ.inj h))

theorem ids_blank (hx : x ∈ (blank es).ids) : x = 0 := by
  obtain ⟨n, hn, rfl⟩ := mem_ids.mp hx
  rw [blank, Forest.preorder_map] at hn
  obtain ⟨e, -, rfl⟩ := List.mem_map.mp hn
  rfl

theorem ids_tag (hx : x ∈ (tag c es).ids) : x = 0 ∨ x ∈ c := by
  induction es generalizing c with
  | nil => cases hx
  | node f fkids rest _ ih =>
    rw [tag, ids_node, List.mem_cons, List.mem_append] at hx
    rcases hx with hx | hx | hx
    · cases c with
      | nil => exact Or.inl hx
      | cons y c => exact Or.inr (hx ▸ List.mem_cons_self ..)
    · exact Or.inl (ids_blank hx)
    · exact (ih hx).imp_right List.mem_of_mem_tail

theorem tagged_tag (h : c.length = es.labels.length) (h0 : 0 ∉ c) (hc : c.Nodup) :
    Tagged (tag c es) := by
  induction es generalizing c with
  | nil => trivial
  | node f fkids rest _ ih =>
    cases c with
    | nil => cases h
    | cons y c =>
      have h : c.length = rest.labels.length := Nat.succ.inj h
      obtain ⟨hy, hc⟩ := List.nodup_cons.mp hc
      refine ⟨fun heq => h0 (heq ▸ List.mem_cons_self ..), fun x hx => ids_blank hx, ?_,
        ih h (fun h => h0 (List.mem_cons_of_mem _ h)) hc⟩
      show y ∉ (tag c rest).rootIds
      rwa [rootIds_tag h]

theorem nests_tag : Nests lo hi (tag c es) ↔ Nests lo hi (blank es) := by
  induction es generalizing lo c with
  | nil => exact Iff.rfl
  | node f fkids rest _ ih => rw [tag, blank_node, nests_node, nests_node, ih]

theorem size_blank (es : Forest Element) : (blank es).size = es.size := Forest.size_map _ es

theorem size_tag (c : List NodeId) (es : Forest Element) : (tag c es).size = es.size := by
  induction es generalizing c with
  | nil => rfl
  | node e kids rest _ ih => rw [tag, Forest.size, Forest.size, size_blank, ih]

end Markup

end Standoff
