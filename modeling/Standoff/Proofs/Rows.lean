import Standoff.Forest

/-! # Rows of trees: selection and focus

Further operations on forests, and how they go together with those that the library runs.

* `Forest.keep`, `Forest.drop`: some trees of a row.
* `Forest.prune`: a forest without some trees, wherever they stand.
* `Forest.setBelow`: another row below some node.
* `Forest.focus_induction`: a proof about `Forest.focus` needs two cases, a row that the test does
  not lead out of, and a row with a first tree that it leads into. -/

namespace Standoff

namespace Forest

variable {α β : Type}

/-! ## Selection -/

/-- The trees of a row whose labels pass `p`. -/
def keep (p : α → Bool) : Forest α → Forest α
  | nil => nil
  | node a kids rest => if p a then node a kids (rest.keep p) else rest.keep p

/-- The trees of a row whose labels do not pass `p`. -/
def drop (p : α → Bool) (f : Forest α) : Forest α := f.keep fun a => !p a

/-- The forest without the trees whose labels pass `p`, wherever they stand. -/
def prune (p : α → Bool) : Forest α → Forest α
  | nil => nil
  | node a kids rest => if p a then rest.prune p else node a (kids.prune p) (rest.prune p)

/-- Puts `g` below every node that passes `p`. -/
def setBelow (p : α → Bool) (g : Forest α) : Forest α → Forest α
  | nil => nil
  | node a kids rest =>
    if p a then node a g (setBelow p g rest) else node a (setBelow p g kids) (setBelow p g rest)

/-- Adds the trees of `g` as last children to every node that passes `p`. -/
def extendBelow (p : α → Bool) (g : Forest α) : Forest α → Forest α
  | nil => nil
  | node a kids rest =>
    if p a then node a (kids ++ g) (extendBelow p g rest)
    else node a (extendBelow p g kids) (extendBelow p g rest)

@[simp] theorem labels_nil : (nil : Forest α).labels = [] := rfl

@[simp] theorem labels_node (a : α) (kids rest : Forest α) :
    (node a kids rest).labels = a :: rest.labels := rfl

@[simp] theorem map_nil (f : α → β) : (nil : Forest α).map f = nil := rfl

@[simp] theorem map_node (f : α → β) (a : α) (kids rest : Forest α) :
    (node a kids rest).map f = node (f a) (kids.map f) (rest.map f) := rfl

@[simp] theorem labels_map (f : α → β) (g : Forest α) : (g.map f).labels = g.labels.map f := by
  induction g with
  | nil => rfl
  | node a kids rest _ ih => simp [ih]

theorem map_map {γ : Type} (f : α → β) (g : β → γ) (m : Forest α) :
    (m.map f).map g = m.map fun a => g (f a) := by
  induction m with
  | nil => rfl
  | node a kids rest ihk ihr => simp [ihk, ihr]

theorem map_congr {f g : α → β} {m : Forest α} (h : ∀ a ∈ m.preorder, f a = g a) :
    m.map f = m.map g := by
  induction m with
  | nil => rfl
  | node a kids rest ihk ihr =>
    simp only [preorder_node, List.mem_cons, List.mem_append] at h
    simp only [map_node]
    rw [h a (Or.inl rfl), ihk fun b hb => h b (Or.inr (Or.inl hb)),
      ihr fun b hb => h b (Or.inr (Or.inr hb))]

theorem size_append (f g : Forest α) : (f ++ g).size = f.size + g.size := by
  rw [← length_preorder, preorder_append, List.length_append, length_preorder, length_preorder]

theorem size_map (f : α → β) (g : Forest α) : (g.map f).size = g.size := by
  rw [← length_preorder, preorder_map, List.length_map, length_preorder]

theorem labels_sublist (f : Forest α) : f.labels.Sublist f.preorder := by
  induction f with
  | nil => exact .slnil
  | node a kids rest _ ih =>
    rw [labels_node, preorder_node]
    exact (ih.trans (List.sublist_append_right _ _)).cons_cons a

theorem labels_subset_preorder {a : α} {f : Forest α} (h : a ∈ f.labels) : a ∈ f.preorder :=
  (labels_sublist f).subset h

@[simp] theorem keep_nil (p : α → Bool) : (nil : Forest α).keep p = nil := rfl

@[simp] theorem keep_append (p : α → Bool) (f g : Forest α) :
    (f ++ g).keep p = f.keep p ++ g.keep p := by
  induction f with
  | nil => rfl
  | node a kids rest _ ih =>
    simp only [node_append, keep, ih]
    split <;> simp

theorem keep_of_all {p : α → Bool} {f : Forest α} (h : ∀ a ∈ f.labels, p a = true) :
    f.keep p = f := by
  induction f with
  | nil => rfl
  | node a kids rest _ ih =>
    simp only [labels_node, List.mem_cons] at h
    simp [keep, h a (Or.inl rfl), ih fun b hb => h b (Or.inr hb)]

theorem keep_of_none {p : α → Bool} {f : Forest α} (h : ∀ a ∈ f.labels, p a = false) :
    f.keep p = nil := by
  induction f with
  | nil => rfl
  | node a kids rest _ ih =>
    simp only [labels_node, List.mem_cons] at h
    simp [keep, h a (Or.inl rfl), ih fun b hb => h b (Or.inr hb)]

theorem keep_map (p : β → Bool) (f : α → β) (g : Forest α) :
    (g.map f).keep p = (g.keep fun a => p (f a)).map f := by
  induction g with
  | nil => rfl
  | node a kids rest _ ih =>
    simp only [map_node, keep, ih]
    split <;> rfl

theorem keep_congr {p q : α → Bool} {f : Forest α} (h : ∀ a ∈ f.labels, p a = q a) :
    f.keep p = f.keep q := by
  induction f with
  | nil => rfl
  | node a kids rest _ ih =>
    simp only [labels_node, List.mem_cons] at h
    simp only [keep, h a (Or.inl rfl), ih fun b hb => h b (Or.inr hb)]

theorem labels_keep (p : α → Bool) (f : Forest α) : (f.keep p).labels = f.labels.filter p := by
  induction f with
  | nil => rfl
  | node a kids rest _ ih =>
    simp only [keep, labels_node, List.filter_cons]
    split <;> simp [ih]

theorem preorder_keep_sublist (p : α → Bool) (f : Forest α) :
    (f.keep p).preorder.Sublist f.preorder := by
  induction f with
  | nil => exact .slnil
  | node a kids rest _ ih =>
    simp only [keep, preorder_node]
    split
    · rw [preorder_node]
      exact ((List.Sublist.refl _).append ih).cons_cons a
    · exact (ih.trans (List.sublist_append_right _ _)).cons a

/-! ## Pruning -/

@[simp] theorem prune_nil (p : α → Bool) : (nil : Forest α).prune p = nil := rfl

@[simp] theorem prune_append (p : α → Bool) (f g : Forest α) :
    (f ++ g).prune p = f.prune p ++ g.prune p := by
  induction f with
  | nil => rfl
  | node a kids rest _ ih =>
    simp only [node_append, prune, ih]
    split <;> simp

theorem prune_of_none {p : α → Bool} {f : Forest α} (h : ∀ a ∈ f.preorder, p a = false) :
    f.prune p = f := by
  induction f with
  | nil => rfl
  | node a kids rest ihk ihr =>
    simp only [preorder_node, List.mem_cons, List.mem_append] at h
    simp [prune, h a (Or.inl rfl), ihk fun b hb => h b (Or.inr (Or.inl hb)),
      ihr fun b hb => h b (Or.inr (Or.inr hb))]

theorem prune_prune (p q : α → Bool) (f : Forest α) :
    (f.prune p).prune q = f.prune fun a => p a || q a := by
  induction f with
  | nil => rfl
  | node a kids rest ihk ihr =>
    by_cases hp : p a = true
    · simp [prune, hp, ihr]
    · by_cases hq : q a = true
      · simp [prune, hp, hq, ihr]
      · simp [prune, hp, hq, ihk, ihr]

theorem prune_congr {p q : α → Bool} {f : Forest α} (h : ∀ a ∈ f.preorder, p a = q a) :
    f.prune p = f.prune q := by
  induction f with
  | nil => rfl
  | node a kids rest ihk ihr =>
    simp only [preorder_node, List.mem_cons, List.mem_append] at h
    simp only [prune, h a (Or.inl rfl), ihk fun b hb => h b (Or.inr (Or.inl hb)),
      ihr fun b hb => h b (Or.inr (Or.inr hb))]

theorem preorder_prune_sublist (p : α → Bool) (f : Forest α) :
    (f.prune p).preorder.Sublist f.preorder := by
  induction f with
  | nil => exact .slnil
  | node a kids rest ihk ihr =>
    simp only [prune, preorder_node]
    split
    · exact (ihr.trans (List.sublist_append_right _ _)).cons a
    · rw [preorder_node]
      exact (ihk.append ihr).cons_cons a

/-! ## More children -/

@[simp] theorem extendBelow_append_rows (p : α → Bool) (g f h : Forest α) :
    extendBelow p g (f ++ h) = extendBelow p g f ++ extendBelow p g h := by
  induction f with
  | nil => rfl
  | node a kids rest _ ih =>
    simp only [node_append, extendBelow, ih]
    split <;> simp

theorem extendBelow_of_none {p : α → Bool} {g f : Forest α} (h : ∀ a ∈ f.preorder, p a = false) :
    extendBelow p g f = f := by
  induction f with
  | nil => rfl
  | node a kids rest ihk ihr =>
    simp only [preorder_node, List.mem_cons, List.mem_append] at h
    simp [extendBelow, h a (Or.inl rfl), ihk fun b hb => h b (Or.inr (Or.inl hb)),
      ihr fun b hb => h b (Or.inr (Or.inr hb))]

theorem extendBelow_nil (p : α → Bool) (f : Forest α) : extendBelow p nil f = f := by
  induction f with
  | nil => rfl
  | node a kids rest ihk ihr =>
    rw [extendBelow, ihk, ihr, append_nil]
    split <;> rfl

theorem extendBelow_extendBelow (p : α → Bool) (g h f : Forest α) :
    extendBelow p h (extendBelow p g f) = extendBelow p (g ++ h) f := by
  induction f with
  | nil => rfl
  | node a kids rest ihk ihr =>
    by_cases hp : p a = true
    · simp [extendBelow, hp, ihr, append_assoc]
    · simp [extendBelow, hp, ihk, ihr]

theorem prune_extendBelow {p q : α → Bool} (hpq : ∀ a, p a = true → q a = false) (g f : Forest α) :
    (extendBelow p g f).prune q = extendBelow p (g.prune q) (f.prune q) := by
  induction f with
  | nil => rfl
  | node a kids rest ihk ihr =>
    by_cases hp : p a = true
    · simp [extendBelow, prune, hp, hpq a hp, ihr]
    · by_cases hq : q a = true
      · simp [extendBelow, prune, hp, hq, ihr]
      · simp [extendBelow, prune, hp, hq, ihk, ihr]

/-! ## The row of a focus -/

theorem focus?_eq_none_iff (enters : α → Bool) (f : Forest α) :
    f.focus? enters = none ↔ ∀ a ∈ f.labels, enters a = false := by
  induction f with
  | nil => simp [focus?]
  | node a kids rest _ ih =>
    simp only [focus?, labels_node, List.mem_cons, forall_eq_or_imp]
    cases h : enters a with
    | true =>
      simp only [if_true]
      cases kids.focus? enters <;> simp
    | false =>
      simp only [Bool.false_eq_true, if_false, true_and, ← ih]
      cases rest.focus? enters <;> simp

theorem focus_of_none {enters : α → Bool} {f : Forest α} (h : ∀ a ∈ f.labels, enters a = false) :
    f.focus enters = ⟨f, id⟩ := by
  rw [focus, (focus?_eq_none_iff enters f).mpr h]
  rfl

theorem focus_append_node {enters : α → Bool} {f : Forest α} {a : α} (kids rest : Forest α)
    (hf : ∀ b ∈ f.labels, enters b = false) (ha : enters a = true) :
    (f ++ node a kids rest).focus enters =
      ⟨(kids.focus enters).row, fun g => f ++ node a ((kids.focus enters).plug g) rest⟩ := by
  induction f with
  | nil =>
    simp only [nil_append, focus, focus?, ha, if_true]
    cases kids.focus? enters <;> rfl
  | node b bkids brest _ ih =>
    simp only [labels_node, List.mem_cons] at hf
    have ih := ih fun c hc => hf c (Or.inr hc)
    have hsome : (brest ++ node a kids rest).focus? enters ≠ none := by
      intro h
      have := (focus?_eq_none_iff enters _).mp h a (by simp)
      rw [ha] at this
      cases this
    cases hb : (brest ++ node a kids rest).focus? enters with
    | none => exact absurd hb hsome
    | some c =>
      rw [focus, hb] at ih
      simp only [Option.getD_some] at ih
      subst ih
      simp [focus, focus?, hf b (Or.inl rfl), hb]

/-- A row has no label that passes `p`, or a first one. -/
theorem first_passing (p : α → Bool) (f : Forest α) :
    (∀ a ∈ f.labels, p a = false) ∨
      ∃ l a kids rest, f = l ++ node a kids rest ∧ (∀ b ∈ l.labels, p b = false) ∧ p a = true := by
  induction f with
  | nil => simp
  | node a kids rest _ ih =>
    cases ha : p a with
    | true => exact Or.inr ⟨nil, a, kids, rest, rfl, by simp, ha⟩
    | false =>
      rcases ih with h | ⟨l, b, bkids, brest, rfl, hl, hb⟩
      · exact Or.inl fun c hc => by
          rcases List.mem_cons.mp hc with rfl | hc
          · exact ha
          · exact h c hc
      · refine Or.inr ⟨node a kids l, b, bkids, brest, rfl, fun c hc => ?_, hb⟩
        rcases List.mem_cons.mp hc with rfl | hc
        · exact ha
        · exact hl c hc

/-- Two cases for a fact about the focus of a test: the row that the test does not lead out of,
and a row whose first entered tree holds the focus. -/
theorem focus_induction {motive : Forest α → Prop} (enters : α → Bool)
    (row : ∀ f, (∀ a ∈ f.labels, enters a = false) → motive f)
    (inner : ∀ f a kids rest, (∀ b ∈ f.labels, enters b = false) → enters a = true →
      motive kids → motive (f ++ node a kids rest)) (f : Forest α) : motive f := by
  suffices h : ∀ n (f : Forest α), f.size ≤ n → motive f from h f.size f (Nat.le_refl _)
  intro n
  induction n with
  | zero =>
    intro f hf
    cases f with
    | nil => exact row nil (by simp)
    | node a kids rest => simp [size] at hf
  | succ n ih =>
    intro f hf
    rcases first_passing enters f with h | ⟨l, a, kids, rest, rfl, hl, ha⟩
    · exact row f h
    · refine inner l a kids rest hl ha (ih kids ?_)
      rw [← length_preorder] at hf ⊢
      simp at hf
      omega

/-- What a plug adds around a row does not depend on the row. -/
theorem preorder_plug (enters : α → Bool) (f : Forest α) :
    ∃ before after, ∀ g, ((f.focus enters).plug g).preorder = before ++ g.preorder ++ after := by
  induction f using focus_induction enters with
  | row f h => exact ⟨[], [], fun g => by simp [focus_of_none h]⟩
  | inner f a kids rest hf ha ih =>
    obtain ⟨before, after, h⟩ := ih
    refine ⟨f.preorder ++ a :: before, after ++ rest.preorder, fun g => ?_⟩
    rw [focus_append_node kids rest hf ha]
    simp [h]

/-- No label of the focussed row is entered. -/
theorem focus_row_not_entered (enters : α → Bool) (f : Forest α) :
    ∀ a ∈ (f.focus enters).row.labels, enters a = false := by
  induction f using focus_induction enters with
  | row f h => rw [focus_of_none h]; exact h
  | inner f a kids rest hf ha ih => rw [focus_append_node kids rest hf ha]; exact ih

theorem preorder_focus_row (enters : α → Bool) (f : Forest α) {a : α}
    (h : a ∈ (f.focus enters).row.preorder) : a ∈ f.preorder := by
  obtain ⟨before, after, hp⟩ := preorder_plug enters f
  have := hp (f.focus enters).row
  rw [plug_focus] at this
  rw [this]
  simp [h]

/-- A focus among other labels. -/
theorem focus_map {enters : β → Bool} {enters' : α → Bool} {g : α → β}
    (h : ∀ a, enters (g a) = enters' a) (f : Forest α) :
    ((f.map g).focus enters).row = (f.focus enters').row.map g ∧
      ∀ r, ((f.map g).focus enters).plug (r.map g) = ((f.focus enters').plug r).map g := by
  have hlabels {f : Forest α} (hf : ∀ a ∈ f.labels, enters' a = false) :
      ∀ b ∈ (f.map g).labels, enters b = false := by
    intro b hb
    rw [labels_map] at hb
    obtain ⟨a, ha, rfl⟩ := List.mem_map.mp hb
    exact (h a).trans (hf a ha)
  induction f using focus_induction enters' with
  | row f hf =>
    rw [focus_of_none hf, focus_of_none (hlabels hf)]
    exact ⟨rfl, fun r => rfl⟩
  | inner f a kids rest hf ha ih =>
    obtain ⟨hrow, hplug⟩ := ih
    rw [map_append, map_node, focus_append_node _ _ hf ha,
      focus_append_node _ _ (hlabels hf) ((h a).trans ha)]
    refine ⟨hrow, fun r => ?_⟩
    simp only [map_append, map_node, hplug]

end Forest

end Standoff
