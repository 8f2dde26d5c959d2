import Standoff.Document
import Standoff.Proofs.Rows

/-! # Nesting of mark-up

A row nests in `[lo, hi]` if its spans are ordered, lie in `[lo, hi]`, and follow one another, and
the row below every node nests in the span of that node.  The lower bound is passed from sibling to
sibling, so the order of any two siblings is part of the definition.

* `Markup.Nests`: the property, kept by selection, pruning and concatenation. -/

namespace Standoff

namespace Markup

/-- Elements are ordered, lie in their parents' spans and follow the siblings to their left; the
outermost row lies in `[lo, hi]`. -/
def Nests : Nat → Nat → Markup → Prop
  | lo, hi, .nil => lo ≤ hi
  | lo, hi, .node n kids rest =>
    lo ≤ n.span.start ∧ Nests n.span.start n.span.stop kids ∧ Nests n.span.stop hi rest

instance decidableNests : (lo hi : Nat) → (m : Markup) → Decidable (Nests lo hi m)
  | lo, hi, .nil => inferInstanceAs (Decidable (lo ≤ hi))
  | lo, hi, .node n kids rest =>
    have := decidableNests n.span.start n.span.stop kids
    have := decidableNests n.span.stop hi rest
    inferInstanceAs (Decidable (lo ≤ n.span.start ∧ _ ∧ _))

variable {lo hi mid : Nat} {m f g : Markup} {n : Node}

@[simp] theorem nests_nil : Nests lo hi .nil ↔ lo ≤ hi := Iff.rfl

@[simp] theorem nests_node {kids rest : Markup} :
    Nests lo hi (.node n kids rest) ↔
      lo ≤ n.span.start ∧ Nests n.span.start n.span.stop kids ∧ Nests n.span.stop hi rest :=
  Iff.rfl

theorem Nests.le (h : Nests lo hi m) : lo ≤ hi := by
  induction m generalizing lo hi with
  | nil => exact h
  | node n kids rest ihk ihr =>
    obtain ⟨h₁, h₂, h₃⟩ := h
    have := ihk h₂
    have := ihr h₃
    omega

theorem Nests.mono {lo' hi' : Nat} (h : Nests lo hi m) (hlo : lo' ≤ lo) (hhi : hi ≤ hi') :
    Nests lo' hi' m := by
  induction m generalizing lo lo' with
  | nil => exact Nat.le_trans hlo (Nat.le_trans h hhi)
  | node n kids rest ihk ihr =>
    obtain ⟨h₁, h₂, h₃⟩ := h
    exact ⟨Nat.le_trans hlo h₁, h₂, ihr h₃ (Nat.le_refl _)⟩

theorem Nests.append (hf : Nests lo mid f) (hg : Nests mid hi g) : Nests lo hi (f ++ g) := by
  induction f generalizing lo with
  | nil => exact hg.mono hf (Nat.le_refl _)
  | node n kids rest _ ih =>
    obtain ⟨h₁, h₂, h₃⟩ := hf
    exact ⟨h₁, h₂, ih h₃⟩

theorem nests_append_iff : Nests lo hi (f ++ g) ↔ ∃ mid, Nests lo mid f ∧ Nests mid hi g := by
  constructor
  · intro h
    induction f generalizing lo with
    | nil => exact ⟨lo, Nat.le_refl _, h⟩
    | node n kids rest _ ih =>
      obtain ⟨h₁, h₂, h₃⟩ := h
      obtain ⟨mid, hr, hg⟩ := ih h₃
      exact ⟨mid, ⟨h₁, h₂, hr⟩, hg⟩
  · rintro ⟨mid, hf, hg⟩
    exact hf.append hg

/-- One node between two rows. -/
theorem nests_around {kids : Markup} :
    Nests lo hi (f ++ .node n kids g) ↔
      Nests lo n.span.start f ∧ Nests n.span.start n.span.stop kids ∧ Nests n.span.stop hi g := by
  rw [nests_append_iff]
  constructor
  · rintro ⟨mid, hf, h₁, h₂, h₃⟩
    exact ⟨hf.mono (Nat.le_refl _) h₁, h₂, h₃⟩
  · rintro ⟨hf, h₂, h₃⟩
    exact ⟨_, hf, Nat.le_refl _, h₂, h₃⟩

/-- What a nesting row says about each of its nodes. -/
theorem Nests.bounds (h : Nests lo hi m) (hn : n ∈ m.preorder) :
    lo ≤ n.span.start ∧ n.span.start ≤ n.span.stop ∧ n.span.stop ≤ hi := by
  induction m generalizing lo hi with
  | nil => cases hn
  | node a kids rest ihk ihr =>
    obtain ⟨h₁, h₂, h₃⟩ := h
    have hk := h₂.le
    have hr := h₃.le
    rw [Forest.preorder_node, List.mem_cons, List.mem_append] at hn
    rcases hn with rfl | hn | hn
    · omega
    · have := ihk h₂ hn
      omega
    · have := ihr h₃ hn
      omega

theorem Nests.keep (h : Nests lo hi m) (p : Node → Bool) : Nests lo hi (m.keep p) := by
  induction m generalizing lo with
  | nil => exact h
  | node n kids rest _ ih =>
    obtain ⟨h₁, h₂, h₃⟩ := h
    have hk := h₂.le
    rw [Forest.keep]
    split
    · exact ⟨h₁, h₂, ih h₃⟩
    · exact (ih h₃).mono (by omega) (Nat.le_refl _)

theorem Nests.prune (h : Nests lo hi m) (p : Node → Bool) : Nests lo hi (m.prune p) := by
  induction m generalizing lo hi with
  | nil => exact h
  | node n kids rest ihk ihr =>
    obtain ⟨h₁, h₂, h₃⟩ := h
    have hk := h₂.le
    rw [Forest.prune]
    split
    · exact (ihr h₃).mono (by omega) (Nat.le_refl _)
    · exact ⟨h₁, ihk h₂, ihr h₃⟩

/-- Nesting is a matter of spans. -/
theorem nests_map {g : Node → Node} (hg : ∀ n, (g n).span = n.span) :
    Nests lo hi (m.map g) ↔ Nests lo hi m := by
  induction m generalizing lo hi with
  | nil => exact Iff.rfl
  | node n kids rest ihk ihr => simp only [Forest.map_node, nests_node, hg, ihk, ihr]

/-- A nest of zero width holds markers only. -/
theorem Nests.isEmpty_of_mem (h : Nests lo lo m) (hn : n ∈ m.preorder) :
    n.span.start = lo ∧ n.span.stop = lo := by
  have := h.bounds hn
  omega

end Markup

end Standoff
