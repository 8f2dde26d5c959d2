import Standoff.Proofs.Families
import Standoff.Proofs.Relinks

/-!
# Histories of an arena

An arena keeps a family if its links are those of the family's nodes and its free slots are those
that the family has given back.  Each operation whose condition is met keeps the family on which the
same was done, so whatever is read off the links is what the rows say.

* `Arena.Keeps`: an arena and a family; one lemma for each operation, one for each way to read.
* `Arena.Operation`, `Arena.Operation.Admissible`: what is done, and when it may be done.
* `Arena.History.ordered_forest`: what holds after every history.
-/

namespace Standoff

namespace Arena

variable {a b : Arena} {s : Family} {p c x y : NodeId} {l₁ l₂ : List NodeId}

/-- The nodes from `start` on to the left, at most `fuel` of them. -/
def rowBack (a : Arena) : Nat → Option NodeId → List NodeId
  | 0, _ => []
  | _, none => []
  | fuel + 1, some id => id :: a.rowBack fuel (a.links id).previous

/-! ## Arenas that keep a family -/

structure Keeps (a : Arena) (s : Family) : Prop where
  sound : s.Sound
  links : ∀ x ∈ s.live, a.links x = s.links x
  cover : (s.live ++ a.free).Perm (List.range a.slots.size)
  freed : a.free.Perm s.released

theorem keeps_new : ({} : Arena).Keeps {} where
  sound :=
    { live_nodup := .nil
      row_nodup := fun _ => .nil
      mem_row := ⟨fun h => (List.not_mem_nil h).elim, fun h => nomatch h⟩
      inside := fun h => nomatch h
      ranked := ⟨fun _ => 0, fun _ _ h => nomatch h⟩ }
  links _ hx := (List.not_mem_nil hx).elim
  cover := .nil
  freed := .nil

namespace Keeps

variable (h : a.Keeps s)
include h

theorem nodup : (s.live ++ a.free).Nodup := h.cover.nodup_iff.mpr List.nodup_range

theorem lt_size (hx : x ∈ s.live ++ a.free) : x < a.slots.size :=
  List.mem_range.mp (h.cover.mem_iff.mp hx)

theorem live_lt (hx : x ∈ s.live) : x < a.slots.size := h.lt_size (List.mem_append_left _ hx)

theorem liveCount_eq : a.liveCount = s.live.length := by
  have hlen := h.cover.length_eq
  rw [List.length_append, List.length_range] at hlen
  rw [liveCount]
  omega

theorem row_live (hx : x ∈ s.row p) : x ∈ s.live := (h.sound.inside (h.sound.mem_row.mp hx)).2

/-- A change of content leaves the family. -/
theorem congr (hlinks : ∀ x, b.links x = a.links x) (hfree : b.free = a.free)
    (hsize : b.slots.size = a.slots.size) : b.Keeps s where
  sound := h.sound
  links x hx := (hlinks x).trans (h.links x hx)
  cover := by
    rw [hfree, hsize]
    exact h.cover
  freed := hfree ▸ h.freed

theorem update (id : NodeId) (u : Slot → Slot) (hu : ∀ t, (u t).links = t.links) :
    (a.update id u).Keeps s :=
  h.congr (fun x => links_update a id u x hu) rfl (size_update a id u)

/-! ### Nodes that come and go -/

/-- A new node takes a slot that was free, or a slot of its own. -/
theorem alloc_cover (slot : Slot) :
    ((a.alloc slot).2 :: (s.live ++ (a.alloc slot).1.free)).Perm
        (List.range (a.alloc slot).1.slots.size) ∧
      (a.alloc slot).1.free.Perm (s.released.erase (a.alloc slot).2) := by
  have hcover := h.cover
  have hfreed := h.freed
  cases hfree : a.free with
  | nil =>
    rw [hfree] at hcover hfreed
    rw [alloc_of_nil hfree]
    constructor
    · simp only [hfree, Array.size_push, List.range_succ]
      exact (hcover.cons _).trans (List.perm_append_singleton _ _).symm
    · simp only [hfree, hfreed.symm.eq_nil, List.erase_nil]
      exact .nil
  | cons id free =>
    rw [hfree] at hcover hfreed
    rw [alloc_of_cons hfree]
    constructor
    · simp only [Array.size_setIfInBounds]
      exact List.perm_middle.symm.trans hcover
    · have herased := hfreed.erase id
      rwa [List.erase_cons_head] at herased

theorem alloc_fresh (slot : Slot) : (a.alloc slot).2 ∉ s.live := fun hmem =>
  (List.nodup_cons.mp ((h.alloc_cover slot).1.nodup_iff.mpr List.nodup_range)).1
    (List.mem_append_left _ hmem)

theorem links_alloc (slot : Slot) (x : NodeId) : (a.alloc slot).1.links x =
    if x = (a.alloc slot).2 then slot.links else a.links x := by
  have hget := slot?_alloc (fun id hid => h.lt_size (List.mem_append_right _ hid)) slot x
  by_cases hx : x = (a.alloc slot).2
  · rw [if_pos hx] at hget ⊢
    rw [Arena.links, hget]
    rfl
  · rw [if_neg hx] at hget ⊢
    exact links_eq hget

theorem alloc {slot : Slot} (hslot : slot.links = {}) :
    (a.alloc slot).1.Keeps (s.alloc (a.alloc slot).2) := by
  obtain ⟨hcover, hfreed⟩ := h.alloc_cover slot
  have hout := h.alloc_fresh slot
  have hparent := h.sound.loose_of_out hout
  have hrow : s.row (a.alloc slot).2 = [] := List.eq_nil_iff_forall_not_mem.mpr fun x hx =>
    hout (h.sound.inside (h.sound.mem_row.mp hx)).1
  refine ⟨h.sound.alloc hout, fun x hx => ?_, hcover, hfreed⟩
  rw [h.links_alloc]
  rcases List.mem_cons.mp hx with rfl | hx
  · rw [if_pos rfl, hslot, Family.links_alloc, Family.links_of_loose hparent, hrow]
    rfl
  · have hne : x ≠ (a.alloc slot).2 := fun heq => hout (heq ▸ hx)
    rw [if_neg hne]
    exact h.links x hx

/-! ### Nodes that move -/

theorem gap (hp : p ∈ s.live) (hsub : l₁ ++ l₂ ⊆ s.row p) : a.Gap p l₁ l₂ where
  parent_lt := h.live_lt hp
  row_lt _ hx := h.live_lt (h.row_live (hsub hx))
  not_mem hx := h.sound.ne_parent (h.sound.mem_row.mp (hsub hx)) rfl

theorem ends (hp : p ∈ s.live) : (a.links p).firstChild = (s.row p).head? ∧
    (a.links p).lastChild = (s.row p).getLast? := by
  rw [h.links p hp]
  exact ⟨rfl, rfl⟩

/-- A loose node that is not above `p` goes into the row of `p`, between its two parts. -/
theorem join (hp : p ∈ s.live) (hc : c ∈ s.live) (hloose : s.parent c = none)
    (hnot : p ∉ s.clan c) (hrow : s.row p = l₁ ++ l₂) :
    (a.insertBefore p l₂.head? c).Keeps (s.join p c (l₁ ++ c :: l₂)) := by
  have hgap : a.Gap p l₁ l₂ := h.gap hp (hrow ▸ List.Subset.refl _)
  have hcp : c ≠ p := fun heq => hnot (heq ▸ List.mem_cons_self ..)
  have hout : c ∉ l₁ ++ l₂ := fun hmem => by
    have hover := h.sound.mem_row.mp (hrow ▸ hmem)
    rw [Family.Over, hloose] at hover
    cases hover
  have hends := h.ends hp
  have hclinks := h.links c hc
  rw [Family.links_of_loose hloose] at hclinks
  obtain ⟨hfree, hsize⟩ := frame_insertBefore a p l₂.head? c
  refine ⟨h.sound.join hp hc hloose hnot hrow, fun y hy => ?_, ?_, hfree ▸ h.freed⟩
  · rw [links_insertBefore hgap (h.live_lt hc) hcp hout (hrow ▸ hends.1) (hrow ▸ hends.2)
      (fun z hz => ?_) ⟨by rw [hclinks], by rw [hclinks]⟩,
      Family.links_join h.sound hloose hcp.symm hrow, h.links c hc, h.links p hp, h.links y hy]
    obtain ⟨l₂, rfl⟩ := List.head?_eq_some_iff.mp hz
    have hzlive : z ∈ s.live := h.row_live (hrow ▸ List.mem_append_right _ (List.mem_cons_self ..))
    rw [h.links z hzlive, Family.links_of_row h.sound hrow]
  · rw [hfree, hsize]
    exact h.cover

theorem detach (hx : x ∈ s.live) : (a.detach x).Keeps (s.detach x) := by
  obtain ⟨hfree, hsize⟩ := frame_detach a x
  cases hparent : s.parent x with
  | none =>
    have hlinks := h.links x hx
    rw [Family.links_of_loose hparent] at hlinks
    have hsame : s.detach x = s := by rw [Family.detach, hparent]
    rw [hsame]
    refine h.congr (fun y => ?_) hfree hsize
    rw [Arena.detach, hlinks]
    dsimp only
    rw [links_relink _ _ _ (h.live_lt hx)]
    by_cases hyx : x = y
    · subst hyx
      rw [if_pos rfl, hlinks]
    · rw [if_neg hyx]
  | some p =>
    obtain ⟨l₁, l₂, hrow⟩ := List.append_of_mem (h.sound.mem_row.mpr hparent)
    have hp : p ∈ s.live := (h.sound.inside hparent).1
    have hgap : a.Gap p l₁ l₂ :=
      h.gap hp (hrow ▸ ((List.sublist_cons_self x l₂).append_left l₁).subset)
    have hxp : x ≠ p := h.sound.ne_parent hparent
    have hends := h.ends hp
    have hlinks := h.links x hx
    rw [Family.links_of_row h.sound hrow] at hlinks
    refine ⟨h.sound.detach x, fun y hy => ?_, ?_, ?_⟩
    · have hy : y ∈ s.live := by
        rw [Family.detach, hparent] at hy
        exact hy
      rw [links_detach hgap (h.live_lt hx) hxp (hrow ▸ hends.1) (hrow ▸ hends.2)
        ⟨by rw [hlinks], by rw [hlinks], by rw [hlinks]⟩, Family.links_detach h.sound hrow,
        h.links x hx, h.links p hp, h.links y hy]
    · rw [hfree, hsize, Family.detach, hparent]
      exact h.cover
    · rw [hfree, Family.detach, hparent]
      exact h.freed

/-! ### Reading -/

/-- The links of a row and of what is below it describe its forest. -/
theorem describes {f : Forest NodeId} (hrows : Unfolds s.row f) (hrow : s.row p = l₁ ++ f.labels) :
    Describes (fun x => some (a.links x)) p l₁.getLast? f := by
  refine (h.sound.describes hrows hrow).congr fun x hx => congrArg some (h.links x ?_)
  have hover : ∀ y ∈ f.labels, s.Over p y := fun y hy =>
    h.sound.mem_row.mp (hrow ▸ List.mem_append_right _ hy)
  exact h.sound.live_of_above (Family.above_of_mem hrows hover h.sound.mem_row hx)

theorem below_eq (hx : x ∈ s.live) : a.below x = s.below x := by
  obtain ⟨hlabels, hrows, hclan, -⟩ := h.sound.below_spec x
  have hholds := holds_of_describes (fun y l hl => Option.some.inj hl)
    (h.describes hrows (show s.row x = [] ++ (s.below x).labels from hlabels.symm))
  rw [List.getLast?_nil, Option.or_none, hlabels, ← (h.ends hx).2] at hholds
  exact hholds.below_eq (List.nodup_cons.mp hclan).2 fun y hy =>
    h.live_lt (h.sound.clan_live hx (List.mem_cons_of_mem _ hy))

theorem clan_eq (hx : x ∈ s.live) : s.clan x = x :: a.descendants x := by
  rw [Family.clan, ← h.below_eq hx, descendants]

/-- From any place in a row the links to the right give the rest of it. -/
theorem rowFrom_eq (hrow : s.row p = l₁ ++ l₂) (n : Nat) : a.rowFrom n l₂.head? = l₂.take n := by
  induction l₂ generalizing l₁ n with
  | nil => cases n <;> rfl
  | cons x l₂ ih =>
    cases n with
    | zero => rfl
    | succ n =>
      have hx : x ∈ s.live := h.row_live (hrow ▸ List.mem_append_right _ (List.mem_cons_self ..))
      have hsplit : s.row p = (l₁ ++ [x]) ++ l₂ := by rw [hrow]; simp
      rw [List.head?_cons, rowFrom, h.links x hx, Family.links_of_row h.sound hrow, ih hsplit,
        List.take_succ_cons]

/-- From any place in a row the links to the left give what comes before it. -/
theorem rowBack_eq (hrow : s.row p = l₁ ++ l₂) (n : Nat) :
    a.rowBack n l₁.getLast? = l₁.reverse.take n := by
  induction l₁ using List.reverseRecOn generalizing l₂ n with
  | nil => cases n <;> rfl
  | append_singleton l₁ x ih =>
    cases n with
    | zero => rfl
    | succ n =>
      have hsplit : s.row p = l₁ ++ x :: l₂ := by rw [hrow]; simp
      have hx : x ∈ s.live := h.row_live (hsplit ▸ List.mem_append_right _ (List.mem_cons_self ..))
      rw [List.getLast?_concat, rowBack, h.links x hx, Family.links_of_row h.sound hsplit,
        ih hsplit, List.reverse_concat, List.take_succ_cons]

theorem children_eq (hp : p ∈ s.live) : a.children p = s.row p := by
  have hlen : (s.row p).length ≤ a.slots.size :=
    length_le_of_nodup (h.sound.row_nodup p) fun _ hx => h.live_lt (h.row_live hx)
  rw [children, (h.ends hp).1, h.rowFrom_eq (show s.row p = [] ++ s.row p from rfl)]
  exact List.take_of_length_le hlen

/-! ### Nodes that are given back -/

theorem release (hx : x ∈ s.live) (hloose : s.parent x = none) :
    (a.release x).Keeps (s.release x) := by
  obtain ⟨-, -, hclan, -⟩ := h.sound.below_spec x
  obtain ⟨hsize, hfree⟩ := frame_release a x
  rw [← h.clan_eq hx] at hfree
  refine ⟨h.sound.release hloose, fun y hy => ?_, ?_, hfree.trans (h.freed.append_left _)⟩
  · obtain ⟨hylive, hout⟩ := List.mem_filter.mp hy
    have hout : y ∉ s.clan x := by simpa using hout
    rw [Family.links_release h.sound hloose hout, ← h.links y hylive]
    refine links_eq ((foldl_releaseSlot a (a.descendants x ++ [x])).2.2 y fun hmem => hout ?_)
    rw [h.clan_eq hx]
    exact (List.perm_append_singleton x _).mem_iff.mp hmem
  · have hsplit : (s.live.filter (· ∉ s.clan x) ++ s.clan x).Perm s.live := by
      refine (List.perm_ext_iff_of_nodup (List.nodup_append.mpr
        ⟨h.sound.live_nodup.filter _, hclan, ?_⟩) h.sound.live_nodup).mpr fun y => ?_
      · rintro y hy z hz rfl
        exact absurd hz (by simpa using (List.mem_filter.mp hy).2)
      · have hsub : y ∈ s.clan x → y ∈ s.live := h.sound.clan_live hx
        simp only [List.mem_append, List.mem_filter, decide_eq_true_eq]
        tauto
    have hall : (s.live.filter (· ∉ s.clan x) ++ (s.clan x ++ a.free)).Perm
        (s.live ++ a.free) := by
      rw [← List.append_assoc]
      exact hsplit.append_right _
    show (s.live.filter (· ∉ s.clan x) ++ (a.release x).free).Perm
      (List.range (a.release x).slotCount)
    rw [hsize]
    exact ((hfree.append_left _).trans hall).trans h.cover

end Keeps

/-! ## Operations -/

/-- What can be done to an arena. -/
inductive Operation where
  | alloc (content : Slot)
  | allocElement (name : String) (span : Span)
  | append (parent child : NodeId)
  | insertBefore (parent : NodeId) (anchor : Option NodeId) (child : NodeId)
  | insertAfter (sibling child : NodeId)
  | detach (id : NodeId)
  | release (id : NodeId)
  | setAttribute (id : NodeId) (key value : String)
  | setStop (id : NodeId) (stop : Nat)

namespace Operation

/-- What an operation does to an arena, and to a family. -/
def apply : Arena × Family → Operation → Arena × Family
  | (a, s), alloc content => ((a.alloc content).1, s.alloc (a.alloc content).2)
  | (a, s), allocElement name span =>
    ((a.allocElement name span).1, s.alloc (a.allocElement name span).2)
  | (a, s), append p c => (a.append p c, s.append p c)
  | (a, s), insertBefore p anchor c => (a.insertBefore p anchor c, s.insertBefore p anchor c)
  | (a, s), insertAfter sibling c => (a.insertAfter sibling c, s.insertAfter sibling c)
  | (a, s), detach x => (a.detach x, s.detach x)
  | (a, s), release x => (a.release x, s.release x)
  | (a, s), setAttribute x key value => (a.setAttribute x key value, s)
  | (a, s), setStop x stop => (a.setStop x stop, s)

end Operation

end Arena

namespace Family

/-- The node `c` may come below `p`: it is loose, and it is neither `p` nor above it. -/
def Fits (s : Family) (p c : NodeId) : Prop :=
  p ∈ s.live ∧ c ∈ s.live ∧ s.parent c = none ∧ p ∉ s.clan c

instance (s : Family) (p c : NodeId) : Decidable (s.Fits p c) :=
  inferInstanceAs (Decidable (_ ∧ _ ∧ _ ∧ _))

end Family

namespace Arena

variable {a : Arena} {s : Family} {p c x : NodeId} {op : Operation}

namespace Operation

/-- When an operation may be done: new nodes have no links, nodes are linked where they fit and next
to a node that is there, and only loose nodes are given back. -/
def Admissible (s : Family) : Operation → Prop
  | alloc content => content.links = {}
  | append p c => s.Fits p c
  | insertBefore p anchor c => s.Fits p c ∧ ∀ x ∈ anchor, x ∈ s.row p
  | insertAfter sibling c => ∃ p ∈ s.parent sibling, s.Fits p c
  | detach x => x ∈ s.live
  | release x => x ∈ s.live ∧ s.parent x = none
  | _ => True

instance decidableAdmissible (s : Family) : (op : Operation) → Decidable (op.Admissible s)
  | alloc content => inferInstanceAs (Decidable (content.links = {}))
  | allocElement .. => .isTrue trivial
  | append p c => inferInstanceAs (Decidable (s.Fits p c))
  | insertBefore p anchor c => inferInstanceAs (Decidable (s.Fits p c ∧ ∀ x ∈ anchor, x ∈ s.row p))
  | insertAfter sibling c => inferInstanceAs (Decidable (∃ p ∈ s.parent sibling, s.Fits p c))
  | detach x => inferInstanceAs (Decidable (x ∈ s.live))
  | release x => inferInstanceAs (Decidable (x ∈ s.live ∧ s.parent x = none))
  | setAttribute .. => .isTrue trivial
  | setStop .. => .isTrue trivial

end Operation

namespace Keeps

variable (h : a.Keeps s)
include h

theorem names (names : NamePool) : ({ a with names := names } : Arena).Keeps s :=
  h.congr (fun _ => rfl) rfl rfl

theorem append (hfits : s.Fits p c) : (a.append p c).Keeps (s.append p c) := by
  obtain ⟨hp, hc, hloose, hnot⟩ := hfits
  exact h.join hp hc hloose hnot (List.append_nil _).symm

theorem insertBefore {anchor : Option NodeId} (hfits : s.Fits p c)
    (hanchor : ∀ x ∈ anchor, x ∈ s.row p) :
    (a.insertBefore p anchor c).Keeps (s.insertBefore p anchor c) := by
  obtain ⟨hp, hc, hloose, hnot⟩ := hfits
  cases anchor with
  | none => exact h.append ⟨hp, hc, hloose, hnot⟩
  | some x =>
    obtain ⟨l₁, l₂, hrow⟩ := List.append_of_mem (hanchor x rfl)
    have hjoin := h.join hp hc hloose hnot hrow
    rw [← insertIdx_before (h.sound.not_beside hrow).1, ← hrow] at hjoin
    exact hjoin

theorem insertAfter {sibling : NodeId} (hover : s.Over p sibling) (hfits : s.Fits p c) :
    (a.insertAfter sibling c).Keeps (s.insertAfter sibling c) := by
  obtain ⟨hp, hc, hloose, hnot⟩ := hfits
  obtain ⟨l₁, l₂, hrow⟩ := List.append_of_mem (h.sound.mem_row.mpr hover)
  have hlinks := h.links sibling (h.sound.inside hover).2
  rw [Family.links_of_row h.sound hrow] at hlinks
  have hsplit : s.row p = (l₁ ++ [sibling]) ++ l₂ := by rw [hrow]; simp
  have hjoin := h.join hp hc hloose hnot hsplit
  rw [← insertIdx_after (h.sound.not_beside hrow).1, ← hrow] at hjoin
  have harena : a.insertAfter sibling c = a.insertBefore p l₂.head? c := by
    rw [Arena.insertAfter, hlinks]
  have hfamily : s.insertAfter sibling c =
      s.join p c ((s.row p).insertIdx ((s.row p).idxOf sibling + 1) c) := by
    rw [Family.insertAfter, hover]
  rw [harena, hfamily]
  exact hjoin

/-- Every operation whose condition is met keeps the family on which the same was done. -/
theorem apply (hop : op.Admissible s) : (op.apply (a, s)).1.Keeps (op.apply (a, s)).2 := by
  cases op with
  | alloc content => exact h.alloc hop
  | allocElement name span => exact (h.names (a.names.intern name).1).alloc rfl
  | append p c => exact h.append hop
  | insertBefore p anchor c => exact h.insertBefore hop.1 hop.2
  | insertAfter sibling c =>
    obtain ⟨p, hp, hfits⟩ := hop
    exact h.insertAfter hp hfits
  | detach x => exact h.detach hop
  | release x => exact h.release hop.1 hop.2
  | setAttribute x key value =>
    exact (h.names (a.names.intern key).1).update x _ fun _ => rfl
  | setStop x stop => exact h.update x _ fun _ => rfl

end Keeps

/-! ## Histories -/

namespace History

/-- An arena and a family after a history. -/
def run (ops : List Operation) : Arena × Family := ops.foldl Operation.apply ({}, {})

/-- Every operation of a history is admissible when its turn comes. -/
def AdmissibleFrom : Arena × Family → List Operation → Prop
  | _, [] => True
  | state, op :: ops => op.Admissible state.2 ∧ AdmissibleFrom (op.apply state) ops

def Admissible (ops : List Operation) : Prop := AdmissibleFrom ({}, {}) ops

instance decidableAdmissibleFrom :
    (state : Arena × Family) → (ops : List Operation) → Decidable (AdmissibleFrom state ops)
  | _, [] => .isTrue trivial
  | state, op :: ops =>
    have := decidableAdmissibleFrom (op.apply state) ops
    inferInstanceAs (Decidable (op.Admissible state.2 ∧ AdmissibleFrom (op.apply state) ops))

instance (ops : List Operation) : Decidable (Admissible ops) :=
  decidableAdmissibleFrom ({}, {}) ops

theorem keeps_foldl {state : Arena × Family} (h : state.1.Keeps state.2) {ops : List Operation}
    (hops : AdmissibleFrom state ops) :
    (ops.foldl Operation.apply state).1.Keeps (ops.foldl Operation.apply state).2 := by
  induction ops generalizing state with
  | nil => exact h
  | cons op ops ih => exact ih (h.apply hops.1) hops.2

theorem keeps_run {ops : List Operation} (h : Admissible ops) : (run ops).1.Keeps (run ops).2 :=
  keeps_foldl keeps_new h

theorem admissibleFrom_append {state : Arena × Family} {ops more : List Operation} :
    AdmissibleFrom state (ops ++ more) ↔
      AdmissibleFrom state ops ∧ AdmissibleFrom (ops.foldl Operation.apply state) more := by
  induction ops generalizing state with
  | nil => exact (and_iff_right trivial).symm
  | cons op ops ih => exact (and_congr_right fun _ => ih).trans and_assoc.symm

/-- A history may go on where it has ended. -/
theorem admissible_append {ops more : List Operation} :
    Admissible (ops ++ more) ↔ Admissible ops ∧ AdmissibleFrom (run ops) more :=
  admissibleFrom_append

theorem run_append (ops more : List Operation) :
    run (ops ++ more) = more.foldl Operation.apply (run ops) := List.foldl_append

/-- After any history the arena represents the family on which the same was done.  Its links give
the row of every node in both directions, the parent of every node in a row and nothing around a
loose one; what they give below a node is the tree that the rows make, in which no node comes twice.
The free slots are those given back, each once; all others are live; and a new node gets none of
the live ones, and no links. -/
theorem ordered_forest (ops : List Operation) (h : Admissible ops) :
    let a := (run ops).1
    let s := (run ops).2
    (∀ x ∈ s.live,
      ((∀ n, a.rowFrom n (a.links x).firstChild = (s.row x).take n) ∧ a.children x = s.row x ∧
        ∀ n, a.rowBack n (a.links x).lastChild = (s.row x).reverse.take n) ∧
      (∀ c ∈ s.row x, c ∈ s.live ∧ (a.links c).parent = some x) ∧
      ((∀ p, x ∉ s.row p) → (a.links x).parent = none ∧ (a.links x).previous = none ∧
        (a.links x).next = none) ∧
      ((s.below x).labels = s.row x ∧ Unfolds s.row (s.below x) ∧
        (x :: (s.below x).preorder).Nodup ∧ a.descendants x = (s.below x).preorder)) ∧
    (a.free.Nodup ∧ (∀ x, x ∈ a.free ↔ x ∈ s.released) ∧
      s.live.Nodup ∧ a.liveCount = s.live.length) ∧
    (∀ content, content.links = {} → (a.alloc content).2 ∉ s.live ∧
      (a.alloc content).1.links (a.alloc content).2 = {}) ∧
    ∀ name span, (a.allocElement name span).2 ∉ s.live ∧
      (a.allocElement name span).1.links (a.allocElement name span).2 = {} := by
  intro a s
  have hkeeps : a.Keeps s := keeps_run h
  refine ⟨fun x hx => ⟨⟨fun n => ?_, hkeeps.children_eq hx, fun n => ?_⟩, fun c hc => ?_,
    fun hnone => ?_, ?_⟩, ⟨?_, fun x => hkeeps.freed.mem_iff, hkeeps.sound.live_nodup,
    hkeeps.liveCount_eq⟩, fun content hcontent => ?_, fun name span => ?_⟩
  · rw [(hkeeps.ends hx).1]
    exact hkeeps.rowFrom_eq (show s.row x = [] ++ s.row x from rfl) n
  · rw [(hkeeps.ends hx).2]
    exact hkeeps.rowBack_eq (List.append_nil _).symm n
  · have hlive := hkeeps.row_live hc
    rw [hkeeps.links c hlive]
    exact ⟨hlive, hkeeps.sound.mem_row.mp hc⟩
  · rw [hkeeps.links x hx, Family.links_of_loose (hkeeps.sound.loose_of_row hnone)]
    exact ⟨rfl, rfl, rfl⟩
  · obtain ⟨hlabels, hrows, hclan, -⟩ := hkeeps.sound.below_spec x
    exact ⟨hlabels, hrows, hclan, by rw [descendants, hkeeps.below_eq hx]⟩
  · exact (List.nodup_append.mp hkeeps.nodup).2.1
  · refine ⟨hkeeps.alloc_fresh content, ?_⟩
    rw [hkeeps.links_alloc, if_pos rfl, hcontent]
  · have hnamed := hkeeps.names (a.names.intern name).1
    exact ⟨hnamed.alloc_fresh _, (hnamed.links_alloc _ _).trans (if_pos rfl)⟩

/-- Children that come first, last and between, a subtree that is given back from the middle of its
row, and a new node in its slot. -/
theorem ordered_forest_recycled :
    let ops : List Operation :=
      [.allocElement "r" ⟨0, 9⟩, .allocElement "a" ⟨0, 1⟩, .allocElement "b" ⟨1, 2⟩,
        .allocElement "c" ⟨2, 3⟩, .allocElement "d" ⟨2, 3⟩, .append 0 1, .insertBefore 0 (some 1) 2,
        .insertAfter 2 3, .append 3 4, .setStop 3 5, .detach 3, .release 3,
        .allocElement "e" ⟨4, 5⟩, .insertAfter 1 3, .setAttribute 3 "k" "v"]
    Admissible ops ∧ (run ops).1.children 0 = [2, 1, 3] ∧ (run ops).1.descendants 0 = [2, 1, 3] ∧
      (∀ x, x ∈ (run ops).1.free ↔ x ∈ [4]) ∧ (run ops).1.liveCount = 4 := by
  intro ops
  have h : Admissible ops := by decide +kernel
  obtain ⟨hlive, ⟨-, hfree, -, hcount⟩, -⟩ := ordered_forest ops h
  have h0 : 0 ∈ (run ops).2.live := by decide +kernel
  obtain ⟨⟨-, hchildren, -⟩, -, -, -, -, -, hdescendants⟩ := hlive 0 h0
  refine ⟨h, hchildren.trans (by decide +kernel), hdescendants.trans (by decide +kernel),
    fun x => (hfree x).trans ?_, hcount.trans (by decide +kernel)⟩
  have hreleased : (run ops).2.released = [4] := by decide +kernel
  rw [hreleased]

end History

end Arena

end Standoff
