import Standoff.Proofs.Drafts
import Standoff.Proofs.Renumbering

/-! # Streams: what a list of events does to a draft

A stream of which no event is refused takes a draft to another one.  The trees of the roots that
have closed and those below each open nonterminal then follow one another in the text:

    0 ≤ roots ≤ start of the outermost frame ≤ its kids ≤ start of the next one ≤ … ≤ cursor

* `Draft.run?`: the draft after a stream.
* `Draft.Nested`: the picture above, kept by every event.
* `Draft.Fits`: no tree that has closed, and no open nonterminal, goes beyond a text. -/

namespace Standoff

namespace Draft

open Markup

/-! ## Steps -/

/-- The draft after a move: what closes takes its place. -/
def settle : Move → Draft
  | .start d => d
  | .stay d => d
  | .close f d => d.attach f

def step? (rule : AttributeCursor) (d : Draft) (e : Event) : Option Draft :=
  (d.move? rule e).map settle

def run? (rule : AttributeCursor) : Draft → List Event → Option Draft
  | d, [] => some d
  | d, e :: rest => (d.step? rule e).bind fun d' => run? rule d' rest

/-- Everything has closed. -/
def Closed (d : Draft) : Prop := d.frames = [] ∧ d.scopes = []

variable {rule : AttributeCursor} {d d' : Draft} {e : Event} {f : Frame} {hi limit : Nat}
  {roots : Forest Element} {fs gs outer : List Frame} {kids : Forest Element}

theorem step?_eq_none_iff : d.step? rule e = none ↔ d.move? rule e = none := Option.map_eq_none_iff

theorem step?_of_move {mv : Move} (h : d.move? rule e = some mv) :
    d.step? rule e = some (settle mv) := by
  rw [step?, h]
  rfl

theorem run?_cons (h : d.step? rule e = some d') (events : List Event) :
    d.run? rule (e :: events) = d'.run? rule events := by
  rw [run?, h]
  rfl

theorem run?_append (d : Draft) (es es' : List Event) :
    d.run? rule (es ++ es') = (d.run? rule es).bind fun d' => d'.run? rule es' := by
  induction es generalizing d with
  | nil => rfl
  | cons e es ih =>
    rw [List.cons_append, run?, run?, Option.bind_assoc]
    simp only [ih]

/-! ## Order of rows -/

/-- The rows of the roots and of the frames, the innermost first, follow one another up to `hi`. -/
def Rows (roots : Forest Element) : Nat → List Frame → Prop
  | hi, [] => Nests 0 hi (blank roots)
  | hi, f :: outer =>
    Nests f.element.span.start hi (blank f.kids) ∧ Rows roots f.element.span.start outer

def Nested (d : Draft) : Prop := Rows d.roots d.cursor d.frames

theorem Rows.mono (h : Rows roots hi fs) {hi' : Nat} (hle : hi ≤ hi') : Rows roots hi' fs := by
  cases fs with
  | nil => exact Nests.mono h (Nat.le_refl _) hle
  | cons f outer => exact ⟨h.1.mono (Nat.le_refl _) hle, h.2⟩

/-- Only the starts and the kids of frames count. -/
theorem Rows.congr
    (hfs : List.Forall₂ (fun f g => g.kids = f.kids ∧ g.element.span = f.element.span) fs gs)
    (h : Rows roots hi fs) : Rows roots hi gs := by
  induction hfs generalizing hi with
  | nil => exact h
  | @cons f g _ _ hfg _ ih =>
    obtain ⟨hkids, hspan⟩ := hfg
    show Nests g.element.span.start hi (blank g.kids) ∧ Rows roots g.element.span.start _
    rw [hkids, hspan]
    exact ⟨h.1, ih h.2⟩

/-- A tree that closes at the cursor follows what was there before it. -/
theorem Rows.attach (h : Rows d.roots f.element.span.start d.frames)
    (hkids : Nests f.element.span.start f.element.span.stop (blank f.kids))
    (hstop : f.element.span.stop = d.cursor) : (d.attach f).Nested := by
  have htree : Nests f.element.span.start d.cursor (blank f.tree) := by
    refine ⟨Nat.le_refl _, hkids, ?_⟩
    exact Nat.le_of_eq hstop
  cases hframes : d.frames with
  | nil =>
    rw [hframes] at h
    rw [attach_of_nil hframes, Nested, hframes]
    show Nests 0 d.cursor (blank (d.roots ++ f.tree))
    rw [blank_append]
    exact Nests.append h htree
  | cons g outer =>
    rw [hframes] at h
    rw [attach_of_cons hframes, Nested]
    show Nests g.element.span.start d.cursor (blank (g.kids ++ f.tree)) ∧ _
    rw [blank_append]
    exact ⟨h.1.append htree, h.2⟩

/-- The rows when a nonterminal has left the stack. -/
theorem Nested.close (h : d.Nested) (hm : d.move? rule e = some (.close f d')) :
    Rows d'.roots f.element.span.start d'.frames ∧
      Nests f.element.span.start f.element.span.stop (blank f.kids) ∧
      f.element.span.stop = d'.cursor ∧ d'.cursor = d.cursor := by
  obtain ⟨g, outer, -, hframes, -, rfl, rfl⟩ := close_cases hm
  rw [Nested, hframes] at h
  exact ⟨h.2, h.1, rfl, rfl⟩

theorem Nested.step (h : d.Nested) (hs : d.step? rule e = some d') : d'.Nested := by
  obtain ⟨mv, hm, rfl⟩ := Option.map_eq_some_iff.mp hs
  cases mv with
  | start d' =>
    obtain ⟨name, -, -, -, rfl⟩ := start_cases hm
    exact ⟨Nat.le_refl _, h⟩
  | stay d' =>
    obtain ⟨hcursor, hroots, hframes⟩ := stay_cases hm
    show Rows d'.roots d'.cursor d'.frames
    rw [hroots]
    exact (h.mono hcursor).congr hframes
  | close f d' =>
    obtain ⟨hrows, hkids, hstop, -⟩ := h.close hm
    exact hrows.attach hkids hstop

theorem nested_empty : ({} : Draft).Nested := Nat.le_refl 0

/-- Trees that nest pass the check of a merge. -/
theorem misfit?_of_nests {lo : Nat} {span : Span} (h : Nests lo hi (blank kids))
    (hlo : span.start ≤ lo) (hhi : hi ≤ span.stop) : misfit? span kids = none := by
  induction kids generalizing lo hi span with
  | nil => rfl
  | node f kids rest ihk ihr =>
    obtain ⟨h₁, h₂, h₃⟩ := h
    have hord : f.span.start ≤ f.span.stop := h₂.le
    have hstop : f.span.stop ≤ hi := h₃.le
    have hstart : span.start ≤ f.span.start := Nat.le_trans hlo h₁
    have hordered : f.span.isOrdered = true := decide_eq_true hord
    have hcontains : span.contains f.span = true := by
      rw [Span.contains, decide_eq_true hstart, decide_eq_true (Nat.le_trans hstop hhi)]
      rfl
    rw [misfit?, hordered, hcontains, ihk h₂ (Nat.le_refl _) (Nat.le_refl _),
      ihr h₃ (Nat.le_trans hstart hord) hhi]
    rfl

/-! ## Fitting -/

/-- What has closed, and what is open, ends in a text of `limit` characters. -/
structure Fits (limit : Nat) (d : Draft) : Prop where
  frames : d.frames ≠ [] → d.cursor ≤ limit
  roots : ∀ e ∈ d.roots.labels, e.span.stop ≤ limit

/-- A draft that fits comes from one that fits. -/
theorem Fits.of_step (h : d'.Fits limit) (hs : d.step? rule e = some d') : d.Fits limit := by
  obtain ⟨mv, hm, rfl⟩ := Option.map_eq_some_iff.mp hs
  cases mv with
  | start d' =>
    obtain ⟨name, -, -, -, rfl⟩ := start_cases hm
    exact ⟨fun _ => h.frames (List.cons_ne_nil _ _), h.roots⟩
  | stay d' =>
    obtain ⟨hcursor, hroots, hframes⟩ := stay_cases hm
    refine ⟨fun hne => Nat.le_trans hcursor (h.frames fun hnil => hne ?_), hroots ▸ h.roots⟩
    have hnil : d'.frames = [] := hnil
    rw [hnil] at hframes
    exact List.forall₂_nil_right_iff.mp hframes
  | close f d' =>
    obtain ⟨g, outer, -, hframes, -, rfl, rfl⟩ := close_cases hm
    cases outer with
    | nil =>
      have hroots : ∀ x ∈ (d.roots ++ (g.endAt d.cursor).tree).labels, x.span.stop ≤ limit :=
        h.roots
      rw [Forest.labels_append] at hroots
      refine ⟨fun _ => ?_, fun x hx => hroots x (List.mem_append_left _ hx)⟩
      exact hroots (g.endAt d.cursor).element (List.mem_append_right _ (List.mem_cons_self ..))
    | cons g' outer => exact ⟨fun _ => h.frames (List.cons_ne_nil _ _), h.roots⟩

theorem Fits.of_run {events : List Event} (h : d'.Fits limit)
    (hs : d.run? rule events = some d') : d.Fits limit := by
  induction events generalizing d with
  | nil =>
    cases hs
    exact h
  | cons e events ih =>
    obtain ⟨d₁, hd₁, hrun⟩ := Option.bind_eq_some_iff.mp hs
    exact (ih hrun).of_step hd₁

end Draft

end Standoff
