import Standoff.Proofs.Histories
import Standoff.Proofs.InPlace

/-!
# Placement as loops over links

Mark-up is taken apart and put together by functions that follow its trees.  An arena has links
only, so there the same work is done by loops that move a cursor from link to link while their
bodies relink nodes around it.  Nothing in such a loop says that it ends; each one gets fuel,
which every node that its cursor comes to uses up by one, and answers `none` if there is none left.

    descend   down through nodes with room for the span
    scan      along the siblings there, cutting what crosses
    split     along the children of a node that is cut, and in the same way below it
    climb     up from a claimed node, to see whether it is in reach

* `Arena.split`, `Arena.place`: a cut, and a placement below a node.
* `Arena.Visited`: the nodes that the loops of a placement come to.
* `Arena.splitRow_more`, `Arena.place_more`: more fuel does not change an answer.
-/

namespace Standoff

/-- How far a scan of siblings goes. -/
inductive Reach where
  /-- Up to the first sibling after the span with nothing behind it that could belong inside. -/
  | needed
  /-- To the end of the row. -/
  | whole
deriving Repr, DecidableEq

namespace Arena

open Markup

/-! ## Cuts -/

/-- Leaves the left half of a node in its slot, and puts the right half behind it. -/
def halve (a : Arena) (pos : Nat) (id : NodeId) : Arena × NodeId :=
  let e := a.element id
  let b := a.alloc { element := { e with span := ⟨pos, e.span.stop⟩ } }
  ((b.1.setStop id pos).insertAfter id b.2, b.2)

/-- Puts a child of a node that is cut on its side: markers at `pos` in front of the right half,
what starts at `pos` or later below it. -/
def shift (a : Arena) (pos : Nat) (span : Span) (parent right child : NodeId) : Arena :=
  if span.isEmptyAt pos then (a.detach child).insertBefore parent (some right) child
  else if pos ≤ span.start then (a.detach child).append right child
  else a

/-- Goes through the children of `id` from a cursor on and puts each on its side.  A child around
`pos` is cut in the same way, which leaves its markers and its right half behind it, where the
loop finds them next. -/
def splitRow (pos : Nat) : Nat → Arena → (id parent right : NodeId) → Option NodeId →
    Option (Arena × List (NodeId × NodeId))
  | _, a, _, _, _, none => some (a, [])
  | 0, _, _, _, _, some _ => none
  | fuel + 1, a, id, parent, right, some child =>
    let span := (a.element child).span
    let inner :=
      if span.strictlyContains pos then
        let b := a.halve pos child
        splitRow pos fuel b.1 child ((b.1.links child).parent.getD Document.rootId) b.2
          (b.1.links child).firstChild
      else some (a, [])
    inner.bind fun inner =>
      let rest := splitRow pos fuel (inner.1.shift pos span parent right child) id parent right
        (inner.1.links child).next
      rest.map fun rest => (rest.1, (id, child) :: inner.2 ++ rest.2)

/-- An arena after a cut. -/
structure Halves where
  arena : Arena
  /-- The right half. -/
  right : NodeId
  /-- Every node that a loop came to, with the node that was being cut. -/
  visits : List (NodeId × NodeId)
deriving DecidableEq

/-- Cuts a node, and all below it that is around `pos`. -/
def split (pos fuel : Nat) (a : Arena) (id : NodeId) : Option Halves :=
  let b := a.halve pos id
  (splitRow pos fuel b.1 id ((b.1.links id).parent.getD Document.rootId) b.2
    (b.1.links id).firstChild).map fun r => ⟨r.1, b.2, r.2⟩

/-! ## The search for the row -/

/-- Goes down from `parent`, whose children the cursor goes through, into nodes that have room for
the span. -/
def descend (a : Arena) (claimed : List NodeId) (span : Span) :
    Nat → NodeId → Option NodeId → Option (NodeId × List NodeId)
  | _, parent, none => some (parent, [])
  | 0, _, some _ => none
  | fuel + 1, parent, some child =>
    let way :=
      if child ∉ claimed ∧ (a.element child).span.admits span = true then
        descend a claimed span fuel child (a.links child).firstChild
      else descend a claimed span fuel parent (a.links child).next
    way.map fun r => (r.1, child :: r.2)

/-- Goes up from a cursor to see whether `ancestor` is on the way. -/
def climb (a : Arena) (ancestor : NodeId) : Nat → Option NodeId → Option (Bool × List NodeId)
  | _, none => some (false, [])
  | 0, some _ => none
  | fuel + 1, some x =>
    if x = ancestor then some (true, [x])
    else (climb a ancestor fuel (a.links x).parent).map fun r => (r.1, x :: r.2)

/-- The claimed nodes that are not below `parent`, and the ways up from all of them. -/
def astray (a : Arena) (parent : NodeId) (fuel : Nat) :
    List NodeId → Option (List NodeId × List (List NodeId))
  | [] => some ([], [])
  | c :: claimed =>
    (a.climb parent fuel (a.links c).parent).bind fun way =>
      (astray a parent fuel claimed).map fun rest =>
        (if way.1 then rest.1 else c :: rest.1, way.2 :: rest.2)

/-! ## The scan of the row -/

/-- A scan on its way. -/
structure Scan where
  arena : Arena
  /-- Siblings that become children. -/
  inside : List NodeId := []
  /-- The sibling in front of which the new node goes. -/
  anchor : Option NodeId := none
  /-- What ended the scan, if it may not cut. -/
  conflict : Option MergeConflict := none
  visits : List NodeId := []
  /-- What the loops of the cuts came to. -/
  splits : List (NodeId × NodeId) := []
deriving DecidableEq

namespace Scan

/-- The scan at one more sibling. -/
def visit (r : Scan) (child : NodeId) : Scan := { r with visits := r.visits ++ [child] }

def adopt (r : Scan) (child : NodeId) : Scan := { r with inside := r.inside ++ [child] }

/-- The first sibling after the span stays the anchor. -/
def stopAt (r : Scan) (child : NodeId) : Scan := { r with anchor := r.anchor.or (some child) }

def cut (r : Scan) (c : Halves) : Scan :=
  { r with arena := c.arena, splits := r.splits ++ c.visits }

end Scan

/-- Goes through siblings from a cursor on.  A sibling that is cut at the start of the span leaves
what was behind the cut to the steps that follow. -/
def scan (e : Element) (claimed : List NodeId) (balancing : Balancing) (reach : Reach) :
    Nat → Scan → Option NodeId → Option Scan
  | _, r, none => some r
  | 0, _, some _ => none
  | fuel + 1, r, some child =>
    let existing := (r.arena.element child).span
    let go (r : Scan) := scan e claimed balancing reach fuel r (r.arena.links child).next
    let r := r.visit child
    if child ∈ claimed then go (r.adopt child)
    else match existing.side e.span, balancing with
      | .before, _ => go r
      | .inside, _ => go (r.adopt child)
      | .after, _ =>
        if reach = .needed ∧ existing.isBeyond e.span = true then some (r.stopAt child)
        else go (r.stopAt child)
      | .crossing _, .strict =>
        some { r with
          conflict := some ⟨e.name, e.span, .crossing (r.arena.element child).name existing⟩ }
      | .crossing pos, .inner =>
        (r.arena.split pos fuel child).bind fun c =>
          go (if existing.start < e.span.start then r.cut c else (r.cut c).adopt child)

/-! ## Placement -/

/-- Why an element over `span` has no place below node `P` in a text of `length` characters. -/
def obstacle? (a : Arena) (length : Nat) (P : NodeId) (span : Span) : Option ConflictReason :=
  if !span.isOrdered then some .inverted
  else if length < span.stop then some (.outOfBounds length)
  else if (a.element P).span.contains span then none
  else some (.outsideParent (a.element P).span)

/-- Moves nodes below `id`, one after another. -/
def adoptAll (a : Arena) (id : NodeId) (children : List NodeId) : Arena :=
  children.foldl (fun a c => (a.detach c).append id c) a

/-- The children of a new node: those from its row, and strays in their order among them. -/
def brood (a : Arena) (inside strays : List NodeId) : List NodeId :=
  match strays with
  | [] => inside
  | _ => (inOrder ((inside ++ strays).map fun c => (c, (a.element c).span))).map (·.1)

/-- Puts an element, made anew, into the row of `parent`, over its children. -/
def settle (a : Arena) (parent : NodeId) (anchor : Option NodeId) (e : Element)
    (children : List NodeId) : Arena × NodeId :=
  let b := ({ a with names := a.names.internAll (Document.namesOf [e]) } : Arena).alloc
    { element := e.rebuilt }
  ((b.1.insertBefore parent anchor b.2).adoptAll b.2 children, b.2)

/-- The nodes that the loops of a placement came to. -/
structure Visited where
  descent : List NodeId := []
  scan : List NodeId := []
  splits : List (NodeId × NodeId) := []
  /-- The ways up from claimed nodes. -/
  walks : List (List NodeId) := []
deriving DecidableEq

/-- No loop comes to a node twice. -/
structure Visited.Once (v : Visited) : Prop where
  descent : v.descent.Nodup
  scan : v.scan.Nodup
  splits : v.splits.Nodup
  walks : ∀ w ∈ v.walks, w.Nodup

/-- An arena after a placement, or after one that failed. -/
structure Placing where
  arena : Arena
  outcome : Except MergeConflict NodeId
  visited : Visited := {}

/-- Places an element below node `P` in a text of `length` characters.  Each loop has its own
fuel. -/
def place (a : Arena) (length : Nat) (P : NodeId) (e : Element) (claimed : List NodeId)
    (balancing : Balancing) (reach : Reach) (fuel : Nat) : Option Placing :=
  match a.obstacle? length P e.span with
  | some reason => some { arena := a, outcome := .error ⟨e.name, e.span, reason⟩ }
  | none =>
    (a.descend claimed e.span fuel P (a.links P).firstChild).bind fun site =>
      (scan e claimed balancing reach fuel { arena := a } (a.links site.1).firstChild).bind fun r =>
        match r.conflict with
        | some conflict =>
          some
            { arena := r.arena, outcome := .error conflict
              visited := { descent := site.2, scan := r.visits, splits := r.splits } }
        | none =>
          (r.arena.astray site.1 fuel claimed).map fun far =>
            let b := r.arena.settle site.1 r.anchor e (r.arena.brood r.inside far.1)
            { arena := b.1, outcome := .ok b.2
              visited :=
                { descent := site.2, scan := r.visits, splits := r.splits, walks := far.2 } }

/-! ## More fuel -/

variable {a : Arena} {pos fuel fuel' : Nat} {id parent right x : NodeId} {cursor : Option NodeId}
  {claimed : List NodeId} {span : Span} {e : Element} {balancing : Balancing} {reach : Reach}

theorem splitRow_more {r : Arena × List (NodeId × NodeId)}
    (h : a.splitRow pos fuel id parent right cursor = some r) (hle : fuel ≤ fuel') :
    a.splitRow pos fuel' id parent right cursor = some r := by
  induction fuel generalizing a id parent right cursor r fuel' with
  | zero =>
    cases cursor with
    | none => cases fuel' <;> exact h
    | some child => cases h
  | succ fuel ih =>
    cases cursor with
    | none => cases fuel' <;> exact h
    | some child =>
      obtain ⟨fuel', rfl⟩ : ∃ n, fuel' = n + 1 := ⟨fuel' - 1, by omega⟩
      have hle : fuel ≤ fuel' := by omega
      simp only [splitRow, Option.bind_eq_some_iff, Option.map_eq_some_iff] at h ⊢
      obtain ⟨inner, hinner, rest, hrest, hr⟩ := h
      refine ⟨inner, ?_, rest, ih hrest hle, hr⟩
      split at hinner
      · next hpos => rw [if_pos hpos, ih hinner hle]
      · next hpos => rw [if_neg hpos, hinner]

theorem split_more {r : Halves} (h : a.split pos fuel id = some r) (hle : fuel ≤ fuel') :
    a.split pos fuel' id = some r := by
  obtain ⟨b, hb, hr⟩ := Option.map_eq_some_iff.mp h
  exact Option.map_eq_some_iff.mpr ⟨b, splitRow_more hb hle, hr⟩

theorem descend_more {r : NodeId × List NodeId}
    (h : a.descend claimed span fuel parent cursor = some r) (hle : fuel ≤ fuel') :
    a.descend claimed span fuel' parent cursor = some r := by
  induction fuel generalizing parent cursor r fuel' with
  | zero =>
    cases cursor with
    | none => cases fuel' <;> exact h
    | some child => cases h
  | succ fuel ih =>
    cases cursor with
    | none => cases fuel' <;> exact h
    | some child =>
      obtain ⟨fuel', rfl⟩ : ∃ n, fuel' = n + 1 := ⟨fuel' - 1, by omega⟩
      have hle : fuel ≤ fuel' := by omega
      simp only [descend, Option.map_eq_some_iff] at h ⊢
      obtain ⟨way, hway, hr⟩ := h
      refine ⟨way, ?_, hr⟩
      split at hway
      · next hchild => rw [if_pos hchild, ih hway hle]
      · next hchild => rw [if_neg hchild, ih hway hle]

theorem climb_more {r : Bool × List NodeId} (h : a.climb x fuel cursor = some r)
    (hle : fuel ≤ fuel') : a.climb x fuel' cursor = some r := by
  induction fuel generalizing cursor r fuel' with
  | zero =>
    cases cursor with
    | none => cases fuel' <;> exact h
    | some y => cases h
  | succ fuel ih =>
    cases cursor with
    | none => cases fuel' <;> exact h
    | some y =>
      obtain ⟨fuel', rfl⟩ : ∃ n, fuel' = n + 1 := ⟨fuel' - 1, by omega⟩
      have hle : fuel ≤ fuel' := by omega
      rw [climb] at h ⊢
      split at h
      · next hy => rw [if_pos hy, h]
      · next hy =>
        obtain ⟨way, hway, hr⟩ := Option.map_eq_some_iff.mp h
        rw [if_neg hy, ih hway hle, Option.map_some, hr]

theorem astray_more {r : List NodeId × List (List NodeId)}
    (h : a.astray parent fuel claimed = some r) (hle : fuel ≤ fuel') :
    a.astray parent fuel' claimed = some r := by
  induction claimed generalizing r with
  | nil => exact h
  | cons c claimed ih =>
    simp only [astray, Option.bind_eq_some_iff, Option.map_eq_some_iff] at h ⊢
    obtain ⟨way, hway, rest, hrest, hr⟩ := h
    exact ⟨way, climb_more hway hle, rest, ih hrest, hr⟩

theorem scan_more {r r' : Scan} (h : scan e claimed balancing reach fuel r cursor = some r')
    (hle : fuel ≤ fuel') : scan e claimed balancing reach fuel' r cursor = some r' := by
  induction fuel generalizing r cursor fuel' with
  | zero =>
    cases cursor with
    | none => cases fuel' <;> exact h
    | some child => cases h
  | succ fuel ih =>
    cases cursor with
    | none => cases fuel' <;> exact h
    | some child =>
      obtain ⟨fuel', rfl⟩ : ∃ n, fuel' = n + 1 := ⟨fuel' - 1, by omega⟩
      have hle : fuel ≤ fuel' := by omega
      simp only [scan] at h ⊢
      by_cases hchild : child ∈ claimed
      · rw [if_pos hchild] at h ⊢
        exact ih h hle
      · rw [if_neg hchild] at h ⊢
        cases hside : (r.arena.element child).span.side e.span with
        | before =>
          rw [hside] at h
          exact ih h hle
        | inside =>
          rw [hside] at h
          exact ih h hle
        | after =>
          simp only [hside] at h ⊢
          split at h
          · next hreach => rw [if_pos hreach, h]
          · next hreach =>
            rw [if_neg hreach]
            exact ih h hle
        | crossing pos =>
          cases balancing with
          | strict =>
            rw [hside] at h
            exact h
          | inner =>
            simp only [hside, Option.bind_eq_some_iff] at h ⊢
            obtain ⟨c, hc, hgo⟩ := h
            exact ⟨c, split_more hc hle, ih hgo hle⟩

theorem place_more {length : Nat} {P : NodeId} {r : Placing}
    (h : a.place length P e claimed balancing reach fuel = some r) (hle : fuel ≤ fuel') :
    a.place length P e claimed balancing reach fuel' = some r := by
  unfold place at h ⊢
  split at h
  · exact h
  · simp only [Option.bind_eq_some_iff] at h ⊢
    obtain ⟨site, hsite, r', hscan, h⟩ := h
    refine ⟨site, descend_more hsite hle, r', scan_more hscan hle, ?_⟩
    split at h
    · exact h
    · rw [Option.map_eq_some_iff] at h ⊢
      obtain ⟨far, hfar, hr⟩ := h
      exact ⟨far, astray_more hfar hle, hr⟩

end Arena

end Standoff
