/-! # Ordered forests

A forest is a row of trees, each a label over a forest of its own.  The row is built into the
type: `node label children rest` is a tree followed by the rest of its row, so one structural
recursion visits children and later siblings alike.

* `Forest.append` (`++`), `Forest.map`, `Forest.preorder`, `Forest.labels`: rows as lists.
* `Forest.find?`, `Forest.row?`: look-up by a test on labels.
* `Forest.focus`: the innermost row that a test leads into, and how to put another in its place.
* `Forest.remove`, `Forest.adopt`: taking a tree out, and adding one under a node. -/

namespace Standoff

/-- A row of trees with labels in `α`. -/
inductive Forest (α : Type) where
  | nil
  | node (label : α) (children rest : Forest α)
deriving Repr, DecidableEq, Inhabited

/-- One tree: a label over its children. -/
structure Tree (α : Type) where
  label : α
  children : Forest α
deriving Repr, DecidableEq

namespace Forest

variable {α β : Type}

/-! ## Rows -/

def isNil : Forest α → Bool
  | nil => true
  | node .. => false

def append : Forest α → Forest α → Forest α
  | nil, g => g
  | node a kids rest, g => node a kids (append rest g)

instance : Append (Forest α) := ⟨append⟩

@[simp] theorem nil_append (g : Forest α) : nil ++ g = g := rfl

@[simp] theorem node_append (a : α) (kids rest g : Forest α) :
    node a kids rest ++ g = node a kids (rest ++ g) := rfl

@[simp] theorem append_nil (f : Forest α) : f ++ nil = f := by
  induction f with
  | nil => rfl
  | node a kids rest _ ih => simp [ih]

theorem append_assoc (f g h : Forest α) : f ++ g ++ h = f ++ (g ++ h) := by
  induction f with
  | nil => rfl
  | node a kids rest _ ih => simp [ih]

/-- The row of one tree. -/
def ofTree (t : Tree α) : Forest α := node t.label t.children nil

def map (f : α → β) : Forest α → Forest β
  | nil => nil
  | node a kids rest => node (f a) (kids.map f) (rest.map f)

@[simp] theorem map_append (f : α → β) (g h : Forest α) : (g ++ h).map f = g.map f ++ h.map f := by
  induction g with
  | nil => rfl
  | node a kids rest _ ih => simp [map, ih]

/-- The labels of the row itself, left to right. -/
def labels : Forest α → List α
  | nil => []
  | node a _ rest => a :: rest.labels

@[simp] theorem labels_append (f g : Forest α) : (f ++ g).labels = f.labels ++ g.labels := by
  induction f with
  | nil => rfl
  | node a kids rest _ ih => simp [labels, ih]

/-- All labels, each before those below it and after those to its left, in front of `tail`. -/
def preorderOnto : Forest α → List α → List α
  | nil, tail => tail
  | node a kids rest, tail => a :: kids.preorderOnto (rest.preorderOnto tail)

/-- All labels, each before those below it and after those to its left. -/
def preorder (f : Forest α) : List α := f.preorderOnto []

theorem preorderOnto_eq (f : Forest α) (tail : List α) :
    f.preorderOnto tail = f.preorder ++ tail := by
  induction f generalizing tail with
  | nil => rfl
  | node a kids rest ihk ihr =>
    simp only [preorder, preorderOnto]
    rw [ihk, ihk (rest.preorderOnto []), ihr]
    simp [preorder]

@[simp] theorem preorder_nil : (nil : Forest α).preorder = [] := rfl

@[simp] theorem preorder_node (a : α) (kids rest : Forest α) :
    (node a kids rest).preorder = a :: (kids.preorder ++ rest.preorder) := by
  show a :: kids.preorderOnto (rest.preorderOnto []) = _
  rw [preorderOnto_eq]
  rfl

@[simp] theorem preorder_append (f g : Forest α) :
    (f ++ g).preorder = f.preorder ++ g.preorder := by
  induction f with
  | nil => rfl
  | node a kids rest _ ih => simp [ih]

@[simp] theorem preorder_map (f : α → β) (g : Forest α) : (g.map f).preorder = g.preorder.map f := by
  induction g with
  | nil => rfl
  | node a kids rest ihk ihr => simp [map, ihk, ihr]

/-- Number of labels. -/
def size : Forest α → Nat
  | nil => 0
  | node _ kids rest => 1 + kids.size + rest.size

theorem length_preorder (f : Forest α) : f.preorder.length = f.size := by
  induction f with
  | nil => rfl
  | node a kids rest ihk ihr => simp [size, ihk, ihr]; omega

/-! ## Look-up -/

/-- The first tree, in document order, whose label passes `p`. -/
def find? (p : α → Bool) : Forest α → Option (Tree α)
  | nil => none
  | node a kids rest =>
    if p a then some ⟨a, kids⟩ else (kids.find? p).or (rest.find? p)

/-- The parent's label (`none` for a tree of the outermost row) and the row of the first label
that passes `p`. -/
def row? (p : α → Bool) (f : Forest α) : Option (Option α × List α) :=
  if f.labels.any p then some (none, f.labels) else below f
where
  /-- Rows below the outermost one. -/
  below : Forest α → Option (Option α × List α)
    | nil => none
    | node a kids rest =>
      if kids.labels.any p then some (some a, kids.labels)
      else (below kids).or (below rest)

/-- Changes the labels that pass `p`. -/
def modify (p : α → Bool) (g : α → α) (f : Forest α) : Forest α :=
  f.map fun a => if p a then g a else a

/-! ## Focus -/

/-- A row inside a forest, and the forest around it. -/
structure Focus (α : Type) where
  row : Forest α
  /-- The whole forest with another row in the place of `row`. -/
  plug : Forest α → Forest α

/-- Goes into the first tree whose label passes `enters`, then on inside it; `none` if no tree
of the row lets it in. -/
def focus? (enters : α → Bool) : Forest α → Option (Focus α)
  | nil => none
  | node a kids rest =>
    if enters a then
      match kids.focus? enters with
      | some inner => some ⟨inner.row, fun g => node a (inner.plug g) rest⟩
      | none => some ⟨kids, fun g => node a g rest⟩
    else
      match rest.focus? enters with
      | some right => some ⟨right.row, fun g => node a kids (right.plug g)⟩
      | none => none

/-- The innermost row that `enters` leads into, the outermost one if it leads nowhere. -/
def focus (enters : α → Bool) (f : Forest α) : Focus α :=
  (f.focus? enters).getD ⟨f, id⟩

/-- Plugging the row back in gives the forest it was found in. -/
theorem plug_focus? (enters : α → Bool) (f : Forest α) (c : Focus α)
    (h : f.focus? enters = some c) : c.plug c.row = f := by
  induction f generalizing c with
  | nil => cases h
  | node a kids rest ihk ihr =>
    unfold focus? at h
    split at h
    · split at h
      · cases h; simp [ihk _ (by assumption)]
      · cases h; rfl
    · split at h
      · cases h; simp [ihr _ (by assumption)]
      · cases h

@[simp] theorem plug_focus (enters : α → Bool) (f : Forest α) :
    (f.focus enters).plug (f.focus enters).row = f := by
  unfold focus
  cases h : f.focus? enters with
  | none => rfl
  | some c => exact plug_focus? enters f c h

/-! ## Moving trees -/

/-- The forest without the first tree whose label passes `p`, and that tree. -/
def remove (p : α → Bool) : Forest α → Option (Tree α × Forest α)
  | nil => none
  | node a kids rest =>
    if p a then some (⟨a, kids⟩, rest)
    else match kids.remove p with
      | some (t, kids) => some (t, node a kids rest)
      | none => match rest.remove p with
        | some (t, rest) => some (t, node a kids rest)
        | none => none

/-- Adds `t` as the last child of every node that passes `p`. -/
def adopt (p : α → Bool) (t : Tree α) : Forest α → Forest α
  | nil => nil
  | node a kids rest =>
    if p a then node a (kids ++ ofTree t) rest
    else node a (kids.adopt p t) (rest.adopt p t)

end Forest

end Standoff
