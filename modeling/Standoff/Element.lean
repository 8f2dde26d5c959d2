import Standoff.Span

/-! # Elements: a name and attributes over a span

* `Attributes`: names with their values, each name once.
* `Attributes.set`, `Attributes.get?`: a later value for a name takes the place of the earlier
  one, and names keep the order in which they were first set.
* `Attributes.setAll`: pairs that are set one after another.
* `Element`: what a mark-up tree says about one span.
* `Element.rebuilt`: an element made anew, its attributes set one after another. -/

namespace Standoff

/-! ## Attributes -/

/-- Pairs of name and value in the order in which the names were first set, each name once.  Any
other list of pairs is read through `Attributes.setAll`, so that the last value of a name counts. -/
@[ext]
structure Attributes where
  pairs : List (String × String)
  distinct : (pairs.map (·.1)).Nodup
deriving Repr, DecidableEq

namespace Attributes

variable {key value : String} {ps : List (String × String)} {as : Attributes}

instance : EmptyCollection Attributes := ⟨⟨[], .nil⟩⟩

instance : Inhabited Attributes := ⟨{}⟩

/-- Pairs after `value` has been given to `key`: where it stands, or else at the end. -/
def put (key value : String) : List (String × String) → List (String × String)
  | [] => [(key, value)]
  | (k, v) :: rest => if k = key then (k, value) :: rest else (k, v) :: put key value rest

theorem names_put (key value : String) (ps : List (String × String)) :
    (put key value ps).map (·.1) =
      if key ∈ ps.map (·.1) then ps.map (·.1) else ps.map (·.1) ++ [key] := by
  induction ps with
  | nil => rfl
  | cons p rest ih =>
    by_cases hk : p.1 = key
    · simp [put, hk]
    · have hmem : key ∈ (p :: rest).map (·.1) ↔ key ∈ rest.map (·.1) :=
        List.mem_cons.trans (or_iff_right (Ne.symm hk))
      rw [put, if_neg hk, List.map_cons, ih]
      by_cases hin : key ∈ rest.map (·.1)
      · rw [if_pos hin, if_pos (hmem.mpr hin), List.map_cons]
      · rw [if_neg hin, if_neg (mt hmem.mp hin), List.map_cons, List.cons_append]

theorem nodup_put (key value : String) (h : (ps.map (·.1)).Nodup) :
    ((put key value ps).map (·.1)).Nodup := by
  rw [names_put]
  split
  · exact h
  · next hin =>
    refine List.nodup_append.mpr ⟨h, List.nodup_cons.mpr ⟨List.not_mem_nil, .nil⟩, ?_⟩
    intro x hx y hy hxy
    exact hin (List.mem_singleton.mp hy ▸ hxy ▸ hx)

theorem put_of_not_mem (h : key ∉ ps.map (·.1)) : put key value ps = ps ++ [(key, value)] := by
  induction ps with
  | nil => rfl
  | cons p rest ih =>
    obtain ⟨hk, hrest⟩ := not_or.mp (mt List.mem_cons.mpr h)
    rw [put, if_neg (Ne.symm hk), ih hrest, List.cons_append]

theorem lookup_put (key value other : String) (ps : List (String × String)) :
    (put key value ps).lookup other = if other = key then some value else ps.lookup other := by
  induction ps with
  | nil => by_cases ho : other = key <;> simp [put, ho]
  | cons p rest ih =>
    obtain ⟨k, v⟩ := p
    by_cases ho : other = k
    · by_cases hk : k = key <;> simp [put, hk, ho]
    · have hne : (other == k) = false := beq_false_of_ne ho
      by_cases hk : k = key
      · subst hk
        simp [put, List.lookup_cons, ho, hne]
      · simp [put, List.lookup_cons, hk, hne, ih]

def set (key value : String) (as : Attributes) : Attributes :=
  ⟨put key value as.pairs, nodup_put key value as.distinct⟩

def get? (key : String) (as : Attributes) : Option String := as.pairs.lookup key

/-- What `f` makes of the pairs, in order. -/
def map {α : Type} (f : String × String → α) (as : Attributes) : List α := as.pairs.map f

theorem get?_set (key value other : String) (as : Attributes) :
    (as.set key value).get? other = if other = key then some value else as.get? other :=
  lookup_put key value other as.pairs

/-- Sets attributes one after another. -/
def setAll (ps : List (String × String)) (as : Attributes) : Attributes :=
  ps.foldl (fun as p => as.set p.1 p.2) as

theorem setAll_append (ps qs : List (String × String)) (as : Attributes) :
    setAll (ps ++ qs) as = setAll qs (setAll ps as) := List.foldl_append

/-- New names go to the end. -/
theorem pairs_setAll (h : ((as.pairs ++ ps).map (·.1)).Nodup) :
    (setAll ps as).pairs = as.pairs ++ ps := by
  induction ps generalizing as with
  | nil => exact (List.append_nil _).symm
  | cons p rest ih =>
    have hp : (as.set p.1 p.2).pairs = as.pairs ++ [p] := by
      refine put_of_not_mem fun hin => ?_
      rw [List.map_append, List.map_cons] at h
      exact (List.nodup_append.mp h).2.2 _ hin _ List.mem_cons_self rfl
    show (setAll rest (as.set p.1 p.2)).pairs = _
    rw [ih (by rwa [hp, List.append_assoc]), hp, List.append_assoc]
    rfl

/-- Attributes are what their pairs come to. -/
theorem setAll_pairs (as : Attributes) : setAll as.pairs {} = as :=
  Attributes.ext (pairs_setAll as.distinct)

/-- A name that comes again keeps its place and has the later value. -/
example : (setAll [("k", "u"), ("l", "w"), ("k", "v")] {}).pairs = [("k", "v"), ("l", "w")] := by
  decide

end Attributes

/-! ## Elements -/

/-- A named span with attributes. -/
structure Element where
  name : String
  span : Span
  attributes : Attributes := {}
deriving Repr, DecidableEq, Inhabited

/-- The element made anew: its attributes are set one after another on one that has none. -/
def Element.rebuilt (e : Element) : Element :=
  { e with attributes := .setAll e.attributes.pairs {} }

/-- No name stands twice in an element, so that none is lost. -/
@[simp] theorem Element.rebuilt_eq (e : Element) : e.rebuilt = e := by
  rw [rebuilt, Attributes.setAll_pairs]

end Standoff
