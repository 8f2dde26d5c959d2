import Mathlib.Algebra.Order.BigOperators.Group.Finset
import Mathlib.Algebra.Order.Ring.Nat
import Mathlib.Data.List.Induction
import Standoff.NamePool
import Standoff.Proofs.Bytes

/-!
# Names come back as they went in

A pool that was new before a list of names came in knows every one of them under a number of its
own, whatever the hash.  With `known` for the names in the order in which they first came in, the
empty one in front,

    pool.get? id = known[id]?                        (get?)
    known[id]? = some s, s not empty → id is in the bucket of s    (filed)

and both stay true as long as offsets fit into a word, that is, as long as the known names have
fewer than 2^32 bytes.

* `NamePool.Knows`: the pool knows a list of names; kept by `NamePool.Knows.intern`.
* `NamePool.interning`: what a pool answers after any list of names.
-/

namespace Standoff

namespace NamePool

variable {hash : String → UInt64} {pool : NamePool} {known : List String} {s t : String}
  {h k : UInt64} {id : Nat}

/-! ## Buckets -/

theorem bucket_addToBucket (id : UInt32) (buckets : List (UInt64 × List UInt32)) :
    bucket h (addToBucket k id buckets) =
      if k = h then bucket h buckets ++ [id] else bucket h buckets := by
  induction buckets with
  | nil =>
    by_cases hk : k = h
    · simp [addToBucket, bucket, hk]
    · simp [addToBucket, bucket, hk]
  | cons b rest ih =>
    obtain ⟨j, ids⟩ := b
    rw [addToBucket]
    by_cases hj : j = k
    · subst hj
      by_cases hk : j = h
      · simp [bucket, hk]
      · simp [bucket, hk]
    · rw [if_neg hj, bucket, bucket, ih]
      by_cases hjh : j = h
      · subst hjh
        rw [if_pos rfl, if_pos rfl, if_neg fun heq => hj heq.symm]
      · rw [if_neg hjh, if_neg hjh]

/-! ## A pool and the names that it knows -/

/-- The pool knows the names of a list by their places in it. -/
structure Knows (hash : String → UInt64) (pool : NamePool) (known : List String) : Prop where
  first : known[0]? = some ""
  distinct : known.Nodup
  size : pool.size = known.length
  bytes : pool.data.utf8ByteSize = (known.map String.utf8ByteSize).sum
  get? : ∀ id, pool.get? id = known[id]?
  filed : ∀ id s, known[id]? = some s → s ≠ "" →
    ∃ k ∈ bucket (hash s) pool.buckets, k.toNat = id

theorem knows_new (hash : String → UInt64) : Knows hash {} [""] := by
  refine ⟨rfl, List.nodup_singleton _, rfl, rfl, fun id => ?_, fun id s hs hne => ?_⟩
  · cases id with
    | zero => rfl
    | succ id => rfl
  · cases id with
    | zero => exact absurd (Option.some.inj hs).symm hne
    | succ id => cases hs

/-- Every name but the empty one takes a byte. -/
theorem length_le_bytes (known : List String) :
    known.length ≤ (known.map String.utf8ByteSize).sum + known.count "" := by
  induction known with
  | nil => simp
  | cons s known ih =>
    rw [List.length_cons, List.map_cons, List.sum_cons, List.count_cons]
    by_cases hs : s = ""
    · simp only [hs, beq_self_eq_true, if_true]
      omega
    · have hpos : s.utf8ByteSize ≠ 0 := fun h0 => hs (String.utf8ByteSize_eq_zero_iff.mp h0)
      omega

namespace Knows

variable (hp : Knows hash pool known)
include hp

theorem empty_mem : "" ∈ known := List.mem_of_getElem? hp.first

theorem size_le : pool.size ≤ pool.data.utf8ByteSize + 1 := by
  have hlen := length_le_bytes known
  have hcount := List.nodup_iff_count_le_one.mp hp.distinct ""
  rw [hp.size, hp.bytes]
  omega

theorem place_unique {i j : Nat} (hi : known[i]? = some s) (hj : known[j]? = some s) : i = j := by
  obtain ⟨hlt, -⟩ := List.getElem?_eq_some_iff.mp hi
  exact (List.getElem?_inj hlt hp.distinct).mp (hi.trans hj.symm)

/-- Look-up finds the place of a name, whatever shares its bucket. -/
theorem lookupWith_eq_some_iff : pool.lookupWith hash s = some id ↔ known[id]? = some s := by
  unfold lookupWith
  by_cases hs : s = ""
  · subst hs
    rw [if_pos rfl]
    constructor
    · rintro ⟨⟩
      exact hp.first
    · intro hid
      rw [hp.place_unique hp.first hid]
  · rw [if_neg hs]
    constructor
    · intro hfind
      obtain ⟨k, hk, rfl⟩ := Option.map_eq_some_iff.mp hfind
      have hget := List.find?_some hk
      rw [beq_iff_eq, hp.get?] at hget
      exact hget
    · intro hid
      obtain ⟨k, hk, hkid⟩ := hp.filed id s hid hs
      -- some number of the bucket passes, and only the place of `s` can
      have hpass : (pool.get? k.toNat == some s) = true := by
        rw [beq_iff_eq, hp.get?, hkid, hid]
      have hsome : ((bucket (hash s) pool.buckets).find? fun k =>
          pool.get? k.toNat == some s).isSome = true := List.find?_isSome.mpr ⟨k, hk, hpass⟩
      obtain ⟨j, hj⟩ := Option.isSome_iff_exists.mp hsome
      have hget := List.find?_some hj
      rw [beq_iff_eq, hp.get?] at hget
      rw [hj, Option.map_some, hp.place_unique hget hid]

theorem lookupWith_eq_none_iff : pool.lookupWith hash s = none ↔ s ∉ known := by
  constructor
  · intro hnone hmem
    obtain ⟨id, hid⟩ := List.mem_iff_getElem?.mp hmem
    rw [hp.lookupWith_eq_some_iff.mpr hid] at hnone
    cases hnone
  · intro hs
    cases hfound : pool.lookupWith hash s with
    | none => rfl
    | some id => exact absurd (List.mem_of_getElem? (hp.lookupWith_eq_some_iff.mp hfound)) hs

theorem get?_isSome_iff : (pool.get? id).isSome = true ↔ id < pool.size := by
  rw [hp.get?, hp.size]
  simp

/-- The number of a new name fits into a word if its bytes do. -/
theorem toNat_size (hs : s ∉ known)
    (hfits : pool.data.utf8ByteSize + s.utf8ByteSize < 2 ^ 32) :
    (UInt32.ofNat pool.size).toNat = pool.size := by
  have hpos : s.utf8ByteSize ≠ 0 := fun h0 =>
    hs (String.utf8ByteSize_eq_zero_iff.mp h0 ▸ hp.empty_mem)
  have hsize := hp.size_le
  refine UInt32.toNat_ofNat_of_lt' ?_
  show pool.size < 2 ^ 32
  omega

/-- The names resolve as before, and the new one by the next number. -/
theorem get?_add (hfits : pool.data.utf8ByteSize + s.utf8ByteSize < 2 ^ 32) (id : Nat) :
    (pool.add hash s).get? id = (known ++ [s])[id]? := by
  show (pool.entries.push _)[id]?.bind _ = _
  have hsize : pool.entries.size = known.length := hp.size
  rw [Array.getElem?_push, hsize]
  by_cases hid : id = known.length
  · have hoffset : (UInt32.ofNat pool.data.utf8ByteSize).toNat = pool.data.utf8ByteSize :=
      UInt32.toNat_ofNat_of_lt' (by show pool.data.utf8ByteSize < 2 ^ 32; omega)
    have hlength : (UInt32.ofNat s.utf8ByteSize).toNat = s.utf8ByteSize :=
      UInt32.toNat_ofNat_of_lt' (by show s.utf8ByteSize < 2 ^ 32; omega)
    rw [if_pos hid, hid, List.getElem?_concat_length, Option.bind_some]
    show Text.bytes? (pool.data ++ s) _ _ = _
    rw [hoffset, hlength]
    exact Text.bytes?_between pool.data s
  · rw [if_neg hid]
    have hold : pool.get? id = known[id]? := hp.get? id
    by_cases hlt : id < known.length
    · rw [List.getElem?_append_left hlt, ← hold]
      have hsome : known[id]? = some known[id] := List.getElem?_eq_getElem hlt
      rw [hsome] at hold
      unfold NamePool.get? at hold ⊢
      obtain ⟨e, he, hbytes⟩ := Option.bind_eq_some_iff.mp hold
      rw [he, Option.bind_some, Option.bind_some, hbytes]
      exact Text.bytes?_longer hbytes s
    · have hnone : pool.entries[id]? = none :=
        Array.getElem?_eq_none (by rw [hsize]; omega)
      rw [hnone, List.getElem?_eq_none (by rw [List.length_append, List.length_singleton]; omega)]
      rfl

/-- The names are filed as before, and the new one in the bucket of its hash. -/
theorem filed_add (hs : s ∉ known) (hfits : pool.data.utf8ByteSize + s.utf8ByteSize < 2 ^ 32)
    {t : String} (ht : (known ++ [s])[id]? = some t) (hne : t ≠ "") :
    ∃ k ∈ bucket (hash t) (pool.add hash s).buckets, k.toNat = id := by
  show ∃ k ∈ bucket (hash t) (addToBucket (hash s) (UInt32.ofNat pool.size) pool.buckets), _
  rw [bucket_addToBucket]
  rcases Nat.lt_or_ge id known.length with hlt | hge
  · rw [List.getElem?_append_left hlt] at ht
    obtain ⟨k, hk, hkid⟩ := hp.filed id t ht hne
    refine ⟨k, ?_, hkid⟩
    split
    · exact List.mem_append_left _ hk
    · exact hk
  · rw [List.getElem?_append_right hge] at ht
    obtain ⟨hzero, rfl⟩ : id - known.length = 0 ∧ s = t := by
      simpa [List.getElem?_singleton] using ht
    rw [if_pos rfl]
    refine ⟨_, List.mem_append_right _ (List.mem_singleton_self _), ?_⟩
    rw [hp.toNat_size hs hfits, hp.size]
    omega

/-- A new name takes the next number and leaves the others. -/
theorem add (hs : s ∉ known) (hfits : pool.data.utf8ByteSize + s.utf8ByteSize < 2 ^ 32) :
    Knows hash (pool.add hash s) (known ++ [s]) where
  first := by
    rw [List.getElem?_append_left (List.length_pos_of_mem hp.empty_mem)]
    exact hp.first
  distinct := by
    rw [← List.concat_eq_append]
    exact hp.distinct.concat hs
  size := by
    show (pool.entries.push _).size = _
    rw [Array.size_push, List.length_append, List.length_singleton]
    exact congrArg (· + 1) hp.size
  bytes := by
    show (pool.data ++ s).utf8ByteSize = _
    rw [String.utf8ByteSize_append, hp.bytes, List.map_append, List.sum_append]
    simp
  get? := hp.get?_add hfits
  filed _ _ := hp.filed_add hs hfits

end Knows

/-! ## Lists of names -/

/-- The known names after `s` has come in. -/
def learn (known : List String) (s : String) : List String :=
  if s ∈ known then known else known ++ [s]

/-- The names of a list in the order in which they first come in, after the empty one. -/
def learned (names : List String) : List String := names.foldl learn [""]

/-- The pool after a list of names has come into a new one. -/
def after (hash : String → UInt64) (names : List String) : NamePool :=
  names.foldl (fun pool s => (pool.internWith hash s).1) {}

/-- The number handed out for `s` when it comes in after the names of a list. -/
def numberAfter (hash : String → UInt64) (names : List String) (s : String) : Nat :=
  ((after hash names).internWith hash s).2

theorem after_concat (hash : String → UInt64) (names : List String) (s : String) :
    after hash (names ++ [s]) = ((after hash names).internWith hash s).1 := by
  unfold after
  rw [List.foldl_append]
  rfl

theorem learned_concat (names : List String) (s : String) :
    learned (names ++ [s]) = learn (learned names) s := by
  unfold learned
  rw [List.foldl_append]
  rfl

/-- A name that comes in takes or keeps its place. -/
theorem Knows.intern (hp : Knows hash pool known)
    (hfits : s ∉ known → pool.data.utf8ByteSize + s.utf8ByteSize < 2 ^ 32) :
    Knows hash (pool.internWith hash s).1 (learn known s) ∧
      (learn known s)[(pool.internWith hash s).2]? = some s := by
  unfold internWith
  by_cases hs : s ∈ known
  · obtain ⟨id, hid⟩ := List.mem_iff_getElem?.mp hs
    rw [hp.lookupWith_eq_some_iff.mpr hid, learn, if_pos hs]
    exact ⟨hp, hid⟩
  · rw [hp.lookupWith_eq_none_iff.mpr hs, learn, if_neg hs]
    refine ⟨hp.add hs (hfits hs), ?_⟩
    rw [hp.toNat_size hs (hfits hs), hp.size]
    exact List.getElem?_concat_length

theorem mem_learn : t ∈ learn known s ↔ t ∈ known ∨ t = s := by
  unfold learn
  split
  · next hs => exact ⟨Or.inl, fun ht => ht.elim id fun heq => heq ▸ hs⟩
  · rw [List.mem_append, List.mem_singleton]

theorem nodup_learn (h : known.Nodup) : (learn known s).Nodup := by
  unfold learn
  split
  · exact h
  · next hs =>
    rw [← List.concat_eq_append]
    exact h.concat hs

theorem prefix_learn (known : List String) (s : String) : known <+: learn known s := by
  unfold learn
  split
  · exact List.prefix_refl known
  · exact List.prefix_append known [s]

theorem mem_learned (names : List String) : s ∈ learned names ↔ s = "" ∨ s ∈ names := by
  induction names using List.reverseRecOn with
  | nil => simp [learned]
  | append_singleton names t ih =>
    rw [learned_concat, mem_learn, ih, List.mem_append, List.mem_singleton, or_assoc]

theorem nodup_learned (names : List String) : (learned names).Nodup := by
  induction names using List.reverseRecOn with
  | nil => exact List.nodup_singleton _
  | append_singleton names t ih =>
    rw [learned_concat]
    exact nodup_learn ih

/-- Known names keep their places. -/
theorem prefix_learned (names later : List String) :
    learned names <+: learned (names ++ later) := by
  induction later using List.reverseRecOn with
  | nil => rw [List.append_nil]
  | append_singleton later t ih =>
    rw [← List.append_assoc, learned_concat]
    exact ih.trans (prefix_learn _ t)

theorem toFinset_learned (names : List String) :
    (learned names).toFinset = insert "" names.toFinset := by
  ext s
  rw [List.mem_toFinset, mem_learned, Finset.mem_insert, List.mem_toFinset]

theorem sum_learned (names : List String) :
    ((learned names).map String.utf8ByteSize).sum = ∑ s ∈ names.toFinset, s.utf8ByteSize := by
  rw [← List.sum_toFinset String.utf8ByteSize (nodup_learned names), toFinset_learned]
  exact Finset.sum_insert_of_eq_zero_if_notMem fun _ => rfl

theorem length_learned (names : List String) :
    (learned names).length = 1 + (names.toFinset.erase "").card := by
  rw [← List.toFinset_card_of_nodup (nodup_learned names), toFinset_learned,
    ← Finset.insert_erase (Finset.mem_insert_self "" names.toFinset),
    Finset.erase_insert_eq_erase, Finset.card_insert_of_notMem (Finset.notMem_erase _ _)]
  omega

/-! ## Pools after lists of names -/

/-- A new pool that names came into knows them. -/
theorem knows_after (hash : String → UInt64) (names : List String)
    (hfits : ∑ s ∈ names.toFinset, s.utf8ByteSize < 2 ^ 32) :
    Knows hash (after hash names) (learned names) := by
  induction names using List.reverseRecOn with
  | nil => exact knows_new hash
  | append_singleton names s ih =>
    have hset : (names ++ [s]).toFinset = insert s names.toFinset := by
      ext t
      simp
    have hle : ∑ t ∈ names.toFinset, t.utf8ByteSize ≤
        ∑ t ∈ (names ++ [s]).toFinset, t.utf8ByteSize := by
      rw [hset]
      exact Finset.sum_le_sum_of_subset (Finset.subset_insert s _)
    have hp := ih (by omega)
    rw [after_concat, learned_concat]
    refine (hp.intern fun hs => ?_).1
    have hnew : s ∉ names.toFinset := fun hmem =>
      hs ((mem_learned names).mpr (Or.inr (List.mem_toFinset.mp hmem)))
    rw [hset, Finset.sum_insert hnew] at hfits
    rw [hp.bytes, sum_learned]
    omega

/-- The number handed out for a name is its place from then on. -/
theorem learned_numberAfter (hash : String → UInt64) {names before later : List String}
    (hfits : ∑ s ∈ names.toFinset, s.utf8ByteSize < 2 ^ 32)
    (hnames : names = before ++ s :: later) :
    Knows hash (after hash (before ++ [s])) (learned (before ++ [s])) ∧
      (learned (before ++ [s]))[numberAfter hash before s]? = some s ∧
      (learned names)[numberAfter hash before s]? = some s := by
  have hsplit : names = (before ++ [s]) ++ later := by rw [hnames]; simp
  have hle (part rest : List String) (hpart : names = part ++ rest) :
      ∑ t ∈ part.toFinset, t.utf8ByteSize < 2 ^ 32 := by
    refine Nat.lt_of_le_of_lt (Finset.sum_le_sum_of_subset fun t ht => ?_) hfits
    rw [List.mem_toFinset] at ht ⊢
    rw [hpart]
    exact List.mem_append_left _ ht
  have hbefore := knows_after hash before (hle before _ hnames)
  have hsum := hle (before ++ [s]) later hsplit
  have hnow := knows_after hash (before ++ [s]) hsum
  have hplace : (learned (before ++ [s]))[numberAfter hash before s]? = some s := by
    rw [learned_concat]
    refine (hbefore.intern fun hs => ?_).2
    -- the bytes of the pool with `s` are among those of all names
    have hlearn : learned (before ++ [s]) = learned before ++ [s] := by
      rw [learned_concat, learn, if_neg hs]
    rw [← sum_learned, hlearn, List.map_append, List.sum_append] at hsum
    rw [hbefore.bytes]
    simpa using hsum
  refine ⟨hnow, hplace, ?_⟩
  obtain ⟨more, hmore⟩ := prefix_learned (before ++ [s]) later
  obtain ⟨hlt, -⟩ := List.getElem?_eq_some_iff.mp hplace
  rw [hsplit, ← hmore, List.getElem?_append_left hlt]
  exact hplace

/-- A pool that was new before any list of names came in, whatever the hash, if the distinct names
have fewer than 2^32 bytes and so are fewer than that themselves.  Every name resolves from its
number at once and from then on, and is found under it; two names have the same number only if
they are equal; of other names only the empty one is found; the numbers are those below the size,
and the size counts the distinct names. -/
theorem interning (hash : String → UInt64) (names : List String)
    (hfits : ∑ s ∈ names.toFinset, s.utf8ByteSize < 2 ^ 32) :
    let pool : NamePool := after hash names
    (∀ before s later, names = before ++ s :: later →
      (after hash (before ++ [s])).get? (numberAfter hash before s) = some s ∧
      pool.get? (numberAfter hash before s) = some s ∧
      pool.lookupWith hash s = some (numberAfter hash before s)) ∧
    (∀ before s later before' t later',
      names = before ++ s :: later → names = before' ++ t :: later' →
      (numberAfter hash before s = numberAfter hash before' t ↔ s = t)) ∧
    (pool.lookupWith hash "" = some 0 ∧
      ∀ s, pool.lookupWith hash s = none ↔ s ≠ "" ∧ s ∉ names) ∧
    (∀ id, (pool.get? id).isSome = true ↔ id < pool.size) ∧
    pool.size = 1 + (names.toFinset.erase "").card := by
  intro pool
  have hp : Knows hash pool (learned names) := knows_after hash names hfits
  refine ⟨fun before s later hnames => ?_,
    fun before s later before' t later' hs ht => ⟨fun heq => ?_, fun heq => ?_⟩, ⟨?_, fun s => ?_⟩,
    fun id => hp.get?_isSome_iff, hp.size.trans (length_learned names)⟩
  · obtain ⟨hnow, hplace, hlast⟩ := learned_numberAfter hash hfits hnames
    refine ⟨(hnow.get? _).trans hplace, (hp.get? _).trans hlast, ?_⟩
    exact hp.lookupWith_eq_some_iff.mpr hlast
  · have hlast := (learned_numberAfter hash hfits hs).2.2
    have hlast' := (learned_numberAfter hash hfits ht).2.2
    rw [heq] at hlast
    exact Option.some.inj (hlast.symm.trans hlast')
  · subst heq
    exact hp.place_unique (learned_numberAfter hash hfits hs).2.2
      (learned_numberAfter hash hfits ht).2.2
  · exact hp.lookupWith_eq_some_iff.mpr hp.first
  · rw [hp.lookupWith_eq_none_iff, mem_learned, not_or]

/-- Names that share one bucket: a name within another, a prefix of it, one of two bytes, the empty
one, and a name that comes in twice. -/
theorem interning_colliding :
    let names := ["noun", "no", "é", "", "un", "no"]
    ∑ s ∈ names.toFinset, s.utf8ByteSize < 2 ^ 32 ∧
      (after (fun _ => 7) names).get? (numberAfter (fun _ => 7) ["noun"] "no") = some "no" ∧
      (after (fun _ => 7) names).lookupWith (fun _ => 7) "ou" = none ∧
      (after (fun _ => 7) names).size = 5 := by
  intro names
  have hfits : ∑ s ∈ names.toFinset, s.utf8ByteSize < 2 ^ 32 := by decide +kernel
  obtain ⟨hnumbers, -, ⟨-, hnone⟩, -, hsize⟩ := interning (fun _ => 7) names hfits
  refine ⟨hfits, (hnumbers ["noun"] "no" ["é", "", "un", "no"] rfl).2.1,
    (hnone "ou").mpr ⟨by decide, by decide⟩, hsize.trans (by decide +kernel)⟩

end NamePool

end Standoff
