import Standoff.Text.Bytes

/-! # Name pool: a number for every name

The names stand one after another in a single text.  Each has an entry, which holds the offset
and the length of its bytes there; the number of a name is the place of its entry.  Names are
numbered in the order in which they first come in, and the empty name is number 0 from the
start.  Look-up goes through buckets of numbers that share a hash, and a number counts only if
its name is the one asked for, so collisions change nothing but the length of a bucket.

Offsets, lengths and numbers are words of 32 bits, so a pool is sound as long as its names have
fewer than 2^32 bytes together.

* `NamePool.intern`: the number of a name, a new one if it is not known yet.
* `NamePool.lookup`: the number of a known name.
* `NamePool.get?`: the name of a number.

The forms with a hash of the caller's choice are `internWith` and `lookupWith`. -/

namespace Standoff

/-! ## The pool -/

/-- The names, where each of them stands, and the numbers by hash. -/
structure NamePool where
  /-- The names one after another. -/
  data : String := ""
  /-- Offset and length of each name, in bytes. -/
  entries : Array (UInt32 × UInt32) := #[(0, 0)]
  buckets : List (UInt64 × List UInt32) := []
deriving Repr, DecidableEq

/-- The pool that knows the empty name only. -/
instance : Inhabited NamePool := ⟨{}⟩

/-- The hash that pools use unless told otherwise: the code points as digits to base 31. -/
def nameHash (s : String) : UInt64 :=
  s.toList.foldl (fun h c => h * 31 + c.val.toUInt64) 7

namespace NamePool

/-- Number of names, the empty one included. -/
def size (pool : NamePool) : Nat := pool.entries.size

/-- Nothing but the empty name is known. -/
def isEmpty (pool : NamePool) : Bool := decide (pool.size ≤ 1)

def get? (pool : NamePool) (id : Nat) : Option String :=
  pool.entries[id]?.bind fun (offset, length) =>
    Text.bytes? pool.data offset.toNat length.toNat

/-- The numbers of the names with hash `h`. -/
def bucket (h : UInt64) : List (UInt64 × List UInt32) → List UInt32
  | [] => []
  | (k, ids) :: rest => if k = h then ids else bucket h rest

/-- Adds a number to the bucket of `h`. -/
def addToBucket (h : UInt64) (id : UInt32) :
    List (UInt64 × List UInt32) → List (UInt64 × List UInt32)
  | [] => [(h, [id])]
  | (k, ids) :: rest =>
    if k = h then (k, ids ++ [id]) :: rest else (k, ids) :: addToBucket h id rest

def lookupWith (hash : String → UInt64) (pool : NamePool) (s : String) : Option Nat :=
  if s = "" then some 0
  else ((bucket (hash s) pool.buckets).find? fun id => pool.get? id.toNat == some s).map (·.toNat)

/-- The pool with one more name at its end. -/
def add (hash : String → UInt64) (pool : NamePool) (s : String) : NamePool where
  data := pool.data ++ s
  entries := pool.entries.push
    (UInt32.ofNat pool.data.utf8ByteSize, UInt32.ofNat s.utf8ByteSize)
  buckets := addToBucket (hash s) (UInt32.ofNat pool.size) pool.buckets

def internWith (hash : String → UInt64) (pool : NamePool) (s : String) : NamePool × Nat :=
  match pool.lookupWith hash s with
  | some id => (pool, id)
  | none => (pool.add hash s, (UInt32.ofNat pool.size).toNat)

def lookup (pool : NamePool) (s : String) : Option Nat := pool.lookupWith nameHash s

def intern (pool : NamePool) (s : String) : NamePool × Nat := pool.internWith nameHash s

/-- The pool after a list of names has come in. -/
def internAll (pool : NamePool) (names : List String) : NamePool :=
  names.foldl (fun pool s => (pool.intern s).1) pool

end NamePool

end Standoff
