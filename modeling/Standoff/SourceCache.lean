import Standoff.Error
import Standoff.Trace

/-! # Cache of prepared sources

Preparing a source is far dearer than running it, so the sources used last are kept by the
texts of their grammars.  The entries lie in a store of bounded size; the cache decides when to
look there, when to prepare and what to put in.  The store used here has the most recently used
entry first, and a new one pushes out the one that has not been used for longest.

* `Store`: what a cache asks of the store of its entries.
* `Store.getOrPrepare`: the source of a grammar, prepared on a miss.
* `SourceCache`: the store by recency, and the cache over it. -/

namespace Standoff

/-! ## Caches over any store -/

/-- The operations of a store that keeps sources by the texts of their grammars, as many as its
capacity allows.  A look-up counts as a use, so it gives the store back as well. -/
structure Store (σ α : Type) where
  ofCapacity : Nat → σ
  get : σ → String → σ × Option α
  put : σ → String → α → σ
  size : σ → Nat
  isEmpty : σ → Bool
  clear : σ → σ

/-- What became of a request: the next cache, the source or why there is none, whether it had
to be prepared, and what there is to tell. -/
structure Fetch (σ α : Type) where
  cache : σ
  outcome : Except AnnotateError α
  prepared : Bool
  notices : List Notice

namespace Store

variable {σ α : Type}

/-- An empty cache; it keeps at least one entry. -/
def start (store : Store σ α) (capacity : Nat) : σ := store.ofCapacity (max capacity 1)

/-- The source of a grammar.  A failed preparation leaves the cache as it was. -/
def getOrPrepare (store : Store σ α) (cache : σ) (grammar : String)
    (prepare : String → Except AnnotateError α) : Fetch σ α :=
  match store.get cache grammar with
  | (cache, some source) => ⟨cache, .ok source, false, []⟩
  | (cache, none) =>
    let told := [Notice.preparing grammar.utf8ByteSize]
    match prepare grammar with
    | .ok source => ⟨store.put cache grammar source, .ok source, true, told⟩
    | .error e => ⟨cache, .error e, true, told⟩

end Store

/-! ## The store by recency -/

/-- At most `capacity` entries, the most recently used first. -/
structure SourceCache (α : Type) where
  capacity : Nat
  entries : List (String × α) := []
deriving Repr

namespace SourceCache

variable {α : Type}

def defaultCapacity : Nat := 16

/-- The entries without the one of `grammar`. -/
def without (grammar : String) (entries : List (String × α)) : List (String × α) :=
  entries.filter fun e => e.1 != grammar

/-- The entries with the one of `grammar` first. -/
def promote (grammar : String) (source : α) (entries : List (String × α)) : List (String × α) :=
  (grammar, source) :: without grammar entries

/-- Puts an entry first, and drops what exceeds the capacity. -/
def put (c : SourceCache α) (grammar : String) (source : α) : SourceCache α :=
  { c with entries := (promote grammar source c.entries).take c.capacity }

/-- A look-up that finds its entry also puts it first. -/
def get (c : SourceCache α) (grammar : String) : SourceCache α × Option α :=
  match c.entries.lookup grammar with
  | some source => ({ c with entries := promote grammar source c.entries }, some source)
  | none => (c, none)

def size (c : SourceCache α) : Nat := c.entries.length

def isEmpty (c : SourceCache α) : Bool := c.entries.isEmpty

def clear (c : SourceCache α) : SourceCache α := { c with entries := [] }

def store : Store (SourceCache α) α where
  ofCapacity capacity := { capacity := capacity }
  get := get
  put := put
  size := size
  isEmpty := isEmpty
  clear := clear

/-- An empty cache; it keeps at least one entry. -/
def ofCapacity (capacity : Nat) : SourceCache α := store.start capacity

/-- The source of a grammar, prepared on a miss. -/
def getOrPrepare (c : SourceCache α) (grammar : String)
    (prepare : String → Except AnnotateError α) : Fetch (SourceCache α) α :=
  store.getOrPrepare c grammar prepare

end SourceCache

end Standoff
