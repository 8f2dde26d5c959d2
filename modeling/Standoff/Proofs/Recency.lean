import Mathlib.Data.Finset.Card
import Standoff.Proofs.Readings
import Standoff.SourceCache

/-!
# What a cache keeps

The store of a cache is known by its laws only: an entry that is found or put comes first, and
the last one goes when there are too many.  What a cache keeps is then told from what it was asked
and what it replied.  With `uses` for the grammars of the replies that brought a source, since it
was cleared last, the latest first,

    grammars of the entries = first `limit` of `uses`, each taken once

and every entry has the source that was prepared last for its grammar.

* `Store.Lru`: the laws; `SourceCache.lru_store`: the store by recency has them.
* `Store.Reflects`: what a cache keeps after what it replied.
* `Store.Reflects.reply`: one request; `Store.reflects_replay`: any requests.
* `Store.replies_by_recency`: what a cache replies next, and when it prepares.
-/

namespace Standoff

/-! ## Grammars by recency -/

namespace Store

/-- The grammars used last, each once, at most `limit` of them. -/
def newest (limit : Nat) (used : List String) : List String := used.eraseDups.take limit

@[simp] theorem newest_nil (limit : Nat) : newest limit [] = [] := by
  simp [newest]

theorem eraseDups_filter (p : String → Bool) (keys : List String) :
    (keys.filter p).eraseDups = keys.eraseDups.filter p := by
  induction keys using List.reverseRecOn with
  | nil => rfl
  | append_singleton keys key ih =>
    rw [List.filter_append, Attributes.eraseDups_concat]
    by_cases hp : p key = true
    · have hone : [key].filter p = [key] := by simp [hp]
      have hmem : key ∈ keys.eraseDups.filter p ↔ key ∈ keys.eraseDups := by simp [hp]
      rw [hone, Attributes.eraseDups_concat, ih, if_congr hmem rfl rfl]
      split
      · rfl
      · rw [List.filter_append, hone]
    · have hnone : [key].filter p = [] := by simp [hp]
      rw [hnone, List.append_nil, ih]
      split
      · rfl
      · rw [List.filter_append, hnone, List.append_nil]

/-- Only the first `n + 1` keys matter for `n` of them without one. -/
theorem take_filter_ne (key : String) {keys : List String} (h : keys.Nodup) (n : Nat) :
    (keys.filter (· != key)).take n = ((keys.take (n + 1)).filter (· != key)).take n := by
  induction keys generalizing n with
  | nil => rfl
  | cons k keys ih =>
    obtain ⟨hk, hkeys⟩ := List.nodup_cons.mp h
    rw [List.take_succ_cons]
    by_cases heq : k = key
    · subst heq
      have hall {ks : List String} (hks : k ∉ ks) : ks.filter (· != k) = ks := by
        rw [List.filter_eq_self]
        intro k' hk'
        exact bne_iff_ne.mpr fun hsame => hks (hsame ▸ hk')
      have hself : ¬ (k != k) = true := by simp
      rw [List.filter_cons_of_neg (p := (· != k)) hself,
        List.filter_cons_of_neg (p := (· != k)) hself, hall hk,
        hall fun hin => hk (List.mem_of_mem_take hin), List.take_take, Nat.min_self]
    · have hne : (k != key) = true := bne_iff_ne.mpr heq
      cases n with
      | zero => rfl
      | succ n =>
        rw [List.filter_cons_of_pos (p := (· != key)) hne,
          List.filter_cons_of_pos (p := (· != key)) hne, List.take_succ_cons,
          List.take_succ_cons, ih hkeys]

/-- One more use. -/
theorem newest_cons (limit : Nat) (key : String) (used : List String) :
    newest limit (key :: used) =
      (key :: (newest limit used).filter (· != key)).take limit := by
  cases limit with
  | zero => rfl
  | succ n =>
    have hfirst : (key :: used).eraseDups = key :: used.eraseDups.filter (· != key) := by
      rw [List.eraseDups_cons, ← eraseDups_filter]
      rfl
    unfold newest
    rw [hfirst, List.take_succ_cons, List.take_succ_cons,
      take_filter_ne key (Attributes.nodup_eraseDups used)]

/-- A grammar that is among the newest takes no place of another. -/
theorem newest_cons_of_mem {limit : Nat} {key : String} {used : List String}
    (h : key ∈ newest limit used) :
    newest limit (key :: used) = key :: (newest limit used).filter (· != key) := by
  rw [newest_cons, List.take_of_length_le]
  have hbound : (newest limit used).length ≤ limit := List.length_take_le limit _
  have hless : ((newest limit used).filter (· != key)).length < (newest limit used).length :=
    List.length_filter_lt_length_iff_exists.mpr ⟨key, h, by simp⟩
  rw [List.length_cons]
  omega

theorem length_newest (limit : Nat) (used : List String) :
    (newest limit used).length = min limit used.toFinset.card := by
  have hdistinct : used.eraseDups.toFinset = used.toFinset := by
    ext key
    rw [List.mem_toFinset, List.mem_toFinset, List.mem_eraseDups]
  rw [newest, List.length_take, ← hdistinct,
    List.toFinset_card_of_nodup (Attributes.nodup_eraseDups used)]

/-! ## Requests and replies -/

/-- What a cache can be asked. -/
inductive Request (α : Type) where
  | fetch (grammar : String) (prepare : String → Except AnnotateError α)
  | look (grammar : String)
  | clear

/-- What was asked of a cache, and what became of it. -/
inductive Reply (α : Type) where
  | fetched (grammar : String) (prepared : Bool) (outcome : Except AnnotateError α)
  | looked (grammar : String) (found : Option α)
  | cleared
deriving Repr

variable {σ α : Type}

/-- The next cache, and the reply. -/
def reply (store : Store σ α) (cache : σ) : Request α → σ × Reply α
  | .fetch grammar prepare =>
    let f := store.getOrPrepare cache grammar prepare
    (f.cache, .fetched grammar f.prepared f.outcome)
  | .look grammar =>
    let (cache, found) := store.get cache grammar
    (cache, .looked grammar found)
  | .clear => (store.clear cache, .cleared)

/-- Requests one after another, with the replies before them; the latest reply is first. -/
def replay (store : Store σ α) : σ → List (Reply α) → List (Request α) → σ × List (Reply α)
  | cache, past, [] => (cache, past)
  | cache, past, request :: requests =>
    let (cache, answer) := store.reply cache request
    store.replay cache (answer :: past) requests

/-- The grammars that replies brought a source of since the cache was cleared, the latest first. -/
def uses : List (Reply α) → List String
  | [] => []
  | .cleared :: _ => []
  | .fetched grammar _ (.ok _) :: past => grammar :: uses past
  | .fetched _ _ (.error _) :: past => uses past
  | .looked grammar (some _) :: past => grammar :: uses past
  | .looked _ none :: past => uses past

/-- The source of the latest preparation of a grammar that did not fail. -/
def latest (grammar : String) : List (Reply α) → Option α
  | [] => none
  | .fetched g true (.ok source) :: past => if g = grammar then some source else latest grammar past
  | _ :: past => latest grammar past

/-! ## The laws of a store -/

/-- A store that keeps the entries used last, as many as its capacity.  Finding an entry and
putting one are uses. -/
structure Lru (store : Store σ α) (entries : σ → List (String × α)) (capacity : σ → Nat) :
    Prop where
  ofCapacity : ∀ c, 1 ≤ c → entries (store.ofCapacity c) = [] ∧ capacity (store.ofCapacity c) = c
  hit : ∀ s grammar source, (entries s).lookup grammar = some source →
    (store.get s grammar).2 = some source ∧
      entries (store.get s grammar).1 = SourceCache.promote grammar source (entries s) ∧
      capacity (store.get s grammar).1 = capacity s
  miss : ∀ s grammar, (entries s).lookup grammar = none → store.get s grammar = (s, none)
  put : ∀ s grammar source,
    entries (store.put s grammar source) =
        (SourceCache.promote grammar source (entries s)).take (capacity s) ∧
      capacity (store.put s grammar source) = capacity s
  clear : ∀ s, entries (store.clear s) = [] ∧ capacity (store.clear s) = capacity s
  size : ∀ s, store.size s = (entries s).length
  isEmpty : ∀ s, store.isEmpty s = (entries s).isEmpty

/-- What a cache with `limit` places keeps after its replies. -/
structure Reflects (entries : σ → List (String × α)) (capacity : σ → Nat) (limit : Nat)
    (cache : σ) (past : List (Reply α)) : Prop where
  capacity : capacity cache = limit
  grammars : (entries cache).map Prod.fst = newest limit (uses past)
  sources : ∀ e ∈ entries cache, latest e.1 past = some e.2

variable {store : Store σ α} {entries : σ → List (String × α)} {capacity : σ → Nat}
  {limit : Nat} {cache : σ} {past : List (Reply α)} {grammar : String} {source : α}

theorem map_fst_promote (grammar : String) (source : α) (es : List (String × α)) :
    (SourceCache.promote grammar source es).map Prod.fst =
      grammar :: (es.map Prod.fst).filter (· != grammar) := by
  rw [SourceCache.promote, SourceCache.without, List.map_cons, List.filter_map]
  rfl

/-- An entry in front of others is the one put there, or was there and is of another grammar. -/
theorem mem_promote {es : List (String × α)} {e : String × α}
    (h : e ∈ SourceCache.promote grammar source es) :
    e = (grammar, source) ∨ e ∈ es ∧ e.1 ≠ grammar := by
  rcases List.mem_cons.mp h with rfl | h
  · exact .inl rfl
  · obtain ⟨hmem, hne⟩ := List.mem_filter.mp h
    exact .inr ⟨hmem, bne_iff_ne.mp hne⟩

/-! ## One request after another -/

theorem getOrPrepare_of_found {cache' : σ} {prepare : String → Except AnnotateError α}
    (h : store.get cache grammar = (cache', some source)) :
    store.getOrPrepare cache grammar prepare = ⟨cache', .ok source, false, []⟩ := by
  rw [getOrPrepare, h]

theorem getOrPrepare_of_prepared {cache' : σ} {prepare : String → Except AnnotateError α}
    (h : store.get cache grammar = (cache', none)) (hprepare : prepare grammar = .ok source) :
    store.getOrPrepare cache grammar prepare =
      ⟨store.put cache' grammar source, .ok source, true,
        [.preparing grammar.utf8ByteSize]⟩ := by
  rw [getOrPrepare, h]
  dsimp only
  rw [hprepare]

theorem getOrPrepare_of_failed {cache' : σ} {prepare : String → Except AnnotateError α}
    {e : AnnotateError} (h : store.get cache grammar = (cache', none))
    (hprepare : prepare grammar = .error e) :
    store.getOrPrepare cache grammar prepare =
      ⟨cache', .error e, true, [.preparing grammar.utf8ByteSize]⟩ := by
  rw [getOrPrepare, h]
  dsimp only
  rw [hprepare]

namespace Reflects

/-- What a look-up finds. -/
theorem lookup_eq (h : Reflects entries capacity limit cache past) (grammar : String) :
    (entries cache).lookup grammar =
      if grammar ∈ newest limit (uses past) then latest grammar past else none := by
  rw [← h.grammars]
  cases hfound : (entries cache).lookup grammar with
  | none =>
    rw [if_neg]
    intro hin
    obtain ⟨e, he, rfl⟩ := List.mem_map.mp hin
    have hno := List.lookup_eq_none_iff.mp hfound e he
    simp at hno
  | some source =>
    have hmem : (grammar, source) ∈ entries cache := by
      obtain ⟨before, behind, heq, -⟩ := List.lookup_eq_some_iff.mp hfound
      rw [heq]
      exact List.mem_append_right _ List.mem_cons_self
    rw [if_pos (List.mem_map_of_mem hmem), h.sources _ hmem]

/-- A grammar among the newest was prepared. -/
theorem exists_latest (h : Reflects entries capacity limit cache past)
    (hin : grammar ∈ newest limit (uses past)) : ∃ source, latest grammar past = some source := by
  rw [← h.grammars] at hin
  obtain ⟨e, he, rfl⟩ := List.mem_map.mp hin
  exact ⟨e.2, h.sources e he⟩

/-- The look-up of a grammar among the newest. -/
theorem get_of_mem (laws : store.Lru entries capacity)
    (h : Reflects entries capacity limit cache past) (hin : grammar ∈ newest limit (uses past)) :
    ∃ source cache', latest grammar past = some source ∧
      store.get cache grammar = (cache', some source) ∧
      entries cache' = SourceCache.promote grammar source (entries cache) ∧
      capacity cache' = capacity cache := by
  obtain ⟨source, hlatest⟩ := h.exists_latest hin
  have hfound : (entries cache).lookup grammar = some source := by
    rw [h.lookup_eq, if_pos hin, hlatest]
  obtain ⟨hget, hentries, hcapacity⟩ := laws.hit cache grammar source hfound
  exact ⟨source, (store.get cache grammar).1, hlatest, Prod.ext rfl hget, hentries, hcapacity⟩

/-- The look-up of any other grammar. -/
theorem get_of_not_mem (laws : store.Lru entries capacity)
    (h : Reflects entries capacity limit cache past) (hout : grammar ∉ newest limit (uses past)) :
    store.get cache grammar = (cache, none) :=
  laws.miss cache grammar (by rw [h.lookup_eq, if_neg hout])

/-- A use of a grammar that was found, whatever the reply to it is. -/
theorem use (h : Reflects entries capacity limit cache past) {cache' : σ} {answer : Reply α}
    (hin : grammar ∈ newest limit (uses past)) (hlatest : latest grammar past = some source)
    (hentries : entries cache' = SourceCache.promote grammar source (entries cache))
    (hcapacity : capacity cache' = capacity cache)
    (huses : uses (answer :: past) = grammar :: uses past)
    (hkept : ∀ g, latest g (answer :: past) = latest g past) :
    Reflects entries capacity limit cache' (answer :: past) := by
  refine ⟨hcapacity.trans h.capacity, ?_, ?_⟩
  · rw [hentries, map_fst_promote, h.grammars, huses, newest_cons_of_mem hin]
  · intro e he
    rw [hentries] at he
    rw [hkept]
    rcases mem_promote he with rfl | ⟨hmem, -⟩
    · exact hlatest
    · exact h.sources e hmem

/-- A reply that brought no source, and left the cache as it was. -/
theorem skip (h : Reflects entries capacity limit cache past) {answer : Reply α}
    (huses : uses (answer :: past) = uses past)
    (hkept : ∀ g, latest g (answer :: past) = latest g past) :
    Reflects entries capacity limit cache (answer :: past) := by
  refine ⟨h.capacity, ?_, ?_⟩
  · rw [huses, h.grammars]
  · intro e he
    rw [hkept, h.sources e he]

/-- A source that was prepared. -/
theorem put (laws : store.Lru entries capacity) (h : Reflects entries capacity limit cache past)
    (grammar : String) (source : α) :
    Reflects entries capacity limit (store.put cache grammar source)
      (.fetched grammar true (.ok source) :: past) := by
  obtain ⟨hentries, hcapacity⟩ := laws.put cache grammar source
  refine ⟨hcapacity.trans h.capacity, ?_, ?_⟩
  · rw [hentries, h.capacity, List.map_take, map_fst_promote, h.grammars, uses, newest_cons]
  · intro e he
    rw [hentries] at he
    rw [latest]
    rcases mem_promote (List.mem_of_mem_take he) with rfl | ⟨hmem, hne⟩
    · exact if_pos rfl
    · rw [if_neg (Ne.symm hne), h.sources e hmem]

/-- What a cache keeps after one more reply. -/
theorem reply (laws : store.Lru entries capacity) (h : Reflects entries capacity limit cache past)
    (request : Request α) :
    Reflects entries capacity limit (store.reply cache request).1
      ((store.reply cache request).2 :: past) := by
  cases request with
  | fetch grammar prepare =>
    show Reflects entries capacity limit (store.getOrPrepare cache grammar prepare).cache
      (.fetched grammar (store.getOrPrepare cache grammar prepare).prepared
        (store.getOrPrepare cache grammar prepare).outcome :: past)
    by_cases hin : grammar ∈ newest limit (uses past)
    · obtain ⟨source, cache', hlatest, hget, hentries, hcapacity⟩ := h.get_of_mem laws hin
      rw [getOrPrepare_of_found hget]
      exact h.use hin hlatest hentries hcapacity rfl fun _ => rfl
    · have hget := h.get_of_not_mem laws hin
      cases hprepare : prepare grammar with
      | ok source =>
        rw [getOrPrepare_of_prepared hget hprepare]
        exact h.put laws grammar source
      | error e =>
        rw [getOrPrepare_of_failed hget hprepare]
        exact h.skip rfl fun _ => rfl
  | look grammar =>
    show Reflects entries capacity limit (store.get cache grammar).1
      (.looked grammar (store.get cache grammar).2 :: past)
    by_cases hin : grammar ∈ newest limit (uses past)
    · obtain ⟨source, cache', hlatest, hget, hentries, hcapacity⟩ := h.get_of_mem laws hin
      rw [hget]
      exact h.use hin hlatest hentries hcapacity rfl fun _ => rfl
    · rw [h.get_of_not_mem laws hin]
      exact h.skip rfl fun _ => rfl
  | clear =>
    obtain ⟨hentries, hcapacity⟩ := laws.clear cache
    show Reflects entries capacity limit (store.clear cache) (.cleared :: past)
    refine ⟨hcapacity.trans h.capacity, ?_, ?_⟩
    · rw [hentries, uses, newest_nil, List.map_nil]
    · intro e he
      rw [hentries] at he
      cases he

end Reflects

theorem reflects_start (laws : store.Lru entries capacity) (c : Nat) :
    Reflects entries capacity (max c 1) (store.start c) [] := by
  obtain ⟨hentries, hcapacity⟩ := laws.ofCapacity (max c 1) (Nat.le_max_right c 1)
  refine ⟨hcapacity, ?_, ?_⟩
  · rw [start, hentries, uses, newest_nil, List.map_nil]
  · intro e he
    rw [start, hentries] at he
    cases he

/-- What a cache keeps after any requests. -/
theorem reflects_replay (laws : store.Lru entries capacity)
    (h : Reflects entries capacity limit cache past) (requests : List (Request α)) :
    Reflects entries capacity limit (store.replay cache past requests).1
      (store.replay cache past requests).2 := by
  induction requests generalizing cache past with
  | nil => exact h
  | cons request requests ih => exact ih (h.reply laws request)

end Store

/-! ## The store by recency -/

/-- The store by recency has the laws. -/
theorem SourceCache.lru_store {α : Type} :
    Store.Lru (store : Store (SourceCache α) α) SourceCache.entries SourceCache.capacity where
  ofCapacity _ _ := ⟨rfl, rfl⟩
  hit c grammar source h := by
    have hget : c.get grammar =
        ({ c with entries := promote grammar source c.entries }, some source) := by
      rw [get, h]
    show (c.get grammar).2 = _ ∧ (c.get grammar).1.entries = _ ∧ (c.get grammar).1.capacity = _
    rw [hget]
    exact ⟨rfl, rfl, rfl⟩
  miss c grammar h := by
    show c.get grammar = _
    rw [get, h]
  put _ _ _ := ⟨rfl, rfl⟩
  clear _ := ⟨rfl, rfl⟩
  size _ := rfl
  isEmpty _ := rfl

namespace Store

variable {σ α : Type} {store : Store σ α} {entries : σ → List (String × α)} {capacity : σ → Nat}
  {limit : Nat} {cache : σ} {past : List (Reply α)}

/-! ## The next reply -/

namespace Reflects

/-- A source is prepared just when its grammar is not among the newest, and is else the one that
was prepared last.  A preparation that fails leaves the cache as it was. -/
theorem getOrPrepare_spec (laws : store.Lru entries capacity)
    (h : Reflects entries capacity limit cache past) (grammar : String)
    (prepare : String → Except AnnotateError α) :
    ((store.getOrPrepare cache grammar prepare).prepared = true ↔
      grammar ∉ newest limit (uses past)) ∧
    (grammar ∈ newest limit (uses past) → ∃ source, latest grammar past = some source ∧
      (store.getOrPrepare cache grammar prepare).outcome = .ok source) ∧
    (grammar ∉ newest limit (uses past) →
      (store.getOrPrepare cache grammar prepare).outcome = prepare grammar) ∧
    ∀ e, (store.getOrPrepare cache grammar prepare).outcome = .error e →
      (store.getOrPrepare cache grammar prepare).cache = cache := by
  by_cases hin : grammar ∈ newest limit (uses past)
  · obtain ⟨source, cache', hlatest, hget, -⟩ := h.get_of_mem laws hin
    rw [getOrPrepare_of_found hget]
    refine ⟨?_, fun _ => ⟨source, hlatest, rfl⟩, fun hout => absurd hin hout, ?_⟩
    · exact iff_of_false Bool.false_ne_true fun hout => hout hin
    · intro e he
      cases he
  · have hget := h.get_of_not_mem laws hin
    cases hprepare : prepare grammar with
    | ok source =>
      rw [getOrPrepare_of_prepared hget hprepare]
      refine ⟨iff_of_true rfl hin, fun hin' => absurd hin' hin, fun _ => rfl, ?_⟩
      intro e he
      cases he
    | error e =>
      rw [getOrPrepare_of_failed hget hprepare]
      exact ⟨iff_of_true rfl hin, fun hin' => absurd hin' hin, fun _ => rfl, fun _ _ => rfl⟩

/-- Just the newest are found, with the source prepared last.  A look-up that finds none leaves
the cache as it was. -/
theorem get_spec (laws : store.Lru entries capacity)
    (h : Reflects entries capacity limit cache past) (grammar : String) :
    ((store.get cache grammar).2.isSome = true ↔ grammar ∈ newest limit (uses past)) ∧
    (∀ source, (store.get cache grammar).2 = some source → latest grammar past = some source) ∧
    ((store.get cache grammar).2 = none → (store.get cache grammar).1 = cache) := by
  by_cases hin : grammar ∈ newest limit (uses past)
  · obtain ⟨source, cache', hlatest, hget, -⟩ := h.get_of_mem laws hin
    rw [hget]
    refine ⟨iff_of_true rfl hin, ?_, ?_⟩
    · rintro source' ⟨⟩
      exact hlatest
    · intro hnone
      cases hnone
  · rw [h.get_of_not_mem laws hin]
    refine ⟨iff_of_false Bool.false_ne_true hin, ?_, fun _ => rfl⟩
    intro source' hsome
    cases hsome

theorem size_eq (laws : store.Lru entries capacity)
    (h : Reflects entries capacity limit cache past) :
    store.size cache = min limit (uses past).toFinset.card := by
  rw [laws.size, ← length_newest, ← h.grammars, List.length_map]

theorem isEmpty_iff (laws : store.Lru entries capacity)
    (h : Reflects entries capacity limit cache past) (hlimit : 1 ≤ limit) :
    store.isEmpty cache = true ↔ uses past = [] := by
  have hsize := h.size_eq laws
  rw [laws.size] at hsize
  rw [laws.isEmpty, List.isEmpty_iff, ← List.length_eq_zero_iff, hsize,
    ← List.toFinset_eq_empty_iff, ← Finset.card_eq_zero]
  omega

end Reflects

/-- After any requests to a cache with room for `c` sources, but at least for one: a source is
prepared just when its grammar is not among the newest, and is else the one prepared last; just
the newest are found; what fails or is not found leaves the cache as it was; and there are as many
entries as places, or as grammars used since the cache was cleared. -/
theorem replies_by_recency (laws : store.Lru entries capacity) (c : Nat)
    (requests : List (Request α)) :
    ∃ cache past, store.replay (store.start c) [] requests = (cache, past) ∧
      (∀ grammar prepare,
        ((store.getOrPrepare cache grammar prepare).prepared = true ↔
          grammar ∉ newest (max c 1) (uses past)) ∧
        (grammar ∈ newest (max c 1) (uses past) → ∃ source, latest grammar past = some source ∧
          (store.getOrPrepare cache grammar prepare).outcome = .ok source) ∧
        (grammar ∉ newest (max c 1) (uses past) →
          (store.getOrPrepare cache grammar prepare).outcome = prepare grammar) ∧
        ∀ e, (store.getOrPrepare cache grammar prepare).outcome = .error e →
          (store.getOrPrepare cache grammar prepare).cache = cache) ∧
      (∀ grammar,
        ((store.get cache grammar).2.isSome = true ↔ grammar ∈ newest (max c 1) (uses past)) ∧
        (∀ source, (store.get cache grammar).2 = some source →
          latest grammar past = some source) ∧
        ((store.get cache grammar).2 = none → (store.get cache grammar).1 = cache)) ∧
      store.size cache = min (max c 1) (uses past).toFinset.card ∧
      (store.isEmpty cache = true ↔ uses past = []) := by
  have h := reflects_replay laws (reflects_start laws c) requests
  generalize store.replay (store.start c) [] requests = after at h ⊢
  obtain ⟨cache, past⟩ := after
  exact ⟨cache, past, rfl, h.getOrPrepare_spec laws, h.get_spec laws, h.size_eq laws,
    h.isEmpty_iff laws (Nat.le_max_right c 1)⟩

/-- With room for two, a source that is found stays and the other one goes.  A preparation that
fails and a look-up that finds nothing are no uses. -/
theorem replies_by_recency_two :
    Lru (SourceCache.store : Store (SourceCache Nat) Nat) SourceCache.entries
      SourceCache.capacity ∧
    ∃ cache past, (SourceCache.store : Store (SourceCache Nat) Nat).replay
        (SourceCache.store.start 2) []
        [.fetch "a" fun _ => .ok 1, .fetch "b" fun _ => .ok 2, .look "a",
          .fetch "c" fun _ => .ok 3, .fetch "d" fun _ => .error (.source "no rule" 0),
          .look "b"] = (cache, past) ∧
      (SourceCache.store.getOrPrepare cache "b" fun _ => .ok 4).prepared = true ∧
      (SourceCache.store.getOrPrepare cache "a" fun _ => .ok 4).outcome = .ok 1 ∧
      SourceCache.store.size cache = 2 := by
  have hlaws : Lru (SourceCache.store : Store (SourceCache Nat) Nat) SourceCache.entries
      SourceCache.capacity := SourceCache.lru_store
  obtain ⟨cache, past, hrun, hfetch, -, hsize, -⟩ :=
    replies_by_recency hlaws 2
      [.fetch "a" fun _ => .ok 1, .fetch "b" fun _ => .ok 2, .look "a",
        .fetch "c" fun _ => .ok 3, .fetch "d" fun _ => .error (.source "no rule" 0), .look "b"]
  have hpast := congrArg Prod.snd hrun
  dsimp only at hpast
  have hnewest : newest (max 2 1) (uses past) = ["c", "a"] := by
    rw [← hpast]
    decide +kernel
  have hcard : (uses past).toFinset.card = 3 := by
    rw [← hpast]
    decide +kernel
  have hlatest : latest "a" past = some 1 := by
    rw [← hpast]
    decide +kernel
  obtain ⟨source, hsource, hfound⟩ := (hfetch "a" fun _ => .ok 4).2.1 (by rw [hnewest]; decide)
  obtain rfl : 1 = source := Option.some.inj (hlatest.symm.trans hsource)
  refine ⟨hlaws, cache, past, hrun, ?_, hfound, ?_⟩
  · exact (hfetch "b" fun _ => .ok 4).1.mpr (by rw [hnewest]; decide)
  · rw [hsize, hcard]
    rfl

end Store

end Standoff
