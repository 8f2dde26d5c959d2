import Mathlib.Data.List.Induction
import Standoff.Proofs.Runs
import Standoff.Proofs.Trails

/-! # Where the nodes of a document come from

A cut gives the right half of a node a number of its own.  The log of all cuts tells which node
each half comes from, so the nodes of the document after a run can be traced back to those before
it.

* `Cut.origin`: the node that a node comes from.
* `Document.Log`: cuts in the order in which they were made.
* `Document.Kept`: a document and the host that it has grown from; kept by every delivery. -/

namespace Standoff

/-! ## Origins -/

/-- The node that `x` comes from by the cuts in `log`, the earliest first. -/
def Cut.origin (log : List Cut) (x : NodeId) : NodeId :=
  log.foldr (fun c y => if y = c.right then c.left else y) x

/-- Cuts in the order in which they were made.  They took their numbers from `lo` up to `hi` in
turn, later ones than the nodes had that were cut. -/
structure Document.Log (lo hi : NodeId) (log : List Cut) : Prop where
  sorted : log.Pairwise fun c d => c.right < d.right
  bounds : ∀ c ∈ log, lo ≤ c.right ∧ c.right < hi
  older : ∀ c ∈ log, c.left < c.right

namespace Cut

variable {log log' : List Cut} {x : NodeId}

theorem origin_append : origin (log ++ log') x = origin log (origin log' x) := List.foldr_append

/-- A node that no cut has made comes from itself. -/
theorem origin_of_ne (h : ∀ c ∈ log, c.right ≠ x) : origin log x = x := by
  induction log with
  | nil => rfl
  | cons c log ih =>
    obtain ⟨hc, hlog⟩ := List.forall_mem_cons.mp h
    show (if origin log x = c.right then c.left else origin log x) = x
    rw [ih hlog, if_neg hc.symm]

/-- A node comes from itself or from one that was cut. -/
theorem origin_cases (log : List Cut) (x : NodeId) :
    origin log x = x ∨ ∃ c ∈ log, origin log x = c.left := by
  induction log with
  | nil => exact .inl rfl
  | cons c log ih =>
    show (if origin log x = c.right then c.left else origin log x) = x ∨
      ∃ d ∈ c :: log, (if origin log x = c.right then c.left else origin log x) = d.left
    split
    · exact .inr ⟨c, List.mem_cons_self .., rfl⟩
    · exact ih.imp_right fun ⟨d, hd, heq⟩ => ⟨d, List.mem_cons_of_mem _ hd, heq⟩

end Cut

namespace Document

open Markup

variable {lo mid hi : NodeId} {log log' : List Cut}

namespace Log

theorem nil : Log lo hi [] :=
  ⟨.nil, fun _ hc => absurd hc List.not_mem_nil, fun _ hc => absurd hc List.not_mem_nil⟩

theorem append (h : Log lo mid log) (h' : Log mid hi log') (hlo : lo ≤ mid) (hhi : mid ≤ hi) :
    Log lo hi (log ++ log') where
  sorted := List.pairwise_append.mpr ⟨h.sorted, h'.sorted, fun c hc d hd =>
    Nat.lt_of_lt_of_le (h.bounds c hc).2 (h'.bounds d hd).1⟩
  bounds := List.forall_mem_append.mpr
    ⟨fun c hc => ⟨(h.bounds c hc).1, Nat.lt_of_lt_of_le (h.bounds c hc).2 hhi⟩,
      fun c hc => ⟨Nat.le_trans hlo (h'.bounds c hc).1, (h'.bounds c hc).2⟩⟩
  older := List.forall_mem_append.mpr ⟨h.older, h'.older⟩

/-- A node with a number below the log comes from itself. -/
theorem origin_of_lt (h : Log lo hi log) {x : NodeId} (hx : x < lo) : Cut.origin log x = x :=
  Cut.origin_of_ne fun c hc => Nat.ne_of_gt (Nat.lt_of_lt_of_le hx (h.bounds c hc).1)

/-- Both halves of a cut come from the same node. -/
theorem origin_right (h : Log lo hi log) {c : Cut} (hc : c ∈ log) :
    Cut.origin log c.right = Cut.origin log c.left := by
  obtain ⟨pre, post, rfl⟩ := List.append_of_mem hc
  have hlt := h.older c hc
  obtain ⟨hlater, -⟩ := List.pairwise_cons.mp (List.pairwise_append.mp h.sorted).2.1
  have hright : Cut.origin post c.right = c.right :=
    Cut.origin_of_ne fun d hd => Nat.ne_of_gt (hlater d hd)
  have hleft : Cut.origin post c.left = c.left :=
    Cut.origin_of_ne fun d hd => Nat.ne_of_gt (Nat.lt_trans hlt (hlater d hd))
  have hstep (x : NodeId) : Cut.origin (c :: post) x =
      if Cut.origin post x = c.right then c.left else Cut.origin post x := rfl
  rw [Cut.origin_append, Cut.origin_append, hstep, hstep, hright, hleft, if_pos rfl,
    if_neg (Nat.ne_of_lt hlt)]

/-- No node comes from one that was made by a cut. -/
theorem right_ne_origin (h : Log lo hi log) {c : Cut} (hc : c ∈ log) (x : NodeId) :
    c.right ≠ Cut.origin log x := by
  induction log using List.reverseRecOn generalizing x with
  | nil => exact absurd hc List.not_mem_nil
  | append_singleton log d ih =>
    obtain ⟨hsorted, -, hbefore⟩ := List.pairwise_append.mp h.sorted
    obtain ⟨hold, hd⟩ := List.forall_mem_append.mp h.older
    have hinit : Log lo hi log :=
      ⟨hsorted, fun e he => h.bounds e (List.mem_append_left _ he), hold⟩
    have hstep : Cut.origin [d] x ≠ d.right := by
      show (if x = d.right then d.left else x) ≠ d.right
      split
      · exact Nat.ne_of_lt (hd d (List.mem_cons_self ..))
      · assumption
    rw [Cut.origin_append]
    rcases List.mem_append.mp hc with hc | hc
    · exact ih hinit hc _
    · obtain rfl := List.mem_singleton.mp hc
      rcases Cut.origin_cases log (Cut.origin [c] x) with heq | ⟨e, he, heq⟩
      · rw [heq]
        exact hstep.symm
      · rw [heq]
        exact Nat.ne_of_gt (Nat.lt_trans (hold e he) (hbefore e he c (List.mem_cons_self ..)))

end Log

end Document

/-! ## The cuts of one delivery -/

namespace Markup

variable {lo hi pos : Nat} {m m' row : Markup} {s t : Supply} {claimed : List NodeId} {span : Span}
  {e : Element} {balancing : Balancing}

/-- Every cut took a later number than the node had that was cut. -/
def Ascends (s : Supply) : Prop := ∀ c ∈ s.cuts, c.left < c.right

/-- All numbers are below the next free one. -/
def Below (m : Markup) (s : Supply) : Prop := ∀ x ∈ m.ids, x < s.next

theorem Below.of_count (hm : Below m s) (hle : s.Le t)
    (hcount : ∀ x, m'.ids.count x ≤ m.ids.count x + s.taken t x) : Below m' t := by
  intro x hx
  have hpos := Nat.lt_of_lt_of_le (List.count_pos_iff.mpr hx) (hcount x)
  rcases Nat.eq_zero_or_pos (m.ids.count x) with hzero | hmem
  · rw [hzero, Nat.zero_add, Supply.taken] at hpos
    split at hpos
    · next h => exact h.2
    · exact absurd hpos (Nat.lt_irrefl 0)
  · exact Nat.lt_of_lt_of_le (hm x (List.count_pos_iff.mp hmem)) hle.next

theorem ascends_divide (hm : Below m s) (hs : Ascends s) : Ascends (divide pos m s).supply := by
  induction m generalizing s with
  | nil => exact hs
  | node n kids rest ihk ihr =>
    simp only [Below, ids_node, List.mem_cons, List.mem_append] at hm
    rcases n.span.lies pos with hn | hn | hn | hn
    · rw [divide_cut hn]
      have hle := (s.le_cut n pos).next
      have hle' := Nat.le_trans hle (divide_le pos kids (s.cut n pos)).next
      refine ihr (fun x hx => Nat.lt_of_lt_of_le (hm x (.inr (.inr hx))) hle')
        (ihk (fun x hx => Nat.lt_of_lt_of_le (hm x (.inr (.inl hx))) hle) ?_)
      exact List.forall_mem_cons.mpr ⟨hm n.id (.inl rfl), hs⟩
    · rw [divide_marker hn]
      exact ihr (fun x hx => hm x (.inr (.inr hx))) hs
    · rw [divide_right hn]
      exact ihr (fun x hx => hm x (.inr (.inr hx))) hs
    · rw [divide_left hn]
      exact ihr (fun x hx => hm x (.inr (.inr hx))) hs

theorem ascends_opening (hrow : Below row s) (hs : Ascends s) :
    Ascends (opening claimed span row s).2 := by
  refine ascends_divide (hrow.of_count (divide_le span.start row s) fun x => ?_)
    (ascends_divide hrow hs)
  have hcount := count_ids_divide span.start row s x
  simp only [Division.row, ids_append, List.count_append] at hcount
  omega

theorem below_inside (hrow : Below row s) :
    Below (opening claimed span row s).1.inside (opening claimed span row s).2.take := by
  refine hrow.of_count ((opening_le _ _ _ _).trans (Supply.le_take _)) fun x => ?_
  have hcount := count_ids_opening claimed span row s x
  have htaken := Supply.taken_add (opening_le claimed span row s) (Supply.le_take _) x
  omega

theorem ascends_mergeRow {fs : Forest Element} {g : Growth} (hm : Nests lo hi m)
    (hfs : misfit? ⟨lo, hi⟩ fs = none) (h : mergeRow balancing fs m s = .ok g)
    (hbelow : Below m s) (hs : Ascends s) : Ascends g.supply := by
  induction fs generalizing lo hi m s g with
  | nil =>
    cases h
    exact hs
  | node f kids rest ihk ihr =>
    obtain ⟨⟨hord, hlo, hhi⟩, hkids, hrest⟩ := misfit?_eq_none hfs
    obtain ⟨p, hp, hg⟩ := mergeRow_node h
    obtain ⟨inside, hin, rfl⟩ := place_ok hm hlo hord hhi claims_nil
      (fun c hc => absurd hc List.not_mem_nil) hp
    obtain ⟨lo', hi', hlo', hhi', hrow, -⟩ := hm.focus [] hlo hord hhi
    have hnest := (hrow.opening hlo' hord hhi' [] s).2.1
    have hplaced := grows_placed hm hlo hord hhi (grows_mergeRow hnest hkids hin)
    have hbelowRow : Below (site [] f.span m).row s := fun x hx => hbelow x (ids_of_site hx)
    have hinside : Ascends inside.supply :=
      ihk hnest hkids hin (below_inside hbelowRow) (ascends_opening hbelowRow hs)
    exact ihr hplaced.nests hrest hg
      (hbelow.of_count hplaced.le fun x => Nat.le_of_eq (hplaced.count x)) hinside

end Markup

/-! ## Deliveries -/

namespace Document

open Markup Builder

variable {host doc doc' : Document} {balancing : Balancing} {cuts log : List Cut}
  {ρ : NodeId → Option NodeId}

/-- The cuts of a supply that started without any. -/
theorem log_of_supply {s : Supply} {next : NodeId} (hle : Supply.Le ⟨next, []⟩ s)
    (hs : Ascends s) : Log next s.next s.cuts.reverse := by
  obtain ⟨made, hcuts, hfresh⟩ := hle.cuts
  rw [List.append_nil] at hcuts
  refine ⟨List.pairwise_reverse.mpr (hcuts ▸ hfresh.1), fun c hc => ?_, fun c hc => ?_⟩
  · exact hfresh.2 c (hcuts ▸ List.mem_reverse.mp hc)
  · exact hs c (List.mem_reverse.mp hc)

/-- A delivery takes numbers from the next free one on, and logs its cuts. -/
theorem log_of_delivered (h : doc.WellFormed) (hd : Delivered balancing doc doc' cuts) :
    doc.next ≤ doc'.next ∧ Log doc.next doc'.next cuts := by
  have hbelow : Below doc.markup ⟨doc.next, []⟩ := fun x hx => (h.mem_ids_iff.mp hx).2
  have hnone : Ascends ⟨doc.next, []⟩ := fun c hc => absurd hc List.not_mem_nil
  cases hd with
  | nothing => exact ⟨Nat.le_refl _, .nil⟩
  | tree t a ha =>
    obtain ⟨g, hg, hfit, -, hnext, hcuts⟩ := h.merge_row ha
    have hle := (grows_mergeRow h.nests hfit hg).le
    rw [hnext, hcuts]
    exact ⟨hle.next, log_of_supply hle (ascends_mergeRow h.nests hfit hg hbelow hnone)⟩
  | node e claimed a hc ha =>
    obtain ⟨hins, rfl⟩ := h.insert_eq hc ha
    have hrow : Below (site claimed e.span doc.markup).row ⟨doc.next, []⟩ :=
      fun x hx => hbelow x (ids_of_site hx)
    have hopen : Ascends (opened claimed e.span doc.markup ⟨doc.next, []⟩).2 :=
      ascends_opening hrow hnone
    exact ⟨hins.grows.le.next, log_of_supply hins.grows.le hopen⟩

/-- A delivery keeps trails and markers. -/
theorem preserves_of_delivered (h : doc.WellFormed) (hd : Delivered balancing doc doc' cuts)
    (hcut : ∀ c ∈ cuts, ρ c.right = ρ c.left)
    (hplain : ∀ x, doc.next ≤ x → (∀ c ∈ cuts, c.right ≠ x) → ρ x = none) :
    Preserves ρ doc.markup doc'.markup := by
  have hsources {s : Supply} (hs : cuts = s.cuts.reverse) : Sources ρ ⟨doc.next, []⟩ s :=
    ⟨fun c hc => absurd hc List.not_mem_nil,
      fun c hc => hcut c (hs ▸ List.mem_reverse.mpr hc),
      fun x hx => hplain x hx.1 fun c hc => hx.2.2 c (List.mem_reverse.mp (hs ▸ hc))⟩
  cases hd with
  | nothing => exact .refl ρ _
  | tree t a ha =>
    obtain ⟨g, hg, hfit, hmarkup, -, hcuts⟩ := h.merge_row ha
    rw [hmarkup]
    exact preserves_mergeRow h.nests hfit hg (hsources hcuts)
  | node e claimed a hc ha =>
    obtain ⟨hins, rfl⟩ := h.insert_eq hc ha
    exact hins.preserves (hsources rfl)

/-! ## Hosts -/

/-- The node of the host that a node comes from, if it comes from one. -/
def source? (host : Document) (log : List Cut) (x : NodeId) : Option NodeId :=
  if Cut.origin log x < host.next then some (Cut.origin log x) else none

/-- The document has grown from the host by the cuts in `log` and by new elements; trails and
markers are those of the host. -/
structure Kept (host doc : Document) (log : List Cut) : Prop where
  next : host.next ≤ doc.next
  logged : Log host.next doc.next log
  keeps : Preserves (host.source? log) host.markup doc.markup

theorem Kept.refl (host : Document) : Kept host host [] := ⟨Nat.le_refl _, .nil, .refl _ _⟩

/-- Every delivery keeps what has come from the host. -/
theorem Kept.step (h : Kept host doc log) (hhost : host.WellFormed) (hdoc : doc.WellFormed)
    (hd : Delivered balancing doc doc' cuts) : Kept host doc' (log ++ cuts) := by
  obtain ⟨hnext, hcuts⟩ := log_of_delivered hdoc hd
  have hlog := h.logged.append hcuts h.next hnext
  refine ⟨Nat.le_trans h.next hnext, hlog, Preserves.trans (h.keeps.congr fun x hx => ?_)
    (preserves_of_delivered hdoc hd (fun c hc => ?_) fun x hx hplain => ?_)⟩
  · have hlt : x < doc.next := by
      rcases hx with hx | hx
      · exact Nat.lt_of_lt_of_le (hhost.mem_ids_iff.mp hx).2 h.next
      · exact (hdoc.mem_ids_iff.mp hx).2
    rw [source?, source?, Cut.origin_append, hcuts.origin_of_lt hlt]
  · rw [source?, source?, hlog.origin_right (List.mem_append_right _ hc)]
  · have horigin : Cut.origin (log ++ cuts) x = x :=
      Cut.origin_of_ne <| List.forall_mem_append.mpr
        ⟨fun c hc => Nat.ne_of_lt (Nat.lt_of_lt_of_le (h.logged.bounds c hc).2 hx), hplain⟩
    rw [source?, horigin, if_neg (Nat.not_lt.mpr (Nat.le_trans h.next hx))]

end Document

namespace Builder

open Document

/-- A run keeps what has come from the host. -/
theorem kept_run {host : Document} (h : host.WellFormed) (options : Options) (resume : Bool)
    (events : List Event) :
    (run resume (start host options) events).1.target.WellFormed ∧
      Kept host (run resume (start host options) events).1.target
        (cutsOf (run resume (start host options) events).2) := by
  obtain ⟨d, hd, hkept⟩ := run_induction
    (R := fun ns b => ∃ d, Sound b d ∧ Kept host b.target (cutsOf ns))
    (fun ns b e ⟨d, hd, hkept⟩ => by
      obtain ⟨d', hd', -, hdel⟩ := hd.handle e
      refine ⟨d', hd', ?_⟩
      rw [cutsOf_append]
      exact hkept.step h hd.wellFormed hdel) resume
    (start host options) events ⟨{}, sound_start h options, .refl host⟩
  exact ⟨hd.wellFormed, hkept⟩

end Builder

end Standoff
