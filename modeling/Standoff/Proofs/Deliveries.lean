import Standoff.Proofs.Balancing
import Standoff.Proofs.Runs
import Standoff.Proofs.Streams
import Standoff.Proofs.Tags

/-! # What a builder has delivered

While a stream goes through a builder, its document is the host with the delivered trees grafted
into it, apart from numbers: the closed roots and, if delivery is incremental, the trees below the
open nonterminals, whose roots are the claimed nodes.

    document = graft (roots ++ rows of the open nonterminals, the outermost first) host

* `Builder.Tracks`: this picture, for a builder and the draft it follows.
* `Builder.Tracks.step`: every accepted event keeps it. -/

namespace Standoff

namespace Builder

open Markup

/-- What a target has of the trees below an open nonterminal: nothing if they wait. -/
def sent (options : Options) (kids : Forest Element) : Forest Element :=
  match options.merge with
  | .deferred => .nil
  | .incremental => kids

/-- The delivered rows of the open nonterminals, the outermost first; claims and frames are given
the innermost first. -/
def raised (options : Options) : List (List NodeId) → List Frame → Markup
  | c :: cs, f :: fs => raised options cs fs ++ tag c (sent options f.kids)
  | _, _ => .nil

/-- All that has been delivered. -/
def delivered (options : Options) (claims : List (List NodeId)) (d : Draft) : Markup :=
  blank d.roots ++ raised options claims d.frames

/-- Claims and the trees they are for. -/
def Counted (options : Options) : List (List NodeId) → List Frame → Prop :=
  List.Forall₂ fun c f => c.length = (sent options f.kids).labels.length

variable {options : Options} {claims cs : List (List NodeId)} {c : List NodeId}
  {fs gs outer : List Frame} {f g : Frame} {d d' : Draft} {e : Event} {roots : Forest Element}
  {hi : Nat} {x : NodeId} {host : Document} {b b' : Builder Document}

theorem sent_deferred (h : options.merge = .deferred) (kids : Forest Element) :
    sent options kids = .nil := by
  rw [sent, h]

theorem sent_incremental (h : options.merge = .incremental) (kids : Forest Element) :
    sent options kids = kids := by
  rw [sent, h]

theorem sent_nil (options : Options) : sent options .nil = .nil := by
  unfold sent
  split <;> rfl

/-! ## Delivered rows -/

theorem raised_nil (cs : List (List NodeId)) : raised options cs [] = .nil := by
  cases cs <;> rfl

/-- Only the kids of frames count. -/
theorem raised_congr (h : List.Forall₂ (fun f g => g.kids = f.kids) fs gs)
    (cs : List (List NodeId)) : raised options cs gs = raised options cs fs := by
  induction h generalizing cs with
  | nil => rfl
  | @cons f g _ _ hfg _ ih =>
    cases cs with
    | nil => rfl
    | cons c cs => rw [raised, raised, ih, hfg]

theorem counted_congr (h : List.Forall₂ (fun f g => g.kids = f.kids) fs gs)
    (hc : Counted options cs fs) : Counted options cs gs := by
  induction h generalizing cs with
  | nil => exact hc
  | cons hfg _ ih =>
    cases hc with
    | cons hlen hrest => exact .cons (by rw [hfg, hlen]) (ih hrest)

/-- A target that gets roots only has nothing of the open nonterminals. -/
theorem raised_deferred (h : options.merge = .deferred) (cs : List (List NodeId))
    (fs : List Frame) : raised options cs fs = .nil := by
  induction cs generalizing fs with
  | nil => rfl
  | cons c cs ih =>
    cases fs with
    | nil => rfl
    | cons f fs =>
      rw [raised, ih, sent_deferred h]
      rfl

theorem flatten_deferred (h : options.merge = .deferred) (hc : Counted options cs fs) :
    cs.flatten = [] := by
  induction hc with
  | nil => rfl
  | cons hlen _ ih =>
    rw [sent_deferred h] at hlen
    rw [List.flatten_cons, ih, List.length_eq_zero_iff.mp hlen]
    rfl

theorem counted_deferred (h : options.merge = .deferred) (hc : Counted options cs fs)
    (hlen : gs.length = fs.length) : Counted options cs gs := by
  induction hc generalizing gs with
  | nil =>
    obtain rfl : gs = [] := List.length_eq_zero_iff.mp hlen
    exact .nil
  | cons hhead _ ih =>
    cases gs with
    | nil => cases hlen
    | cons g gs =>
      rw [sent_deferred h] at hhead
      refine .cons ?_ (ih (Nat.succ.inj hlen))
      rw [sent_deferred h, hhead]

/-- The numbers of delivered rows are claimed. -/
theorem ids_raised (hx : x ∈ (raised options cs fs).ids) : x = 0 ∨ x ∈ cs.flatten := by
  induction cs generalizing fs with
  | nil => cases hx
  | cons c cs ih =>
    cases fs with
    | nil => cases hx
    | cons f fs =>
      rw [raised, ids_append, List.mem_append] at hx
      rw [List.flatten_cons, List.mem_append]
      rcases hx with hx | hx
      · exact (ih hx).imp_right Or.inr
      · exact (ids_tag hx).imp_right Or.inl

theorem renumber_raised {xs : List NodeId} (h : cs.flatten ⊆ xs) (fs : List Frame) :
    (raised options cs fs).renumber (only xs) = raised options cs fs := by
  induction cs generalizing fs with
  | nil => rfl
  | cons c cs ih =>
    cases fs with
    | nil => rfl
    | cons f fs =>
      rw [List.flatten_cons, List.append_subset] at h
      rw [raised, renumber_append, ih h.2, renumber_tag_of_subset h.1]

/-- Delivered rows nest where the rows of the draft do. -/
theorem nests_raised (h : Draft.Rows roots hi fs) (cs : List (List NodeId)) :
    Nests 0 hi (blank roots ++ raised options cs fs) := by
  induction fs generalizing hi cs with
  | nil =>
    rw [raised_nil, Forest.append_nil]
    exact h
  | cons f fs ih =>
    have hle := h.1.le
    cases cs with
    | nil => exact (ih h.2 []).mono (Nat.le_refl _) hle
    | cons c cs =>
      rw [raised, ← Forest.append_assoc]
      refine (ih h.2 cs).append (nests_tag.mpr ?_)
      unfold sent
      split
      · exact hle
      · exact h.1

end Builder

/-! ## Additions to the document -/

namespace Document

open Markup

variable {doc : Document} {e : Element} {t : Tree Element} {balancing : Balancing} {a : Addition}
  {c xs : List NodeId} {x : NodeId}

/-- A merge is a graft. -/
theorem WellFormed.merge_renumber (h : doc.WellFormed) (ha : doc.merge t balancing = .ok a) :
    a.document.markup.renumber (fun _ => 0) =
      graft (blank (Forest.ofTree t)) (doc.markup.renumber fun _ => 0) := by
  obtain ⟨⟨hord, hstop⟩, hkids, p, hp, rfl⟩ := merge_ok ha
  exact mergeTree_renumber h.nests (Nat.zero_le _) hord hstop hkids hp

/-- An insertion takes a new number. -/
theorem WellFormed.insert_id (h : doc.WellFormed) (hc : doc.ClaimsWithin c e.span)
    (ha : doc.insert e c balancing = .ok a) : doc.next ≤ a.id := by
  obtain ⟨-, rfl⟩ := h.insert_eq hc ha
  exact next_le_opened (s := ⟨doc.next, []⟩)

/-- An insertion is an enclosure if all numbers but the new one and some old ones are forgotten. -/
theorem WellFormed.insert_renumber (h : doc.WellFormed) (hc : doc.ClaimsWithin c e.span)
    (hsub : c ⊆ xs) (hold : ∀ x ∈ xs, x < doc.next) (ha : doc.insert e c balancing = .ok a) :
    a.document.markup.renumber (only (a.id :: xs)) =
      enclose c ⟨e, a.id⟩ (doc.markup.renumber (only xs)) := by
  obtain ⟨hins, rfl⟩ := h.insert_eq hc ha
  generalize hnew : (opened c e.span doc.markup ⟨doc.next, []⟩).2.next = new
  have hle := opening_le c e.span (site c e.span doc.markup).row ⟨doc.next, []⟩
  obtain ⟨made, hmade, -, hfresh⟩ := hle.cuts
  have hnext := hle.next
  have hid : (doc.grown [e] (placed e c doc.markup ⟨doc.next, []⟩
      ⟨(opened c e.span doc.markup ⟨doc.next, []⟩).1.inside,
        (opened c e.span doc.markup ⟨doc.next, []⟩).2.take⟩)).id = new := hnew
  have hzero : 0 ∉ c := fun h0 => (hc 0 h0).1 rfl
  have hkeeps : Keeps c (only (new :: xs)) :=
    keeps_only hzero fun x hx => List.mem_cons_of_mem _ (hsub hx)
  have hcuts : ∀ k ∈ (opened c e.span doc.markup ⟨doc.next, []⟩).2.cuts,
      only (new :: xs) k.right = 0 := by
    intro k hk
    have hk : k ∈ made := by
      have := hmade ▸ hk
      rwa [List.append_nil] at this
    obtain ⟨hlo, hhi⟩ := hfresh k hk
    refine only_of_not_mem fun hmem => ?_
    rcases List.mem_cons.mp hmem with heq | hmem
    · exact absurd (hnew ▸ heq ▸ hhi) (Nat.lt_irrefl _)
    · exact absurd (Nat.lt_of_le_of_lt hlo (hold _ hmem)) (Nat.lt_irrefl _)
  have hsame : doc.markup.renumber (only (new :: xs)) = doc.markup.renumber (only xs) := by
    refine renumber_congr fun x hx => ?_
    have hlt : x < doc.next := (h.mem_ids_iff.mp hx).2
    have hne : x ≠ new := Nat.ne_of_lt (Nat.lt_of_lt_of_le hlt (hnew ▸ hnext))
    unfold only
    simp only [List.mem_cons, hne, false_or]
  have hgather := gather_renumber hins hkeeps hcuts
    (opened c e.span doc.markup ⟨doc.next, []⟩).2.take
  rw [hnew, hsame, only_of_mem (List.mem_cons_self ..)] at hgather
  rw [hid]
  show renumber _ (Markup.gather (opened c e.span doc.markup ⟨doc.next, []⟩).2.next _ _) = _
  rw [hnew]
  exact hgather

end Document

/-! ## The invariant -/

namespace Builder

open Document Markup

variable {cs : List (List NodeId)} {c : List NodeId} {outer : List Frame} {f : Frame}
  {d d' : Draft} {e : Event} {host : Document} {b b' : Builder Document}

/-- The builder has delivered into `host` what the draft says. -/
structure Tracks (host : Document) (b : Builder Document) (d : Draft) : Prop where
  sound : Sound b d
  text : b.target.text = host.text
  nested : d.Nested
  fits : ∀ r ∈ d.roots.labels, r.span.stop ≤ host.text.length
  counted : Counted b.options b.claims d.frames
  nodup : b.claims.flatten.Nodup
  roots : b.roots = d.roots.labels.length
  merged : b.merged = (delivered b.options b.claims d).size
  markup : b.target.markup.renumber (only b.claims.flatten) =
    graft (delivered b.options b.claims d) (host.markup.renumber fun _ => 0)

theorem tracks_start (h : host.WellFormed) (options : Options) : Tracks host (start host options) {} where
  sound := sound_start h options
  text := rfl
  nested := Draft.nested_empty
  fits := fun _ hr => absurd hr (List.not_mem_nil)
  counted := .nil
  nodup := .nil
  roots := rfl
  merged := rfl
  markup := by
    show host.markup.renumber (only []) = host.markup.renumber fun _ => 0
    rw [only_nil]

/-- Claimed nodes are elements of the document. -/
theorem Sound.mem_claims (h : Sound b d) {x : NodeId} (hx : x ∈ b.claims.flatten) :
    1 ≤ x ∧ x < b.target.next := by
  obtain ⟨c, hc, hxc⟩ := List.mem_flatten.mp hx
  have hclaims := h.claims
  have hall : ∀ c ∈ b.claims, ∃ start, ClaimsSince b.target d.cursor c start := by
    intro c hc
    generalize b.claims = cs at hclaims hc
    generalize starts d = ss at hclaims
    induction hclaims with
    | nil => cases hc
    | cons hhead _ ih =>
      rcases List.mem_cons.mp hc with rfl | hc
      · exact ⟨_, hhead⟩
      · exact ih hc
  obtain ⟨start, hsince⟩ := hall c hc
  obtain ⟨hne, s, hs, -⟩ := hsince x hxc
  obtain ⟨n, hn, rfl, -⟩ := (h.wellFormed.span?_eq_some hne).mp hs
  exact h.wellFormed.mem_ids_iff.mp (id_mem_ids hn)

/-- An event that delivers nothing. -/
theorem Tracks.quiet (h : Tracks host b d) (hsound : Sound b' d') (hagree : b.Agrees b')
    (hnested : d'.Nested) (hroots : d'.roots = d.roots)
    (hcounted : Counted b.options b'.claims d'.frames)
    (hflatten : b'.claims.flatten = b.claims.flatten)
    (hraised : raised b.options b'.claims d'.frames = raised b.options b.claims d.frames) :
    Tracks host b' d' := by
  have hsame : delivered b'.options b'.claims d' = delivered b.options b.claims d := by
    rw [delivered, hagree.options, hroots, hraised, delivered]
  refine ⟨hsound, by rw [hagree.target, h.text], hnested, by rw [hroots]; exact h.fits,
    by rw [hagree.options]; exact hcounted, by rw [hflatten]; exact h.nodup,
    by rw [hagree.roots, hroots, h.roots], by rw [hagree.merged, hsame, h.merged], ?_⟩
  rw [hsame, hflatten, hagree.target]
  exact h.markup

theorem Tracks.stay (h : Tracks host b d)
    (hm : d.move? b.options.attributeCursor e = some (.stay d')) :
    Tracks host (b.apply e).state d' := by
  obtain ⟨b', happly, -, hagree, hclaims⟩ := Builder.apply_stay h.sound.follows hm
  obtain ⟨-, hroots, hframes⟩ := Draft.stay_cases hm
  have hkids : List.Forall₂ (fun f g : Frame => g.kids = f.kids) d.frames d'.frames :=
    hframes.imp fun _ _ h => h.1
  have hsound := (h.sound.apply_stay hm).1
  rw [happly] at hsound ⊢
  refine h.quiet hsound hagree (h.nested.step (Draft.step?_of_move hm)) hroots ?_ ?_ ?_
  · show Counted b.options b'.claims d'.frames
    rw [hclaims]
    exact counted_congr hkids h.counted
  · show b'.claims.flatten = _
    rw [hclaims]
  · show raised b.options b'.claims d'.frames = _
    rw [hclaims, raised_congr hkids]

theorem Tracks.start (h : Tracks host b d)
    (hm : d.move? b.options.attributeCursor e = some (.start d')) :
    Tracks host (b.apply e).state d' := by
  obtain ⟨b', happly, -, hagree, hclaims⟩ := Builder.apply_start h.sound.follows hm
  have hsound := (h.sound.apply_start hm).1
  have hnested := h.nested.step (Draft.step?_of_move hm)
  obtain ⟨name, -, -, -, rfl⟩ := Draft.start_cases hm
  rw [happly] at hsound ⊢
  refine h.quiet hsound hagree hnested rfl ?_ ?_ ?_
  · show Counted b.options b'.claims _
    rw [hclaims]
    exact .cons (by rw [sent_nil]; rfl) h.counted
  · show b'.claims.flatten = _
    rw [hclaims]
    rfl
  · show raised b.options b'.claims _ = _
    rw [hclaims, raised, sent_nil]
    exact Forest.append_nil _

/-! ## Events that close a nonterminal -/

/-- Deferred: what waits below its parent is not delivered. -/
theorem Tracks.waits (h : Tracks host b d)
    (hm : d.move? b.options.attributeCursor e = some (.close f d'))
    (hdef : b.options.merge = .deferred) (hne : d'.frames ≠ [])
    (hsound : Sound b' (d'.attach f)) (hagree : b.Agrees b')
    (hclaims : b.claims = c :: b'.claims) : Tracks host b' (d'.attach f) := by
  have hnested := h.nested.step (Draft.step?_of_move hm)
  have hcounted := h.counted
  obtain ⟨g, outer, -, hframes, -, rfl, rfl⟩ := Draft.close_cases hm
  rw [hclaims, hframes] at hcounted
  obtain ⟨-, hrest⟩ := List.forall₂_cons.mp hcounted
  have hlen : (({ d with frames := outer } : Draft).attach (g.endAt d.cursor)).frames.length =
      outer.length := by
    cases outer with
    | nil => exact absurd rfl hne
    | cons g' outer => rfl
  have hrest' := counted_deferred hdef hrest hlen
  refine h.quiet hsound hagree hnested ?_ hrest' ?_ ?_
  · cases outer with
    | nil => exact absurd rfl hne
    | cons g' outer => rfl
  · rw [flatten_deferred hdef hrest', flatten_deferred hdef h.counted]
  · rw [raised_deferred hdef, raised_deferred hdef]

/-- Deferred: a root is merged with all below it. -/
theorem Tracks.root {a : Addition} (h : Tracks host b d)
    (hm : d.move? b.options.attributeCursor e = some (.close f d'))
    (hdef : b.options.merge = .deferred) (hnil : d'.frames = [])
    (ha : b.target.merge ⟨f.element, f.kids⟩ b.options.balancing = .ok a)
    (hd : b.Delivers (b.target.deliver (.ok a)) f d' (1 + f.kids.size) [] (b.apply e))
    (hsound : Sound (b.apply e).state (d'.attach f)) :
    Tracks host (b.apply e).state (d'.attach f) := by
  have hnested := h.nested.step (Draft.step?_of_move hm)
  obtain ⟨-, hstop⟩ := (merge_ok ha).1
  obtain ⟨-, -, hclaims, hroots, hmerged⟩ := hd.accepted a.id rfl
  have htarget : (b.apply e).state.target = a.document := hd.target
  obtain ⟨g, outer, -, -, -, rfl, rfl⟩ := Draft.close_cases hm
  obtain rfl : outer = [] := hnil
  have hbefore : delivered b.options b.claims d = blank d.roots := by
    rw [delivered, raised_deferred hdef, Forest.append_nil]
  have hafter : delivered (b.apply e).state.options (b.apply e).state.claims
      (({ d with frames := [] } : Draft).attach (g.endAt d.cursor)) =
        blank d.roots ++ blank (g.endAt d.cursor).tree := by
    rw [delivered, hd.options, raised_deferred hdef, Forest.append_nil, ← blank_append]
    rfl
  have hmarkup := h.markup
  rw [flatten_deferred hdef h.counted, only_nil, hbefore] at hmarkup
  refine ⟨hsound, by rw [htarget, merge_text ha, h.text], hnested, fun r hr => ?_, ?_, ?_, ?_, ?_, ?_⟩
  · have hr : r ∈ (d.roots ++ (g.endAt d.cursor).tree).labels := hr
    rw [Forest.labels_append, List.mem_append] at hr
    rcases hr with hr | hr
    · exact h.fits r hr
    · obtain rfl := List.mem_singleton.mp hr
      rw [← h.text]
      exact hstop
  · rw [hclaims]
    exact .nil
  · rw [hclaims]
    exact .nil
  · rw [hroots, h.roots]
    show d.roots.labels.length + 1 = (d.roots ++ (g.endAt d.cursor).tree).labels.length
    rw [Forest.labels_append, List.length_append]
    rfl
  · rw [hmerged, h.merged, hafter, hbefore, Forest.size_append, size_blank, size_blank]
    rfl
  · rw [hafter, hclaims, htarget]
    show a.document.markup.renumber (only []) = _
    rw [only_nil, h.sound.wellFormed.merge_renumber ha, hmarkup, ← graft_append]
    rfl

/-- The delivered rows with a new tree `x` over the ones of its claim. -/
theorem delivered_attach {options : Options} {x : NodeId} (d' : Draft) (f : Frame) (hinc : options.merge = .incremental)
    (hcounted : Counted options cs d'.frames) (hc : ∀ y ∈ c, y ∉ (handed x cs).flatten) :
    (blank d'.roots ++ raised options cs d'.frames ++
        .node ⟨f.element, x⟩ (tag c f.kids) .nil).renumber (only (handed x cs).flatten) =
      delivered options (handed x cs) (d'.attach f) := by
  rw [renumber_append, renumber_append, renumber_node, renumber_blank (only_zero _),
    renumber_tag_of_disjoint hc, delivered]
  cases hframes : d'.frames with
  | nil =>
    rw [hframes] at hcounted
    cases hcounted
    rw [Draft.attach_of_nil hframes, raised_nil, hframes, raised_nil]
    simp only [handed, List.flatten_nil, only_nil, renumber_nil, Forest.append_nil, blank_append]
    rfl
  | cons g outer =>
    rw [hframes] at hcounted
    cases hcounted with
    | @cons c' _ cs _ hlen _ =>
      rw [sent_incremental hinc] at hlen
      have hall : (handed x (c' :: cs)).flatten = c' ++ [x] ++ cs.flatten := rfl
      have hsub : c' ⊆ (handed x (c' :: cs)).flatten := by
        rw [hall, List.append_assoc]
        exact List.subset_append_left _ _
      have hsub' : cs.flatten ⊆ (handed x (c' :: cs)).flatten := by
        rw [hall]
        exact List.subset_append_right _ _
      have hx : x ∈ (handed x (c' :: cs)).flatten := by
        rw [hall]
        simp
      rw [Draft.attach_of_cons hframes, raised, renumber_append, renumber_raised hsub',
        renumber_tag_of_subset hsub, only_of_mem hx]
      simp only [handed, raised, sent_incremental hinc, renumber_nil]
      rw [Frame.tree, tag_append hlen, Forest.append_assoc, Forest.append_assoc]

/-- Incremental: an insertion over the trees of its claim is a graft of one more tree. -/
theorem Tracks.insert_markup {a : Addition} (h : Tracks host b d) (hhost : host.WellFormed)
    (hm : d.move? b.options.attributeCursor e = some (.close f d'))
    (hinc : b.options.merge = .incremental) (hclaims : b.claims = c :: cs)
    (hwithin : b.target.ClaimsWithin c f.element.span)
    (ha : b.target.insert f.element c b.options.balancing = .ok a) :
    a.document.markup.renumber (only (a.id :: (c ++ cs.flatten))) =
      graft (blank d'.roots ++ raised b.options cs d'.frames ++
        .node ⟨f.element, a.id⟩ (tag c f.kids) .nil) (host.markup.renumber fun _ => 0) := by
  have hmarkup := h.markup
  have hcounted := h.counted
  have hnodup := h.nodup
  have hmem (x : NodeId) (hx : x ∈ c ++ cs.flatten) : 1 ≤ x ∧ x < b.target.next :=
    h.sound.mem_claims (by rw [hclaims]; exact hx)
  have hzero : 0 ∉ c := fun h0 => absurd (hmem 0 (List.mem_append_left _ h0)).1 (by decide)
  obtain ⟨⟨hord, hstop⟩, -⟩ := insert_ok ha
  obtain ⟨hrows, hkids, -, -⟩ := h.nested.close hm
  obtain ⟨g, outer, -, hframes, -, rfl, rfl⟩ := Draft.close_cases hm
  rw [hclaims, hframes] at hcounted
  obtain ⟨hlen, -⟩ := List.forall₂_cons.mp hcounted
  rw [sent_incremental hinc] at hlen
  rw [hclaims, List.flatten_cons] at hmarkup hnodup
  rw [delivered, hframes, raised, ← Forest.append_assoc, sent_incremental hinc,
    graft_append] at hmarkup
  obtain ⟨hc, -, hdisjoint⟩ := List.nodup_append.mp hnodup
  have hrest : Nests 0 _ (blank d.roots ++ raised b.options cs outer) := nests_raised hrows cs
  have hnests : Nests 0 host.text.length (graft (blank d.roots ++ raised b.options cs outer)
      (host.markup.renumber fun _ => 0)) := by
    refine nests_graft ((nests_renumber _).mpr hhost.nests) hrest (Nat.le_refl _) ?_
    rw [← h.text]
    exact Nat.le_trans hord hstop
  have hroots : (tag c (g.endAt d.cursor).kids).rootIds = c := rootIds_tag hlen
  -- the trees of the claim are not in the document without them
  have hout : ∀ x ∈ (tag c (g.endAt d.cursor).kids).rootIds,
      x ∉ (graft (blank d.roots ++ raised b.options cs outer)
        (host.markup.renumber fun _ => 0)).ids := by
    intro x hx hin
    rw [hroots] at hx
    have hne : x ≠ 0 := fun h0 => hzero (h0 ▸ hx)
    rw [mem_ids_graft hne, ids_append, List.mem_append] at hin
    rcases hin with (hin | hin) | hin
    · exact hne (ids_blank hin)
    · exact hdisjoint x hx x ((ids_raised hin).resolve_left hne) rfl
    · rw [ids_renumber] at hin
      obtain ⟨y, -, rfl⟩ := List.mem_map.mp hin
      exact hne rfl
  have hstop' : (g.endAt d.cursor).element.span.stop ≤ host.text.length := by
    rw [← h.text]
    exact hstop
  have henclose := enclose_graft (n := ⟨(g.endAt d.cursor).element, a.id⟩) hnests (Nat.zero_le _)
    hord hstop' (nests_tag.mpr hkids) (tagged_tag hlen hzero hc) hout
  rw [hroots] at henclose
  rw [h.sound.wellFormed.insert_renumber hwithin (List.subset_append_left _ _)
    (fun x hx => (hmem x hx).2) ha, hmarkup]
  refine henclose.trans ?_
  rw [graft_append _ (Forest.node _ _ _)]
  rfl

theorem handed_subset (x : NodeId) (cs : List (List NodeId)) :
    (handed x cs).flatten ⊆ x :: cs.flatten := by
  cases cs with
  | nil => exact List.nil_subset _
  | cons c cs =>
    intro y hy
    simp only [handed, List.flatten_cons, List.mem_append, List.mem_cons, List.not_mem_nil,
      or_false] at hy ⊢
    tauto

theorem handed_nodup {x : NodeId} (hx : x ∉ cs.flatten) (h : cs.flatten.Nodup) :
    (handed x cs).flatten.Nodup := by
  cases cs with
  | nil => exact .nil
  | cons c cs =>
    have hperm : (handed x (c :: cs)).flatten.Perm (x :: (c :: cs).flatten) := by
      simp only [handed, List.flatten_cons, List.append_assoc, List.singleton_append]
      exact List.perm_middle
    exact hperm.nodup_iff.mpr (List.nodup_cons.mpr ⟨hx, h⟩)

/-- The claims count the trees also after a new one. -/
theorem counted_handed {options : Options} (x : NodeId) (hinc : options.merge = .incremental)
    (h : Counted options cs d'.frames) : Counted options (handed x cs) (d'.attach f).frames := by
  cases hframes : d'.frames with
  | nil =>
    rw [hframes] at h
    cases h
    rw [Draft.attach_of_nil hframes, hframes]
    exact .nil
  | cons g outer =>
    rw [hframes] at h
    cases h with
    | cons hlen hrest =>
      rw [Draft.attach_of_cons hframes]
      refine .cons ?_ hrest
      rw [sent_incremental hinc] at hlen ⊢
      rw [Forest.labels_append, List.length_append, List.length_append, hlen]
      rfl

/-- Incremental: a node is inserted over the trees of its claim. -/
theorem Tracks.node {a : Addition} (h : Tracks host b d) (hhost : host.WellFormed)
    (hm : d.move? b.options.attributeCursor e = some (.close f d'))
    (hinc : b.options.merge = .incremental) (hclaims : b.claims = c :: cs)
    (hwithin : b.target.ClaimsWithin c f.element.span)
    (ha : b.target.insert f.element c b.options.balancing = .ok a)
    (hd : b.Delivers (b.target.deliver (.ok a)) f d' 1 cs (b.apply e))
    (hsound : Sound (b.apply e).state (d'.attach f)) :
    Tracks host (b.apply e).state (d'.attach f) := by
  have hnested := h.nested.step (Draft.step?_of_move hm)
  have hmarkup := h.insert_markup hhost hm hinc hclaims hwithin ha
  have hnew := h.sound.wellFormed.insert_id hwithin ha
  have hmem (x : NodeId) (hx : x ∈ c ++ cs.flatten) : x < b.target.next :=
    (h.sound.mem_claims (by rw [hclaims]; exact hx)).2
  have hfresh : a.id ∉ c ++ cs.flatten := fun hx =>
    absurd (Nat.lt_of_lt_of_le (hmem _ hx) hnew) (Nat.lt_irrefl _)
  obtain ⟨-, -, hclaims', hroots, hmerged⟩ := hd.accepted a.id rfl
  have htarget : (b.apply e).state.target = a.document := hd.target
  have hoptions := hd.options
  obtain ⟨⟨-, hstop⟩, -⟩ := insert_ok ha
  have hcounted := h.counted
  have hnodup := h.nodup
  have hsize := h.merged
  have hfits := h.fits
  have hcount := h.roots
  obtain ⟨g, outer, -, hframes, -, rfl, rfl⟩ := Draft.close_cases hm
  rw [hclaims, hframes] at hcounted
  obtain ⟨-, hcounted⟩ := List.forall₂_cons.mp hcounted
  rw [hclaims, List.flatten_cons] at hnodup
  obtain ⟨-, hnodup, hdisjoint⟩ := List.nodup_append.mp hnodup
  have hfresh' : a.id ∉ cs.flatten := fun hx => hfresh (List.mem_append_right _ hx)
  have hdelivered := delivered_attach (x := a.id) (c := c) { d with frames := outer }
    (g.endAt d.cursor) hinc hcounted fun y hy hmem => by
      rcases List.mem_cons.mp (handed_subset _ _ hmem) with rfl | hmem
      · exact hfresh (List.mem_append_left _ hy)
      · exact hdisjoint y hy y hmem rfl
  refine ⟨hsound, by rw [htarget, insert_text ha, h.text], hnested, fun r hr => ?_, ?_, ?_, ?_, ?_, ?_⟩
  · cases outer with
    | nil =>
      have hr : r ∈ (d.roots ++ (g.endAt d.cursor).tree).labels := hr
      rw [Forest.labels_append, List.mem_append] at hr
      rcases hr with hr | hr
      · exact hfits r hr
      · obtain rfl := List.mem_singleton.mp hr
        rw [← h.text]
        exact hstop
    | cons g' outer => exact hfits r hr
  · rw [hclaims', hoptions]
    exact counted_handed a.id hinc hcounted
  · rw [hclaims']
    exact handed_nodup hfresh' hnodup
  · rw [hroots, hcount]
    cases outer with
    | nil =>
      show d.roots.labels.length + 1 = (d.roots ++ (g.endAt d.cursor).tree).labels.length
      rw [Forest.labels_append, List.length_append]
      rfl
    | cons g' outer => rfl
  · rw [hmerged, hsize, hclaims', hoptions, ← hdelivered, renumber, Forest.size_map,
      Forest.size_append, delivered, hframes, hclaims, raised, ← Forest.append_assoc,
      Forest.size_append, size_tag, sent_incremental hinc]
    show (blank d.roots ++ raised b.options cs outer).size + g.kids.size + 1 =
      (blank d.roots ++ raised b.options cs outer).size + (1 + (tag c g.kids).size + 0)
    rw [size_tag]
    omega
  · rw [hclaims', hoptions, ← hdelivered, htarget]
    have hsub : (handed a.id cs).flatten ⊆ a.id :: (c ++ cs.flatten) :=
      List.Subset.trans (handed_subset _ _)
        (List.cons_subset_cons _ (List.subset_append_right _ _))
    have hblank : (host.markup.renumber fun _ => 0).renumber (only (handed a.id cs).flatten) =
        host.markup.renumber fun _ => 0 := by
      rw [renumber_renumber]
      exact renumber_congr fun x _ => only_zero _
    rw [← renumber_only hsub, hmarkup, ← graft_renumber (only_zero _), hblank]

/-- Every accepted event keeps the invariant. -/
theorem Tracks.step (h : Tracks host b d) (hhost : host.WellFormed)
    (hok : (b.apply e).outcome = .ok ()) :
    ∃ d', d.step? b.options.attributeCursor e = some d' ∧ Tracks host (b.apply e).state d' ∧
      (b.apply e).state.options = b.options := by
  cases hm : d.move? b.options.attributeCursor e with
  | none =>
    obtain ⟨error, happly⟩ := apply_refused h.sound.follows hm
    rw [happly] at hok
    cases hok
  | some mv =>
    refine ⟨Draft.settle mv, Draft.step?_of_move hm, ?_⟩
    cases mv with
    | start d' => exact ⟨h.start hm, (h.sound.apply_start hm).2.1⟩
    | stay d' => exact ⟨h.stay hm, (h.sound.apply_stay hm).2.1⟩
    | close f d' =>
      obtain ⟨d'', hsound, hd'', hoptions, -⟩ := h.sound.apply_close hm
      obtain rfl := hd'' hok
      refine ⟨?_, hoptions⟩
      cases h.sound.closes hm with
      | waits c state hdef hne hr hfol hagree hclaims =>
        rw [hr] at hsound ⊢
        exact h.waits hm hdef hne hsound hagree hclaims
      | root hdef hnil hd =>
        cases ha : b.target.merge ⟨f.element, f.kids⟩ b.options.balancing with
        | error conflict =>
          rw [ha] at hd
          cases (hd.refused conflict rfl).1.symm.trans hok
        | ok a =>
          rw [ha] at hd
          exact h.root hm hdef hnil ha hd hsound
      | node c cs hinc hclaims hwithin hd =>
        cases ha : b.target.insert f.element c b.options.balancing with
        | error conflict =>
          rw [ha] at hd
          cases (hd.refused conflict rfl).1.symm.trans hok
        | ok a =>
          rw [ha] at hd
          exact h.node hhost hm hinc hclaims hwithin ha hd hsound

/-- Where cutting is allowed an event is accepted if what it closes fits into the text. -/
theorem Tracks.accepts (h : Tracks host b d) (hinner : b.options.balancing = .inner)
    (hs : d.step? b.options.attributeCursor e = some d') (hfits : d'.Fits host.text.length) :
    (b.apply e).outcome = .ok () := by
  obtain ⟨mv, hm, rfl⟩ := Option.map_eq_some_iff.mp hs
  cases mv with
  | start d' =>
    obtain ⟨b', happly, -⟩ := Builder.apply_start h.sound.follows hm
    rw [happly]
    rfl
  | stay d' =>
    obtain ⟨b', happly, -⟩ := Builder.apply_stay h.sound.follows hm
    rw [happly]
    rfl
  | close f d' =>
    obtain ⟨-, hkids, hstop, hcursor⟩ := h.nested.close hm
    have hlimit : f.element.span.stop ≤ b.target.text.length := by
      obtain ⟨g, outer, -, hframes, -⟩ := Draft.close_cases hm
      rw [hstop, hcursor, h.text]
      exact (hfits.of_step hs).frames (hframes ▸ List.cons_ne_nil _ _)
    cases h.sound.closes hm with
    | waits c state hdef hne hr hfol hagree hclaims =>
      rw [hr]
      rfl
    | root hdef hnil hd =>
      obtain ⟨a, ha⟩ := h.sound.wellFormed.merge_inner (t := ⟨f.element, f.kids⟩) hkids.le hlimit
        (Draft.misfit?_of_nests hkids (Nat.le_refl _) (Nat.le_refl _))
      rw [hinner, ha] at hd
      exact (hd.accepted a.id rfl).1
    | node c cs hinc hclaims hwithin hd =>
      obtain ⟨a, ha⟩ := h.sound.wellFormed.insert_inner hwithin hkids.le hlimit
      rw [hinner, ha] at hd
      exact (hd.accepted a.id rfl).1

end Builder

end Standoff
