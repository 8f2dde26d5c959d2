import Standoff.Proofs.Drafts
import Standoff.Proofs.WellFormed

/-! # Runs of a builder over a document

A run delivers events to a builder and either stops at the first refusal or goes on.  Every event,
refused or not, keeps the document well formed: what the builder claims for an open nonterminal
are elements of the document, and they lie between its start and the cursor.

* `Builder.run`: a run of either kind.
* `Builder.run_induction`: what every event keeps holds at the end of a run.
* `Builder.Sound`, `Builder.Sound.handle`: the invariant of a run, kept by every event. -/

namespace Standoff

/-! ## Runs -/

/-- Delivers every event, also after refusals. -/
def pursue {σ : Type} (handler : Handler σ) : σ → List Event → σ × List Notice
  | state, [] => (state, [])
  | state, e :: rest =>
    let r := handler state e
    let last := pursue handler r.state rest
    (last.1, r.notices ++ last.2)

section Drive

variable {σ : Type} {handler : Handler σ} {state : σ} {e : Event}

/-- An accepted event is one step of a run. -/
theorem drive_cons (h : (handler state e).outcome = .ok ()) (events : List Event) :
    (drive handler state (e :: events)).outcome =
        (drive handler (handler state e).state events).outcome ∧
      (drive handler state (e :: events)).state =
        (drive handler (handler state e).state events).state := by
  rw [drive]
  simp only [h]
  exact ⟨rfl, rfl⟩

/-- A run without refusals has none at its first event. -/
theorem drive_head {events : List Event} (h : (drive handler state (e :: events)).outcome = .ok ()) :
    (handler state e).outcome = .ok () := by
  rw [drive] at h
  cases hout : (handler state e).outcome with
  | ok _ => rfl
  | error error =>
    simp only [hout] at h
    exact h

end Drive

namespace Builder

section Runs

variable {τ : Type} [MergeTarget τ]

/-- The last state of a run and its notices; `resume` tells if it goes on after refusals. -/
def run (resume : Bool) (b : Builder τ) (events : List Event) : Builder τ × List Notice :=
  if resume then pursue handle b events
  else ((drive handle b events).state, (drive handle b events).notices)

/-- A relation between notices and state that every event keeps. -/
theorem run_induction {R : List Notice → Builder τ → Prop}
    (step : ∀ ns b e, R ns b → R (ns ++ (b.handle e).notices) (b.handle e).state)
    (resume : Bool) (b : Builder τ) (events : List Event) (h : R [] b) :
    R (run resume b events).2 (run resume b events).1 := by
  have hpursue (events : List Event) (ns : List Notice) (b : Builder τ) (h : R ns b) :
      R (ns ++ (pursue handle b events).2) (pursue handle b events).1 := by
    induction events generalizing ns b with
    | nil => rwa [pursue, List.append_nil]
    | cons e events ih =>
      have := ih _ _ (step ns b e h)
      rwa [List.append_assoc] at this
  have hdrive (events : List Event) (ns : List Notice) (b : Builder τ) (h : R ns b) :
      R (ns ++ (drive handle b events).notices) (drive handle b events).state := by
    induction events generalizing ns b with
    | nil =>
      show R (ns ++ []) b
      rwa [List.append_nil]
    | cons e events ih =>
      rw [drive]
      cases hout : (b.handle e).outcome with
      | ok _ =>
        have := ih _ _ (step ns b e h)
        rwa [List.append_assoc] at this
      | error error => exact step ns b e h
  cases resume with
  | true => exact hpursue events [] b h
  | false => exact hdrive events [] b h

end Runs

end Builder

/-! ## Spans after an insertion -/

namespace Document

open Markup

variable {doc : Document} {e : Element} {claimed : List NodeId} {balancing : Balancing}
  {a : Addition} {x : NodeId}

theorem insert_text (ha : doc.insert e claimed balancing = .ok a) : a.document.text = doc.text := by
  obtain ⟨-, p, -, rfl⟩ := insert_ok ha
  rfl

theorem merge_text {t : Tree Element} (ha : doc.merge t balancing = .ok a) :
    a.document.text = doc.text := by
  obtain ⟨-, -, p, -, rfl⟩ := merge_ok ha
  rfl

theorem WellFormed.span?_eq_some (h : doc.WellFormed) {s : Span} (hx : x ≠ rootId) :
    doc.span? x = some s ↔ ∃ n ∈ doc.markup.preorder, n.id = x ∧ n.span = s := by
  rw [span?, if_neg hx]
  constructor
  · intro hs
    obtain ⟨t, ht, rfl⟩ := Option.map_eq_some_iff.mp hs
    obtain ⟨hid, hsub⟩ := node?_spec ht
    exact ⟨t.label, hsub _ (by simp [Forest.ofTree]), hid, rfl⟩
  · rintro ⟨n, hn, rfl, rfl⟩
    obtain ⟨t, ht, hlabel⟩ := h.node?_of_mem hn
    rw [ht, ← hlabel]
    rfl

/-- After an insertion every element is still there, within the span that it had, and the new one
has the span it was given. -/
theorem WellFormed.insert_span? (h : doc.WellFormed) (hc : doc.ClaimsWithin claimed e.span)
    (ha : doc.insert e claimed balancing = .ok a) :
    (∀ x s, x ≠ rootId → doc.span? x = some s →
      ∃ s', a.document.span? x = some s' ∧ s.start ≤ s'.start ∧ s'.stop ≤ s.stop) ∧
      a.id ≠ rootId ∧ a.document.span? a.id = some e.span := by
  have hwf := h.insert hc ha
  obtain ⟨hins, rfl⟩ := h.insert_eq hc ha
  have hgrow := hins.grows
  have hle := h.pos
  have hnext : doc.next ≤ (opened claimed e.span doc.markup ⟨doc.next, []⟩).2.next :=
    next_le_opened (s := ⟨doc.next, []⟩)
  have hid : (opened claimed e.span doc.markup ⟨doc.next, []⟩).2.next ≠ rootId := by
    rw [rootId]
    intro h0
    rw [h0] at hnext
    exact absurd (Nat.le_trans hle hnext) (by decide)
  refine ⟨fun x s hx hs => ?_, hid, ?_⟩
  · obtain ⟨n, hn, rfl, rfl⟩ := (h.span?_eq_some hx).mp hs
    have hmem := id_mem_ids hn
    have hlt := (h.mem_ids_iff.mp hmem).2
    have hmem' : n.id ∈ ((placed e claimed doc.markup ⟨doc.next, []⟩
        ⟨(opened claimed e.span doc.markup ⟨doc.next, []⟩).1.inside,
          (opened claimed e.span doc.markup ⟨doc.next, []⟩).2.take⟩).markup.gather
        (opened claimed e.span doc.markup ⟨doc.next, []⟩).2.next
        (strays claimed e.span doc.markup)).ids := by
      have hcount := hgrow.count n.id
      have hpos := List.count_pos_iff.mpr hmem
      exact List.count_pos_iff.mp (by omega)
    obtain ⟨b, hb, hbid⟩ := mem_ids.mp hmem'
    obtain ⟨c, hc', hrem⟩ := (hins.nodes hb).1 (hbid ▸ hlt)
    obtain rfl := eq_of_id h.nodup hc' hn (hrem.id.trans hbid)
    exact ⟨b.span, (hwf.span?_eq_some hx).mpr ⟨b, hb, hbid, rfl⟩, hrem.start, hrem.stop⟩
  · have hmem' : (opened claimed e.span doc.markup ⟨doc.next, []⟩).2.next ∈
        ((placed e claimed doc.markup ⟨doc.next, []⟩
        ⟨(opened claimed e.span doc.markup ⟨doc.next, []⟩).1.inside,
          (opened claimed e.span doc.markup ⟨doc.next, []⟩).2.take⟩).markup.gather
        (opened claimed e.span doc.markup ⟨doc.next, []⟩).2.next
        (strays claimed e.span doc.markup)).ids := by
      have hcount := hgrow.count (opened claimed e.span doc.markup ⟨doc.next, []⟩).2.next
      rw [Supply.taken, if_pos ⟨hnext, Nat.lt_succ_self _⟩] at hcount
      exact List.count_pos_iff.mp (by omega)
    obtain ⟨b, hb, hbid⟩ := mem_ids.mp hmem'
    refine (hwf.span?_eq_some hid).mpr ⟨b, hb, hbid, ?_⟩
    rw [(hins.nodes hb).2 hbid]

end Document

/-! ## The invariant of a run -/

namespace Builder

open Document

variable {b : Builder Document} {d d' : Draft} {f : Frame} {e : Event}

/-- The starts of the open nonterminals, the innermost first. -/
def starts (d : Draft) : List Nat := d.frames.map (·.element.span.start)

/-- What is claimed for a nonterminal lies between its start and the cursor. -/
def ClaimsSince (doc : Document) (cursor : Nat) (c : List NodeId) (start : Nat) : Prop :=
  ∀ x ∈ c, x ≠ rootId ∧ ∃ s, doc.span? x = some s ∧ start ≤ s.start ∧ s.stop ≤ cursor

structure Sound (b : Builder Document) (d : Draft) : Prop where
  follows : b.Follows d
  wellFormed : b.target.WellFormed
  /-- No nonterminal starts before the one around it. -/
  nested : (starts d).Pairwise fun x y => y ≤ x
  started : ∀ x ∈ starts d, x ≤ d.cursor
  claims : List.Forall₂ (ClaimsSince b.target d.cursor) b.claims (starts d)

theorem sound_start {doc : Document} (h : doc.WellFormed) (options : Options) :
    Sound { target := doc, options := options } {} :=
  ⟨follows_start doc options, h, .nil, fun _ hx => absurd hx (List.not_mem_nil), .nil⟩

/-- What an event may do to the document, and the cuts that takes. -/
inductive Delivered (balancing : Balancing) (doc : Document) : Document → List Cut → Prop where
  | nothing : Delivered balancing doc doc []
  | tree (t : Tree Element) (a : Addition) (h : doc.merge t balancing = .ok a) :
      Delivered balancing doc a.document a.cuts
  | node (e : Element) (claimed : List NodeId) (a : Addition)
      (hc : doc.ClaimsWithin claimed e.span) (h : doc.insert e claimed balancing = .ok a) :
      Delivered balancing doc a.document a.cuts

theorem Delivered.text {balancing : Balancing} {doc doc' : Document} {cuts : List Cut}
    (h : Delivered balancing doc doc' cuts) : doc'.text = doc.text := by
  cases h with
  | nothing => rfl
  | tree t a h => exact merge_text h
  | node e claimed a hc h => exact insert_text h

theorem starts_congr {P : Frame → Frame → Prop}
    (hP : ∀ f g, P f g → g.element.span = f.element.span)
    (h : List.Forall₂ P d.frames d'.frames) : starts d' = starts d := by
  rw [starts, starts]
  generalize d.frames = fs at h
  generalize d'.frames = gs at h
  induction h with
  | nil => rfl
  | cons hfg _ ih => rw [List.map_cons, List.map_cons, hP _ _ hfg, ih]

theorem starts_attach (f : Frame) (d : Draft) : starts (d.attach f) = starts d := by
  cases hf : d.frames with
  | nil =>
    rw [Draft.attach_of_nil hf]
    rfl
  | cons g outer =>
    rw [Draft.attach_of_cons hf, starts, starts, hf]
    rfl

theorem cursor_attach (f : Frame) (d : Draft) : (d.attach f).cursor = d.cursor := by
  unfold Draft.attach
  split <;> rfl

theorem ClaimsSince.mono {doc doc' : Document} {cursor cursor' start : Nat} {c : List NodeId}
    (h : ClaimsSince doc cursor c start) (hle : cursor ≤ cursor')
    (hdoc : ∀ x s, x ≠ rootId → doc.span? x = some s →
      ∃ s', doc'.span? x = some s' ∧ s.start ≤ s'.start ∧ s'.stop ≤ s.stop) :
    ClaimsSince doc' cursor' c start := fun x hx => by
  obtain ⟨hne, s, hs, hstart, hstop⟩ := h x hx
  obtain ⟨s', hs', h₁, h₂⟩ := hdoc x s hne hs
  exact ⟨hne, s', hs', Nat.le_trans hstart h₁, Nat.le_trans h₂ (Nat.le_trans hstop hle)⟩

/-- An event that delivers nothing. -/
theorem Sound.quiet {b' : Builder Document} (h : Sound b d) (hfol : b'.Follows d')
    (hagree : b.Agrees b') (hcursor : d.cursor ≤ d'.cursor) (hstarts : starts d' = starts d)
    (hclaims : b'.claims = b.claims) : Sound b' d' := by
  refine ⟨hfol, hagree.target ▸ h.wellFormed, hstarts ▸ h.nested, fun x hx => ?_, ?_⟩
  · exact Nat.le_trans (h.started x (hstarts ▸ hx)) hcursor
  · rw [hclaims, hstarts, hagree.target]
    exact h.claims.imp fun _ _ hc => hc.mono hcursor fun _ s _ hs =>
      ⟨s, hs, Nat.le_refl _, Nat.le_refl _⟩

/-- The invariant and the effect of an event that opens or closes no nonterminal. -/
theorem Sound.apply_stay (h : Sound b d)
    (hm : d.move? b.options.attributeCursor e = some (.stay d')) :
    Sound (b.apply e).state d' ∧ (b.apply e).state.options = b.options ∧
      Delivered b.options.balancing b.target (b.apply e).state.target
        (cutsOf (b.apply e).notices) := by
  obtain ⟨b', happly, hfol, hagree, hclaims⟩ := Builder.apply_stay h.follows hm
  obtain ⟨hcursor, -, hframes⟩ := Draft.stay_cases hm
  rw [happly]
  refine ⟨h.quiet hfol hagree hcursor (starts_congr (fun _ _ h => h.2) hframes) hclaims,
    hagree.options, ?_⟩
  rw [show (Response.accept b' []).state.target = b.target from hagree.target]
  exact .nothing

theorem Sound.apply_start (h : Sound b d)
    (hm : d.move? b.options.attributeCursor e = some (.start d')) :
    Sound (b.apply e).state d' ∧ (b.apply e).state.options = b.options ∧
      Delivered b.options.balancing b.target (b.apply e).state.target
        (cutsOf (b.apply e).notices) := by
  obtain ⟨b', happly, hfol, hagree, hclaims⟩ := Builder.apply_start h.follows hm
  obtain ⟨name, -, -, -, rfl⟩ := Draft.start_cases hm
  rw [happly]
  refine ⟨⟨hfol, hagree.target ▸ h.wellFormed, ?_, fun x hx => ?_, ?_⟩, hagree.options, ?_⟩
  · exact List.pairwise_cons.mpr ⟨h.started, h.nested⟩
  · rcases List.mem_cons.mp hx with rfl | hx
    · exact Nat.le_refl _
    · exact h.started x hx
  · show List.Forall₂ (ClaimsSince b'.target d.cursor) b'.claims _
    rw [hclaims, hagree.target]
    exact .cons (fun x hx => absurd hx (List.not_mem_nil)) h.claims
  · rw [show (Response.accept b' []).state.target = b.target from hagree.target]
    exact .nothing

theorem Sound.refused (h : Sound b d) (hm : d.move? b.options.attributeCursor e = none) :
    Sound (b.apply e).state d ∧ (b.apply e).state.options = b.options ∧
      Delivered b.options.balancing b.target (b.apply e).state.target
        (cutsOf (b.apply e).notices) := by
  obtain ⟨error, happly⟩ := Builder.apply_refused h.follows hm
  rw [happly]
  exact ⟨h, rfl, .nothing⟩

/-- How a nonterminal that closes is delivered. -/
inductive Closes (b : Builder Document) (f : Frame) (d' : Draft)
    (r : Response (Builder Document)) : Prop where
  /-- It waits below its parent. -/
  | waits (c : List NodeId) (state : Builder Document) (hdef : b.options.merge = .deferred)
      (hd' : d'.frames ≠ []) (hr : r = .accept state []) (hfol : state.Follows (d'.attach f))
      (hagree : b.Agrees state) (hclaims : b.claims = c :: state.claims)
  /-- It is a root and goes to the document with all below it. -/
  | root (hdef : b.options.merge = .deferred) (hd' : d'.frames = [])
      (h : b.Delivers (b.target.deliver (b.target.merge ⟨f.element, f.kids⟩ b.options.balancing))
        f d' (1 + f.kids.size) [] r)
  /-- It goes to the document over its children. -/
  | node (c : List NodeId) (cs : List (List NodeId)) (hinc : b.options.merge = .incremental)
      (hclaims : b.claims = c :: cs) (hwithin : b.target.ClaimsWithin c f.element.span)
      (h : b.Delivers (b.target.deliver (b.target.insert f.element c b.options.balancing))
        f d' 1 cs r)

theorem Sound.closes (h : Sound b d)
    (hm : d.move? b.options.attributeCursor e = some (.close f d')) :
    Closes b f d' (b.apply e) := by
  cases hmerge : b.options.merge with
  | deferred =>
    by_cases houter : d'.frames = []
    · exact .root hmerge houter (apply_close_root h.follows hmerge hm houter)
    · obtain ⟨b', c, happly, hfol, hagree, hclaims⟩ :=
        apply_close_waits h.follows hmerge hm houter
      exact .waits c b' hmerge houter happly hfol hagree hclaims
  | incremental =>
    obtain ⟨c, cs, hclaims, hd⟩ := apply_close_inserts h.follows hmerge hm
    refine .node c cs hmerge hclaims (fun x hx => ?_) hd
    obtain ⟨g, outer, -, hframes, -, rfl, -⟩ := Draft.close_cases hm
    have hclaimsOf := h.claims
    rw [hclaims, starts, hframes] at hclaimsOf
    obtain ⟨hne, s, hs, hstart, hstop⟩ := (List.forall₂_cons.mp hclaimsOf).1 x hx
    refine ⟨hne, s, hs, ?_⟩
    rw [Span.contains, Bool.and_eq_true, decide_eq_true_eq, decide_eq_true_eq]
    exact ⟨hstart, hstop⟩

/-- The invariant when the innermost nonterminal has left the stack. -/
theorem Sound.leaves {b' : Builder Document} {g : Frame} {outer : List Frame} (h : Sound b d)
    (hframes : d.frames = g :: outer) (hfol : b'.Follows d') (hwf : b'.target.WellFormed)
    (hstarts : starts d' = outer.map (·.element.span.start)) (hcursor : d'.cursor = d.cursor)
    (hclaims : List.Forall₂ (ClaimsSince b'.target d.cursor) b'.claims
      (outer.map (·.element.span.start))) : Sound b' d' := by
  have hbefore : starts d = g.element.span.start :: outer.map (·.element.span.start) := by
    rw [starts, hframes]
    rfl
  refine ⟨hfol, hwf, ?_, fun x hx => ?_, ?_⟩
  · rw [hstarts]
    exact (List.pairwise_cons.mp (hbefore ▸ h.nested)).2
  · rw [hstarts] at hx
    rw [hcursor]
    exact h.started x (by rw [hbefore]; exact List.mem_cons_of_mem _ hx)
  · rw [hstarts, hcursor]
    exact hclaims

/-- A new element is claimed for the nonterminal around it. -/
theorem claims_handed {doc : Document} {cursor : Nat} {cs : List (List NodeId)} {xs : List Nat}
    {x : NodeId} {s : Span} (h : List.Forall₂ (ClaimsSince doc cursor) cs xs) (hne : x ≠ rootId)
    (hx : doc.span? x = some s) (hstart : ∀ a ∈ xs, a ≤ s.start) (hstop : s.stop ≤ cursor) :
    List.Forall₂ (ClaimsSince doc cursor) (handed x cs) xs := by
  cases h with
  | nil => exact .nil
  | @cons c a _ _ hhead htail =>
    refine .cons (fun y hy => ?_) htail
    rcases List.mem_append.mp hy with hy | hy
    · exact hhead y hy
    · obtain rfl := List.mem_singleton.mp hy
      exact ⟨hne, s, hx, hstart a (List.mem_cons_self ..), hstop⟩

/-- A nonterminal that closes, whatever becomes of it. -/
theorem Sound.apply_close (h : Sound b d)
    (hm : d.move? b.options.attributeCursor e = some (.close f d')) :
    ∃ d'', Sound (b.apply e).state d'' ∧ ((b.apply e).outcome = .ok () → d'' = d'.attach f) ∧
      (b.apply e).state.options = b.options ∧
      Delivered b.options.balancing b.target (b.apply e).state.target
        (cutsOf (b.apply e).notices) ∧
      ((b.apply e).outcome ≠ .ok () → d'' = d') := by
  have hcloses := h.closes hm
  obtain ⟨g, outer, -, hframes, -, rfl, rfl⟩ := Draft.close_cases hm
  have hclaimsOf := h.claims
  rw [show starts d = g.element.span.start :: outer.map (·.element.span.start) by
    rw [starts, hframes]; rfl] at hclaimsOf
  have hstarts := starts_attach (g.endAt d.cursor) { d with frames := outer }
  have hcursor := cursor_attach (g.endAt d.cursor) { d with frames := outer }
  cases hcloses with
  | waits c b' hdef hd' hr hfol hagree hclaims =>
    rw [hclaims] at hclaimsOf
    obtain ⟨-, hrest⟩ := List.forall₂_cons.mp hclaimsOf
    rw [hr]
    refine ⟨_, h.leaves hframes hfol (hagree.target ▸ h.wellFormed) hstarts hcursor ?_,
      fun _ => rfl, hagree.options, ?_, fun hne => absurd rfl hne⟩
    · show List.Forall₂ (ClaimsSince b'.target d.cursor) b'.claims _
      rw [hagree.target]
      exact hrest
    · rw [show (Response.accept b' []).state.target = b.target from hagree.target]
      exact .nothing
  | root hdef hd' hd =>
    obtain rfl : outer = [] := hd'
    cases hres : b.target.merge ⟨(g.endAt d.cursor).element, (g.endAt d.cursor).kids⟩
        b.options.balancing with
    | error conflict =>
      rw [hres] at hd
      obtain ⟨hout, hfol, hclaims, -, -⟩ := hd.refused conflict rfl
      have hsame : (b.apply e).state.target = b.target := hd.target
      refine ⟨_, h.leaves hframes hfol (hsame ▸ h.wellFormed) rfl rfl ?_,
        fun hok => ?_, hd.options, ?_, fun _ => rfl⟩
      · rw [hclaims]
        exact .nil
      · cases hout.symm.trans hok
      · rw [hsame, hd.cuts]
        exact .nothing
    | ok a =>
      rw [hres] at hd
      obtain ⟨hout, hfol, hclaims, -, -⟩ := hd.accepted a.id rfl
      have hsame : (b.apply e).state.target = a.document := hd.target
      refine ⟨_, h.leaves hframes hfol (hsame ▸ h.wellFormed.merge hres) hstarts hcursor ?_,
        fun _ => rfl, hd.options, ?_, fun hne => absurd hout hne⟩
      · rw [hclaims]
        exact .nil
      · rw [hsame, hd.cuts]
        exact .tree _ a hres
  | node c cs hinc hclaims hwithin hd =>
    rw [hclaims] at hclaimsOf
    obtain ⟨-, hrest⟩ := List.forall₂_cons.mp hclaimsOf
    cases hres : b.target.insert (g.endAt d.cursor).element c b.options.balancing with
    | error conflict =>
      rw [hres] at hd
      obtain ⟨hout, hfol, hclaims', -, -⟩ := hd.refused conflict rfl
      have hsame : (b.apply e).state.target = b.target := hd.target
      refine ⟨_, h.leaves hframes hfol (hsame ▸ h.wellFormed) rfl rfl ?_, fun hok => ?_, hd.options,
        ?_, fun _ => rfl⟩
      · rw [hclaims', hsame]
        exact hrest
      · cases hout.symm.trans hok
      · rw [hsame, hd.cuts]
        exact .nothing
    | ok a =>
      rw [hres] at hd
      obtain ⟨hout, hfol, hclaims', -, -⟩ := hd.accepted a.id rfl
      have hsame : (b.apply e).state.target = a.document := hd.target
      obtain ⟨hold, hne, hnew⟩ := h.wellFormed.insert_span? hwithin hres
      have hinner : ∀ x ∈ outer.map (·.element.span.start), x ≤ g.element.span.start := by
        have hnested := h.nested
        rw [starts, hframes] at hnested
        exact (List.pairwise_cons.mp hnested).1
      refine ⟨_, h.leaves hframes hfol (hsame ▸ h.wellFormed.insert hwithin hres) hstarts hcursor
        ?_, fun _ => rfl, hd.options, ?_, fun hne => absurd hout hne⟩
      · rw [hclaims', hsame]
        exact claims_handed (hrest.imp fun _ _ hc => hc.mono (Nat.le_refl _) hold) hne hnew hinner
          (Nat.le_refl _)
      · rw [hsame, hd.cuts]
        exact .node _ c a hwithin hres

theorem cutsOf_traced (b : Builder Document) (e : Event) : cutsOf (b.traced e) = [] := by
  rw [traced]
  split <;> rfl

/-- Every event keeps the invariant, and its effect on the document is at most one delivery. -/
theorem Sound.handle (h : Sound b d) (e : Event) :
    ∃ d', Sound (b.handle e).state d' ∧ (b.handle e).state.options = b.options ∧
      Delivered b.options.balancing b.target (b.handle e).state.target
        (cutsOf (b.handle e).notices) := by
  have hcuts : cutsOf (b.handle e).notices = cutsOf (b.apply e).notices := by
    rw [Builder.handle, Response.withNotices, cutsOf_append, cutsOf_traced]
    rfl
  rw [hcuts]
  cases hm : d.move? b.options.attributeCursor e with
  | none => exact ⟨d, h.refused hm⟩
  | some mv =>
    cases mv with
    | start d' => exact ⟨d', h.apply_start hm⟩
    | stay d' => exact ⟨d', h.apply_stay hm⟩
    | close f d' =>
      obtain ⟨d'', hsound, -, hoptions, heffect, -⟩ := h.apply_close hm
      exact ⟨d'', hsound, hoptions, heffect⟩

/-- A run keeps the document well formed, and its text. -/
theorem wellFormed_run {doc : Document} (h : doc.WellFormed) (options : Options) (resume : Bool)
    (events : List Event) :
    (run resume ({ target := doc, options := options } : Builder Document)
        events).1.target.WellFormed ∧
      (run resume ({ target := doc, options := options } : Builder Document)
        events).1.target.text = doc.text := by
  obtain ⟨d, hd, htext⟩ := run_induction
    (R := fun _ b => ∃ d, Sound b d ∧ b.target.text = doc.text)
    (fun _ b e ⟨d, hd, htext⟩ => by
      obtain ⟨d', hd', -, hdel⟩ := hd.handle e
      exact ⟨d', hd', hdel.text.trans htext⟩) resume
    { target := doc, options := options } events ⟨{}, sound_start h options, rfl⟩
  exact ⟨hd.wellFormed, htext⟩

end Builder

end Standoff
