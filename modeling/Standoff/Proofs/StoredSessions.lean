import Standoff.Proofs.Checks
import Standoff.Proofs.Sessions
import Standoff.Proofs.Stored

/-!
# Sessions over links

A whole session can be carried out over a stored document, the runs of builders included.  Nothing
that a builder does depends on how its target keeps what it is given, so a builder over a stored
document goes along with one over the document:

    b accepts e ↔ c accepts e,   claims of b = claims of c,   stored (target of b) = target of c

No loop of a session runs out of fuel, and the links that the session leaves describe one tree.

* `Stored.perform`: a stored document as the target of a builder.
* `Builder.run_related`: two builders that accept the same events.
* `Builder.Shadows`, `Builder.Shadows.step`: a builder over a document and one over its arena.
* `Session.relink`: a session over links.
* `Session.relink_stored`: it ends in the arena of the document.
* `Session.well_formed`: what a session leaves, in the slots and in the document.
-/

namespace Standoff

/-! ## Stored documents as targets -/

namespace Stored

/-- Changes a stored document, if there is one.  Where there is none every change is refused. -/
def perform (w : Option Stored) (change : Relinking NodeId) : Delivery (Option Stored) :=
  match w.bind change.run.run with
  | some r => { target := some r.2, outcome := r.1 }
  | none => { target := none, outcome := .error ⟨"", ⟨0, 0⟩, .inverted⟩ }

instance : MergeTarget (Option Stored) where
  merge w t balancing := perform w (Relinking.merge t balancing)
  insert w e claimed balancing := perform w (Relinking.insert e claimed balancing)

/-- A delivery to a stored document comes to what the delivery to the document comes to. -/
structure Like (D : Delivery (Option Stored)) (D' : Delivery Document) : Prop where
  target : D.target = some D'.target.stored
  outcome : D.outcome = D'.outcome

theorem like_of_traces {doc : Document} {link : Relinking NodeId} {change : InPlace NodeId}
    (h : Relinking.Traces link change { document := doc }) :
    Like (perform (some doc.stored) link) (doc.perform change) := by
  have hlink : (some doc.stored).bind link.run.run = _ := h.run
  rw [perform, hlink]
  exact ⟨rfl, rfl⟩

variable {doc : Document} (h : doc.WellFormed)
include h

theorem like_addSpan (name : String) (span : Span) :
    Like (perform (some doc.stored) (Relinking.addSpan name span))
      (doc.deliver (doc.addSpan name span)) := by
  rw [Document.addSpan_inPlace]
  exact like_of_traces (h.traces_addSpan name span)

theorem like_insert {e : Element} {claimed : List NodeId}
    (hclaims : doc.ClaimsWithin claimed e.span) (balancing : Balancing) :
    Like (MergeTarget.insert (some doc.stored) e claimed balancing)
      (doc.deliver (doc.insert e claimed balancing)) := by
  rw [Document.insert_inPlace]
  exact like_of_traces (h.traces_insert hclaims balancing)

theorem like_merge (t : Tree Element) (balancing : Balancing) :
    Like (MergeTarget.merge (some doc.stored) t balancing)
      (doc.deliver (doc.merge t balancing)) := by
  rw [← h.merge_inPlace]
  exact like_of_traces (h.traces_merge t balancing)

end Stored

/-! ## Two builders that accept the same events -/

theorem drive_state {σ : Type} (handler : Handler σ) (state : σ) (e : Event)
    (events : List Event) : (drive handler state (e :: events)).state =
      if (handler state e).outcome.isOk then (drive handler (handler state e).state events).state
      else (handler state e).state := by
  rw [drive]
  cases (handler state e).outcome <;> rfl

namespace Builder

section Related

variable {σ ρ : Type} [MergeTarget σ] [MergeTarget ρ]

/-- Builders that accept the same events, and stay related then, are related at the end of a run. -/
theorem run_related {R : Builder σ → Builder ρ → Prop}
    (step : ∀ b c e, R b c → (b.handle e).outcome.isOk = (c.handle e).outcome.isOk ∧
      R (b.handle e).state (c.handle e).state)
    (resume : Bool) {b : Builder σ} {c : Builder ρ} (events : List Event) (h : R b c) :
    R (run resume b events).1 (run resume c events).1 := by
  cases resume with
  | true =>
    show R (pursue handle b events).1 (pursue handle c events).1
    induction events generalizing b c with
    | nil => exact h
    | cons e events ih => exact ih (step b c e h).2
  | false =>
    show R (drive handle b events).state (drive handle c events).state
    induction events generalizing b c with
    | nil => exact h
    | cons e events ih =>
      obtain ⟨hok, hnext⟩ := step b c e h
      rw [drive_state, drive_state, ← hok]
      split
      · exact ih hnext
      · exact hnext

end Related

/-! ## A builder over a document, and one over its arena -/

variable {b b' : Builder Document} {c c' : Builder (Option Stored)} {d d' : Draft} {f : Frame}
  {e : Event} {D : Delivery Document} {D' : Delivery (Option Stored)} {count : Nat}
  {cs : List (List NodeId)}

/-- The builder over the arena has done what the one over the document has done. -/
structure Shadows (b : Builder Document) (c : Builder (Option Stored)) (d : Draft) : Prop where
  sound : Sound b d
  follows : c.Follows d
  target : c.target = some b.target.stored
  claims : c.claims = b.claims
  options : c.options = b.options

theorem shadows_start {doc : Document} (h : doc.WellFormed) (options : Options) :
    Shadows (start doc options) (start (some doc.stored) options) {} :=
  ⟨sound_start h options, follows_start _ options, rfl, rfl, rfl⟩

/-- Both take the event, and nothing is delivered. -/
theorem Shadows.accepted (h : Shadows b c d) (hb : b.apply e = .accept b' [])
    (hc : c.apply e = .accept c' []) (hsound : Sound (b.apply e).state d') (hfol : c'.Follows d')
    (hagree : b.Agrees b') (hagree' : c.Agrees c') (hclaims : c'.claims = b'.claims) :
    (b.apply e).outcome.isOk = (c.apply e).outcome.isOk ∧
      ∃ d', Shadows (b.apply e).state (c.apply e).state d' := by
  rw [hb] at hsound ⊢
  rw [hc]
  refine ⟨rfl, d', hsound, hfol, ?_, hclaims, ?_⟩
  · show c'.target = some b'.target.stored
    rw [hagree'.target, hagree.target, h.target]
  · show c'.options = b'.options
    rw [hagree'.options, hagree.options, h.options]

/-- Both deliver the same. -/
theorem Shadows.delivers (h : Shadows b c d) (hb : b.Delivers D f d' count cs (b.apply e))
    (hc : c.Delivers D' f d' count cs (c.apply e)) (hlike : Stored.Like D' D)
    (hsound : ∃ d'', Sound (b.apply e).state d'' ∧
      ((b.apply e).outcome = .ok () → d'' = d'.attach f) ∧
      ((b.apply e).outcome ≠ .ok () → d'' = d')) :
    (b.apply e).outcome.isOk = (c.apply e).outcome.isOk ∧
      ∃ d', Shadows (b.apply e).state (c.apply e).state d' := by
  obtain ⟨d'', hsound, haccepted, hrefused⟩ := hsound
  have htarget : (c.apply e).state.target = some (b.apply e).state.target.stored := by
    rw [hc.target, hb.target, hlike.target]
  have hoptions : (c.apply e).state.options = (b.apply e).state.options := by
    rw [hc.options, hb.options, h.options]
  cases hout : D.outcome with
  | ok host =>
    obtain ⟨hok, -, hclaims, -⟩ := hb.accepted host hout
    obtain ⟨hok', hfol', hclaims', -⟩ := hc.accepted host (hlike.outcome.trans hout)
    refine ⟨by rw [hok, hok'], d'', hsound, ?_, htarget, by rw [hclaims, hclaims'], hoptions⟩
    rw [haccepted hok]
    exact hfol'
  | error conflict =>
    obtain ⟨hno, -, hclaims, -⟩ := hb.refused conflict hout
    obtain ⟨hno', hfol', hclaims', -⟩ := hc.refused conflict (hlike.outcome.trans hout)
    refine ⟨by rw [hno, hno'], d'', hsound, ?_, htarget, by rw [hclaims, hclaims'], hoptions⟩
    rw [hrefused (by rw [hno]; exact nofun)]
    exact hfol'

/-- An event closes a nonterminal of both. -/
theorem Shadows.closes (h : Shadows b c d)
    (hm : d.move? b.options.attributeCursor e = some (.close f d')) :
    (b.apply e).outcome.isOk = (c.apply e).outcome.isOk ∧
      ∃ d', Shadows (b.apply e).state (c.apply e).state d' := by
  have hm' : d.move? c.options.attributeCursor e = some (.close f d') := h.options ▸ hm
  have hmerge : c.options.merge = b.options.merge := by rw [h.options]
  have hbalancing : c.options.balancing = b.options.balancing := by rw [h.options]
  obtain ⟨d'', hsound, haccepted, -, -, hrefused⟩ := h.sound.apply_close hm
  cases h.sound.closes hm with
  | waits _ b' hdef hd' hr _ hagree hclaims =>
    obtain ⟨c', _, hr', hfol', hagree', hclaims'⟩ :=
      apply_close_waits h.follows (hmerge.trans hdef) hm' hd'
    rw [haccepted (by rw [hr]; rfl)] at hsound
    refine h.accepted hr hr' hsound hfol' hagree hagree' ?_
    rw [h.claims, hclaims] at hclaims'
    exact (List.cons.inj hclaims').2.symm
  | root hdef hd' hb =>
    have hc := apply_close_root h.follows (hmerge.trans hdef) hm' hd'
    rw [h.target, hbalancing] at hc
    exact h.delivers hb hc (Stored.like_merge h.sound.wellFormed _ _)
      ⟨d'', hsound, haccepted, hrefused⟩
  | node claimed cs hinc hclaims hwithin hb =>
    obtain ⟨claimed', cs', hclaims', hc⟩ := apply_close_inserts h.follows (hmerge.trans hinc) hm'
    rw [h.claims, hclaims] at hclaims'
    obtain ⟨rfl, rfl⟩ := List.cons.inj hclaims'
    rw [h.target, hbalancing] at hc
    exact h.delivers hb hc (Stored.like_insert h.sound.wellFormed hwithin _)
      ⟨d'', hsound, haccepted, hrefused⟩

/-- Every event is accepted by both or by none, and they go on together. -/
theorem Shadows.step (h : Shadows b c d) (e : Event) :
    (b.handle e).outcome.isOk = (c.handle e).outcome.isOk ∧
      ∃ d', Shadows (b.handle e).state (c.handle e).state d' := by
  show (b.apply e).outcome.isOk = (c.apply e).outcome.isOk ∧
    ∃ d', Shadows (b.apply e).state (c.apply e).state d'
  have hrule : c.options.attributeCursor = b.options.attributeCursor := by rw [h.options]
  cases hm : d.move? b.options.attributeCursor e with
  | none =>
    obtain ⟨error, hb⟩ := apply_refused h.sound.follows hm
    obtain ⟨error', hc⟩ := apply_refused h.follows (hrule ▸ hm)
    rw [hb, hc]
    exact ⟨rfl, d, h⟩
  | some mv =>
    cases mv with
    | start d' =>
      obtain ⟨b', hb, -, hagree, hclaims⟩ := apply_start h.sound.follows hm
      obtain ⟨c', hc, hfol', hagree', hclaims'⟩ := apply_start h.follows (hrule ▸ hm)
      exact h.accepted hb hc (h.sound.apply_start hm).1 hfol' hagree hagree'
        (by rw [hclaims, hclaims', h.claims])
    | stay d' =>
      obtain ⟨b', hb, -, hagree, hclaims⟩ := apply_stay h.sound.follows hm
      obtain ⟨c', hc, hfol', hagree', hclaims'⟩ := apply_stay h.follows (hrule ▸ hm)
      exact h.accepted hb hc (h.sound.apply_stay hm).1 hfol' hagree hagree'
        (by rw [hclaims, hclaims', h.claims])
    | close f d' => exact h.closes hm

/-- A run over an arena ends in the arena of the run over the document. -/
theorem target_stored {doc : Document} (h : doc.WellFormed) (options : Options) (resume : Bool)
    (events : List Event) :
    (run resume (start (some doc.stored) options) events).1.target =
      some (run resume (start doc options) events).1.target.stored := by
  obtain ⟨d, hd⟩ := run_related (R := fun b c => ∃ d, Shadows b c d)
    (fun _ _ e ⟨_, hd⟩ => hd.step e) resume events ⟨_, shadows_start h options⟩
  exact hd.target

end Builder

/-! ## Sessions -/

/-- The operation over links. -/
def Operation.relink (w : Option Stored) : Operation → Option Stored
  | addSpan name span => (Stored.perform w (Relinking.addSpan name span)).target
  | setAttribute id key value => w.map (·.setAttribute id key value)
  | merge t balancing => (MergeTarget.merge w t balancing).target
  | insert e claimed balancing => (MergeTarget.insert w e claimed balancing).target
  | build options resume events =>
    (Builder.run resume { target := w, options := options } events).1.target

theorem Operation.settle_eq (doc : Document) (attempt : Except MergeConflict Addition) :
    settle doc attempt = (doc.deliver attempt).target := by
  cases attempt <;> rfl

/-- An operation over links leaves the arena of the document that it leaves. -/
theorem Operation.relink_stored {doc : Document} (h : doc.WellFormed) {op : Operation}
    (hop : op.Admissible doc) : op.relink (some doc.stored) = some (op.apply doc).stored := by
  cases op with
  | addSpan name span =>
    rw [apply, settle_eq]
    exact (Stored.like_addSpan h name span).target
  | setAttribute id key value => exact congrArg some (h.setAttribute_stored id key value)
  | merge t balancing =>
    rw [apply, settle_eq]
    exact (Stored.like_merge h t balancing).target
  | insert e claimed balancing =>
    rw [apply, settle_eq]
    exact (Stored.like_insert h hop balancing).target
  | build options resume events => exact Builder.target_stored h options resume events

namespace Session

open Document

/-- A session over links. -/
def relink (w : Option Stored) (ops : List Operation) : Option Stored :=
  ops.foldl Operation.relink w

/-- A session over links ends in the arena of the document at the end of the session. -/
theorem relink_stored {doc : Document} (h : doc.WellFormed) {ops : List Operation}
    (hops : Admissible doc ops) : relink (some doc.stored) ops = some (apply doc ops).stored := by
  induction ops generalizing doc with
  | nil => rfl
  | cons op ops ih =>
    show relink (op.relink (some doc.stored)) ops = _
    rw [Operation.relink_stored h hops.1]
    exact ih (Operation.wellFormed_apply h hops.1) hops.2

theorem stored_ofText (text : String) : (Document.ofText text).stored = Stored.ofText text := rfl

/-- A session over a text, carried out along links, comes to its end: no loop runs out of fuel, and
no slot is free then.  The links in the slots describe one tree over the document node, in which
every slot stands once, and the slots show what the document shows.  Every element lies in the text
and in its parent, and ends before the next sibling starts; and the check finds no flaw. -/
theorem well_formed (text : String) (ops : List Operation)
    (h : Admissible (ofText text) ops) :
    let doc := apply (ofText text) ops
    ∃ a : Arena, relink (some (.ofText text)) ops = some ⟨text, a⟩ ∧ a.free = [] ∧
      (∃ shape : Forest NodeId,
        Describes (fun x => (a.slot? x).map (·.links)) rootId none shape ∧
        (a.slot? rootId).map (·.links) = some
          { firstChild := shape.labels.head?, lastChild := shape.labels.getLast? } ∧
        (rootId :: shape.preorder).Perm (List.range a.slotCount)) ∧
      (∀ x, a.view? x = doc.view? x) ∧ a.descendants rootId = doc.descendants rootId ∧
      doc.text = text ∧ doc.next = a.slotCount ∧
      (∀ x, (doc.view? x).isSome = true ↔ x < doc.next) ∧
      doc.elementCount = doc.next - 1 ∧
      (∀ x v, doc.view? x = some v → v.span.stop ≤ doc.text.length ∧
        Markup.WellPlaced doc.view? v) ∧
      doc.flaw? = none := by
  intro doc
  obtain ⟨hwf, htext⟩ : doc.WellFormed ∧ doc.text = text :=
    wellFormed_apply (wellFormed_ofText text) h
  have hrun : relink (some (ofText text).stored) ops = some doc.stored :=
    relink_stored (wellFormed_ofText text) h
  have hview : doc.arena.view? = doc.view? := funext hwf.view?_arena
  have hplanted : Planted doc.arena.view? rootId doc.markup.shape := hview ▸ hwf.rooted.planted
  -- the view of a slot has the links of the slot
  have hslot (x : NodeId) : (doc.arena.view? x).map (·.links) =
      (doc.arena.slot? x).map (·.links) := Option.map_map ..
  have hsize : doc.arena.slotCount = doc.next := size_arena doc
  refine ⟨doc.arena, ?_, rfl, ⟨doc.markup.shape, ?_, ?_, ?_⟩, hwf.view?_arena, ?_, htext,
    hsize.symm, fun x => hwf.view?_isSome, hwf.elementCount_eq, fun x v hv => hwf.wellPlaced hv,
    hwf.flaw?_eq_none⟩
  · rw [← stored_ofText, hrun, stored, htext]
  · rw [← funext hslot]
    exact hplanted.links
  · rw [← hslot]
    exact hplanted.ends
  · rw [Markup.shape_preorder, hsize]
    exact hwf.perm_range
  · rw [hplanted.descendants_eq, preorder_shape]

/-- A session with two crossing elements, a marker, an insertion that claims and cuts, a merge that
goes back, and a run that goes on after a refusal. -/
theorem well_formed_crossing :
    let ops : List Operation :=
      [.addSpan "a" ⟨0, 3⟩, .addSpan "m" ⟨3, 3⟩, .insert ⟨"b", ⟨1, 4⟩, {}⟩ [2] .inner,
        .merge ⟨⟨"p", ⟨0, 4⟩, {}⟩, .node ⟨"q", ⟨0, 2⟩, {}⟩ .nil .nil⟩ .strict,
        .build { merge := .incremental } true
          [.excluded 1, .startNonterminal "n", .endAttribute, .terminal 98, .endNonterminal "n"]]
    Session.Admissible (ofText "abcd") ops ∧
      ∃ a : Arena, relink (some (.ofText "abcd")) ops = some ⟨"abcd", a⟩ ∧ a.free = [] ∧
        (∃ shape : Forest NodeId,
          Describes (fun x => (a.slot? x).map (·.links)) rootId none shape ∧
          (rootId :: shape.preorder).Perm (List.range a.slotCount)) ∧
        (apply (ofText "abcd") ops).flaw? = none := by
  intro ops
  have h : Session.Admissible (ofText "abcd") ops := by decide +kernel
  obtain ⟨a, hrun, hfree, ⟨shape, hlinks, -, hperm⟩, -, -, -, -, -, -, -, hflaw⟩ :=
    well_formed "abcd" ops h
  exact ⟨h, a, hrun, hfree, ⟨shape, hlinks, hperm⟩, hflaw⟩

end Session

end Standoff
