import Standoff.Annotator
import Standoff.Proofs.Refusals

/-! # What an aborted run leaves

Where delivery is deferred, a document changes when a root closes and at no other event.  So a run
that is given up, for whatever reason, leaves what the events up to the last closed root leave:

    events  =  settled part  ++  events of a root that stayed open
    document after the events  =  document after the settled part

* `reached`, `Source.delivered`: the events that a run delivers before it is given up.
* `Builder.settled`: the events up to the last one that closes a root.
* `Builder.aborted`: the equation above for all kinds of runs. -/

namespace Standoff

/-! ## Events that a run delivers -/

section Delivered

variable {σ : Type} {handler : Handler σ} {state : σ} {events rest : List Event}

/-- The events up to the first one that is refused, this one included. -/
def reached (handler : Handler σ) : σ → List Event → List Event
  | _, [] => []
  | state, e :: rest =>
    match (handler state e).outcome with
    | .ok () => e :: reached handler (handler state e).state rest
    | .error _ => [e]

/-- The events that items deliver. -/
def Source.delivered (lenient : Bool) (handler : Handler σ) : List Source.Item → σ → List Event
  | [], _ => []
  | .fail _ _ :: _, _ => []
  | .events group :: rest, state =>
    reached handler state group ++
      if (drive handler state group).outcome.isOk || lenient then
        Source.delivered lenient handler rest (drive handler state group).state
      else []

theorem reached_cons_ok {e : Event} (h : (handler state e).outcome = .ok ()) :
    reached handler state (e :: events) = e :: reached handler (handler state e).state events := by
  rw [reached, h]

theorem reached_cons_error {e : Event} {error : AnnotateError}
    (h : (handler state e).outcome = .error error) : reached handler state (e :: events) = [e] := by
  rw [reached, h]

theorem drive_cons_error {e : Event} {error : AnnotateError}
    (h : (handler state e).outcome = .error error) :
    drive handler state (e :: events) = handler state e := by
  rw [drive]
  simp only [h]

theorem reached_initial (handler : Handler σ) (state : σ) (events : List Event) :
    reached handler state events <+: events := by
  induction events generalizing state with
  | nil => exact List.prefix_refl _
  | cons e events ih =>
    cases hout : (handler state e).outcome with
    | ok _ =>
      rw [reached_cons_ok hout]
      exact List.cons_prefix_cons.mpr ⟨rfl, ih _⟩
    | error error =>
      rw [reached_cons_error hout]
      exact ⟨events, rfl⟩

/-- A run that stops at a refusal is one that goes on over the events up to it. -/
theorem pursue_reached (handler : Handler σ) (state : σ) (events : List Event) :
    (pursue handler state (reached handler state events)).1 =
      (drive handler state events).state := by
  induction events generalizing state with
  | nil => rfl
  | cons e events ih =>
    cases hout : (handler state e).outcome with
    | ok _ =>
      rw [reached_cons_ok hout, (drive_cons hout events).2]
      exact ih _
    | error error =>
      rw [reached_cons_error hout, drive_cons_error hout]
      rfl

/-- All events are reached if none is refused. -/
theorem reached_of_ok (h : (drive handler state events).outcome = .ok ()) :
    reached handler state events = events := by
  induction events generalizing state with
  | nil => rfl
  | cons e events ih =>
    have hhead := drive_head h
    rw [(drive_cons hhead events).1] at h
    rw [reached_cons_ok hhead, ih h]

theorem reached_reached (handler : Handler σ) (state : σ) (events : List Event) :
    reached handler state (reached handler state events) = reached handler state events := by
  induction events generalizing state with
  | nil => rfl
  | cons e events ih =>
    cases hout : (handler state e).outcome with
    | ok _ => rw [reached_cons_ok hout, reached_cons_ok hout, ih]
    | error error => rw [reached_cons_error hout, reached_cons_error hout]

theorem reached_append (h : (drive handler state events).outcome = .ok ()) (rest : List Event) :
    reached handler state (events ++ rest) =
      events ++ reached handler (drive handler state events).state rest := by
  induction events generalizing state with
  | nil => rfl
  | cons e events ih =>
    have hhead := drive_head h
    rw [(drive_cons hhead events).1] at h
    rw [List.cons_append, reached_cons_ok hhead, ih h, (drive_cons hhead events).2,
      List.cons_append]

/-- A source run is one that goes on over the events that it delivers. -/
theorem pursue_delivered (lenient : Bool) (handler : Handler σ) (items : List Source.Item)
    (state : σ) :
    (pursue handler state (Source.delivered lenient handler items state)).1 =
      (Source.emitItems lenient handler items state).state := by
  induction items generalizing state with
  | nil => rfl
  | cons item items ih =>
    cases item with
    | fail reason cursor => rfl
    | events group =>
      rw [Source.delivered, emitItems_events, pursue_append, pursue_reached]
      split
      · exact ih _
      · rfl

/-- Of the events that a strict source delivers only the last one may have been refused. -/
theorem reached_delivered (handler : Handler σ) (items : List Source.Item) (state : σ) :
    reached handler state (Source.delivered false handler items state) =
      Source.delivered false handler items state := by
  induction items generalizing state with
  | nil => rfl
  | cons item items ih =>
    cases item with
    | fail reason cursor => rfl
    | events group =>
      rw [Source.delivered, Bool.or_false]
      cases hout : (drive handler state group).outcome with
      | ok _ =>
        rw [reached_of_ok hout]
        simp only [Except.isOk, Except.toBool, if_true]
        rw [reached_append hout, ih]
      | error error =>
        simp only [Except.isOk, Except.toBool, Bool.false_eq_true, if_false, List.append_nil]
        exact reached_reached handler state group

end Delivered

/-! ## Events that close a root -/

namespace Builder

open MergeTarget

variable {τ : Type} [MergeTarget τ] {b : Builder τ} {d : Draft} {e : Event} {events : List Event}

/-- The event is the end of a nonterminal and accepted, and no nonterminal is open after it. -/
def closesRoot (b : Builder τ) (e : Event) : Bool :=
  e.kind == .endNonterminal && (b.handle e).outcome.isOk && (b.handle e).state.stack.isEmpty

/-- The events up to the last one that closes a root. -/
def settled : Builder τ → List Event → List Event
  | _, [] => []
  | b, e :: rest =>
    if (settled (b.handle e).state rest).isEmpty && !b.closesRoot e then []
    else e :: settled (b.handle e).state rest

theorem settled_cases (b : Builder τ) (e : Event) (rest : List Event) :
    (b.settled (e :: rest) = [] ∧ settled (b.handle e).state rest = [] ∧
        b.closesRoot e = false) ∨
      b.settled (e :: rest) = e :: settled (b.handle e).state rest ∧
        (settled (b.handle e).state rest ≠ [] ∨ b.closesRoot e = true) := by
  rw [settled]
  cases hroot : b.closesRoot e with
  | true => exact .inr ⟨by rw [Bool.not_true, Bool.and_false]; rfl, .inr rfl⟩
  | false =>
    cases hrest : settled (b.handle e).state rest with
    | nil => exact .inl ⟨rfl, rfl, rfl⟩
    | cons e' rest' => exact .inr ⟨rfl, .inl (List.cons_ne_nil _ _)⟩

theorem settled_initial (b : Builder τ) (events : List Event) : b.settled events <+: events := by
  induction events generalizing b with
  | nil => exact List.prefix_refl _
  | cons e events ih =>
    rcases settled_cases b e events with ⟨hnil, -⟩ | ⟨hcons, -⟩
    · rw [hnil]
      exact List.nil_prefix
    · rw [hcons]
      exact List.cons_prefix_cons.mpr ⟨rfl, ih _⟩

theorem closesRoot_stack (h : b.closesRoot e = true) : (b.handle e).state.stack = [] := by
  rw [closesRoot, Bool.and_eq_true] at h
  exact List.isEmpty_iff.mp h.2

/-- No nonterminal is open after the settled part of a stream. -/
theorem stack_settled (h : b.settled events ≠ [] ∨ b.stack = []) :
    (pursue handle b (b.settled events)).1.stack = [] := by
  induction events generalizing b with
  | nil => exact h.resolve_left fun hne => hne rfl
  | cons e events ih =>
    rcases settled_cases b e events with ⟨hnil, -⟩ | ⟨hcons, hlast⟩
    · rw [hnil]
      exact h.resolve_left fun hne => hne hnil
    · rw [hcons]
      exact ih (hlast.imp_right closesRoot_stack)

/-- The settled part of a stream in which only the last event may be refused is accepted. -/
theorem drive_settled (h : reached handle b events = events) :
    (drive handle b (b.settled events)).outcome = .ok () := by
  induction events generalizing b with
  | nil => rfl
  | cons e events ih =>
    rcases settled_cases b e events with ⟨hnil, -⟩ | ⟨hcons, hlast⟩
    · rw [hnil]
      rfl
    · rw [hcons]
      cases hout : (b.handle e).outcome with
      | ok _ =>
        rw [reached_cons_ok hout] at h
        rw [(drive_cons hout _).1]
        exact ih (List.cons.inj h).2
      | error error =>
        -- a refused event closes no root, and it is the last one
        rw [reached_cons_error hout] at h
        obtain rfl : events = [] := (List.cons.inj h).2.symm
        rcases hlast with hne | hroot
        · exact absurd rfl hne
        · rw [closesRoot, hout, Except.isOk, Except.toBool, Bool.and_false,
            Bool.false_and] at hroot
          cases hroot

/-- Deferred: only an event that closes a root changes the target. -/
theorem target_of_not_closesRoot (h : b.Follows d) (hdef : b.options.merge = .deferred)
    (hsteady : Steady b.target) (hroot : b.closesRoot e = false) :
    (b.handle e).state.target = b.target := by
  show (b.apply e).state.target = b.target
  cases h.takes e with
  | refused error hs hr => rw [hr]; rfl
  | quiet d' b' hs hr hfol hagree =>
    rw [hr]
    exact hagree.target
  | node f d' c cs hm hinc => exact absurd (hdef.symm.trans hinc) (by decide)
  | root f d' hm _ hd' hd =>
    cases hout : (MergeTarget.merge b.target ⟨f.element, f.kids⟩ b.options.balancing).outcome with
    | error conflict => exact hd.target.trans (hsteady.merge _ _ conflict hout)
    | ok host =>
      obtain ⟨hok, hfol, -⟩ := hd.accepted host hout
      obtain ⟨g, outer, rfl, -⟩ := Draft.close_cases hm
      have hstack : (b.apply (.endNonterminal g.element.name)).state.stack = [] := by
        rw [hfol.stack_nil_iff, Draft.attach_of_nil hd']
        exact hd'
      have htrue : b.closesRoot (.endNonterminal g.element.name) = true := by
        show ((_ && (b.apply _).outcome.isOk) && (b.apply _).state.stack.isEmpty) = true
        rw [hok, hstack]
        rfl
      exact absurd (htrue.symm.trans hroot) (by decide)

/-- Deferred: the target is what the settled part of the stream has made of it. -/
theorem target_settled (hsteady : ∀ target : τ, Steady target) (h : b.Follows d)
    (hdef : b.options.merge = .deferred) (events : List Event) :
    (pursue handle b (b.settled events)).1.target = (pursue handle b events).1.target := by
  induction events generalizing b d with
  | nil => rfl
  | cons e events ih =>
    obtain ⟨hfol, hoptions⟩ := h.handle e
    have hrest := ih hfol (by rw [hoptions]; exact hdef)
    rcases settled_cases b e events with ⟨hnil, hnil', hroot⟩ | ⟨hcons, -⟩
    · rw [hnil'] at hrest
      rw [hnil]
      exact (target_of_not_closesRoot h hdef (hsteady _) hroot).symm.trans hrest
    · rw [hcons]
      exact hrest

/-- Deferred: a run over the settled part of a stream in which only the last event may be refused is
complete. -/
theorem complete_settled (hsteady : ∀ target : τ, Steady target) (h : b.Follows d)
    (hdef : b.options.merge = .deferred) (hstack : b.stack = [])
    (hreached : reached handle b events = events) :
    ∃ report, b.complete (b.settled events) = .ok (report, (pursue handle b events).1.target) := by
  have hok := drive_settled hreached
  have hstate : (drive handle b (b.settled events)).state =
      (pursue handle b (b.settled events)).1 := by
    rw [← pursue_reached, reached_of_ok hok]
  have hlast : (pursue handle b (b.settled events)).1.stack = [] := stack_settled (.inr hstack)
  have hfol := (h.pursue (b.settled events)).1
  have hscopes : (pursue handle b (b.settled events)).1.scopes = [] := by
    by_contra hne
    exact hfol.nested hne hlast
  refine ⟨(pursue handle b (b.settled events)).1.report, complete_iff.mpr ⟨hok, ?_, ?_⟩⟩
  · rw [hstate]
    exact (finish_iff hfol).mpr
      ⟨⟨hfol.stack_nil_iff.mp hlast, hfol.scopes.symm.trans hscopes⟩, rfl⟩
  · rw [hstate]
    exact (target_settled hsteady h hdef events).symm

end Builder

/-! ## Runs over a document -/

theorem Annotator.run_document (a : Annotator) (input : String) (doc : Document) :
    (a.run input doc).document =
      (a.source.emit Builder.handle input (Builder.start doc a.options)).state.target := by
  unfold run
  dsimp only
  split
  · split <;> rfl
  · split <;> rfl

/-- What a failing source means to the caller does not matter to the document. -/
theorem Annotator.document_failOnError (a : Annotator) (input : String) (doc : Document)
    (on : Bool) :
    (Annotator.run { a with options := { a.options with failOnError := on } } input doc).document =
      (a.run input doc).document := by
  rw [run_document, run_document]
  have hstep (b : Builder Document) (e : Event) : Builder.handle (b.recast id on) e =
      (Builder.handle b e).map (Builder.recast id on) :=
    Builder.handle_recast (MergeTarget.maps_id b.target) e
  have hmap := emitItems_map hstep a.source.lenient (a.source.items input)
    (Builder.start doc a.options)
  exact congrArg (fun r => r.state.target) hmap

namespace Builder

/-- Where delivery is deferred, a document and one that is changed in place change only when a root
closes.  So every run leaves the document as the events up to the last closed root leave it, after
which nothing is open: a run that goes on after refusals; one that is given up at the first refusal
or before all is closed, where those events make a complete run; and the run of an annotator,
whether its source is strict or lenient, fails by itself, and is allowed to or not. -/
theorem aborted {host : Document} (h : host.WellFormed) {options : Options}
    (hdef : options.merge = .deferred) :
    let b₀ := start host options
    (∀ events,
      let b := (pursue handle b₀ events).1
      let live := (pursue handle (start (Live.mk host) options) events).1
      let last := (pursue handle b₀ (b₀.settled events)).1
      (∀ e, (b.handle e).state.target ≠ b.target → b.closesRoot e = true) ∧
        (∀ e, (live.handle e).state.target ≠ live.target → live.closesRoot e = true) ∧
        b₀.settled events <+: events ∧ last.stack = [] ∧ last.scopes = [] ∧
        last.target = b.target ∧ live.target = ⟨b.target⟩) ∧
    (∀ events,
      let doc := (drive handle b₀ events).state.target
      reached handle b₀ events <+: events ∧
        ∃ report, b₀.complete (b₀.settled (reached handle b₀ events)) = .ok (report, doc)) ∧
    ∀ source : Source,
      let events := Source.delivered source.lenient handle (source.items host.text) b₀
      let doc := (Annotator.annotateInto ⟨source, options⟩ host).document
      (pursue handle b₀ (b₀.settled events)).1.target = doc ∧
        (source.lenient = false →
          ∃ report, b₀.complete (b₀.settled events) = .ok (report, doc)) ∧
        ∀ on, (Annotator.annotateInto ⟨source, { options with failOnError := on }⟩ host).document =
          doc := by
  intro b₀
  have hstart : b₀.Follows {} := follows_start host options
  refine ⟨fun events => ?_, fun events => ?_, fun source => ?_⟩
  · intro b live last
    obtain ⟨hfol, hoptions⟩ := hstart.pursue events
    obtain ⟨hlive, hliveOptions⟩ := (follows_start (Live.mk host) options).pursue events
    obtain ⟨hrecast, hwf⟩ := Live.pursue_eq h options events
    have hlast : last.stack = [] := stack_settled (.inr rfl)
    have hlastFol := (hstart.pursue (b₀.settled events)).1
    refine ⟨fun e hne => ?_, fun e hne => ?_, settled_initial _ _, hlast, ?_,
      target_settled Document.steady hstart hdef events, ?_⟩
    · by_contra hno
      exact hne (target_of_not_closesRoot hfol (hoptions ▸ hdef) (Document.steady _)
        (Bool.not_eq_true _ ▸ hno))
    · by_contra hno
      exact hne (target_of_not_closesRoot hlive (hliveOptions ▸ hdef) (Live.steady hwf)
        (Bool.not_eq_true _ ▸ hno))
    · by_contra hne
      exact hlastFol.nested hne hlast
    · have htarget : b.target = live.target.document :=
        congrArg (fun r : Builder Document × List Notice => r.1.target) hrecast
      rw [htarget]
  · intro doc
    refine ⟨reached_initial _ _ _, ?_⟩
    obtain ⟨report, hok⟩ := complete_settled Document.steady hstart hdef rfl
      (reached_reached handle b₀ events)
    rw [pursue_reached] at hok
    exact ⟨report, hok⟩
  · intro events doc
    have hdoc : (pursue handle b₀ events).1.target = doc := by
      rw [pursue_delivered]
      exact (Annotator.run_document ⟨source, options⟩ host.text host).symm
    refine ⟨(target_settled Document.steady hstart hdef events).trans hdoc, fun hstrict => ?_,
      fun on => Annotator.document_failOnError ⟨source, options⟩ host.text host on⟩
    rw [← hdoc]
    refine complete_settled Document.steady hstart hdef rfl ?_
    show reached handle b₀ (Source.delivered source.lenient handle _ b₀) =
      Source.delivered source.lenient handle _ b₀
    rw [hstrict]
    exact reached_delivered handle _ b₀

/-- A root that closes, one that is refused for a node deep in it, and one that stays open: of the
run that is given up, and of a lenient source that fails at its end, only the first root is left. -/
theorem aborted_crossing :
    let host := Session.apply (Document.ofText "abcd") [.addSpan "a" ⟨0, 3⟩]
    let options : Options := { balancing := .strict }
    let events : List Event := [.startNonterminal "p", .endNonterminal "p", .startNonterminal "q",
      .excluded 2, .startNonterminal "r", .excluded 2, .endNonterminal "r", .endNonterminal "q",
      .startNonterminal "s", .terminal 7]
    let source := Source.recorded
      [.events (events.take 8), .events (events.drop 8), .fail "no more" 4] true
    let annotated (on : Bool) :=
      Annotator.annotateInto ⟨source, { options with failOnError := on }⟩ host
    host.WellFormed ∧
      (drive handle (start host options) events).outcome =
        .error (.conflict ⟨"r", ⟨2, 4⟩, .crossing "a" ⟨0, 3⟩⟩) ∧
      (∃ report, (start host options).complete [.startNonterminal "p", .endNonterminal "p"] =
        .ok (report, (drive handle (start host options) events).state.target)) ∧
      (annotated true).outcome = .error (.source "no more" 4) ∧
      (annotated true).document = (annotated false).document ∧
      (pursue handle (start host options)
        [.startNonterminal "p", .endNonterminal "p"]).1.target = (annotated false).document := by
  intro host options events source annotated
  have h : host.WellFormed :=
    (Session.wellFormed_apply (Document.wellFormed_ofText "abcd") (by decide +kernel)).1
  obtain ⟨-, hdrive, hsource⟩ := aborted h (rfl : options.merge = .deferred)
  have hreached : (start host options).settled (reached handle (start host options) events) =
      [.startNonterminal "p", .endNonterminal "p"] := by decide +kernel
  have hsettled : (start host options).settled
      (Source.delivered source.lenient handle (source.items host.text) (start host options)) =
      [.startNonterminal "p", .endNonterminal "p"] := by decide +kernel
  obtain ⟨-, hcomplete⟩ := hdrive events
  obtain ⟨hdoc, -, hsame⟩ := hsource source
  rw [hreached] at hcomplete
  rw [hsettled] at hdoc
  exact ⟨h, by decide +kernel, hcomplete, by decide +kernel, hsame true, hdoc⟩

end Builder

end Standoff
