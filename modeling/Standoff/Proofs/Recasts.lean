import Standoff.Proofs.Atomicity
import Standoff.Proofs.Runs
import Standoff.Proofs.Steps
import Standoff.Source

/-! # The same builder over another target

What a builder does depends on the answers of its target only.  So a builder can be watched over a
target that keeps more, or does its work in another way, as long as the answers are the same:

    recast b after e  =  recast (b after e)

Nor does a builder look at the option that says what a failing source means.

* `Builder.recast`: the builder with another target and another answer to failing sources.
* `Builder.handle_recast`, `Builder.pursue_recast`: the equation above, for an event and for a run.
* `Live`: a document that is changed in place; a builder over it does what one over a document
  does. -/

namespace Standoff

/-! ## Other targets -/

def Delivery.map {τ σ : Type} (f : τ → σ) (d : Delivery τ) : Delivery σ :=
  { target := f d.target, outcome := d.outcome, cuts := d.cuts }

def Response.map {σ ρ : Type} (f : σ → ρ) (r : Response σ) : Response ρ :=
  { state := f r.state, outcome := r.outcome, notices := r.notices }

/-- `f` makes of a target one that answers the same, and comes to the same. -/
structure MergeTarget.Maps {τ σ : Type} [MergeTarget τ] [MergeTarget σ] (f : τ → σ) (target : τ) :
    Prop where
  merge : ∀ t balancing, MergeTarget.merge (f target) t balancing =
    (MergeTarget.merge target t balancing).map f
  insert : ∀ e claimed balancing, MergeTarget.insert (f target) e claimed balancing =
    (MergeTarget.insert target e claimed balancing).map f

theorem MergeTarget.maps_id {τ : Type} [MergeTarget τ] (target : τ) : Maps id target :=
  ⟨fun _ _ => rfl, fun _ _ _ => rfl⟩

namespace Builder

open MergeTarget

variable {τ σ : Type} {f : τ → σ} {on : Bool} {b : Builder τ}

/-- The builder with another target and another answer to failing sources. -/
def recast (f : τ → σ) (on : Bool) (b : Builder τ) : Builder σ :=
  { target := f b.target
    options := { b.options with failOnError := on }
    pending := b.pending
    stack := b.stack
    scopes := b.scopes
    cursor := b.cursor
    roots := b.roots
    merged := b.merged }

/-- A draft is followed whatever the target. -/
theorem Follows.recast {d : Draft} (h : b.Follows d) (f : τ → σ) (on : Bool) :
    (b.recast f on).Follows d := ⟨h.scopes, h.cursor, h.outside, h.rows⟩

/-! ## Events -/

theorem advanced_recast (length : Nat) :
    (b.recast f on).advanced length = (b.advanced length).map (recast f on) := by
  rcases Nat.lt_or_ge maxCursor (b.cursor + length) with h | h
  · rw [advanced_of_lt h, advanced_of_lt (b := b.recast f on) h]
    rfl
  · rw [advanced_of_le h, advanced_of_le (b := b.recast f on) h]
    rfl

theorem pushChar_recast (c : Char) : (b.recast f on).pushChar c = (b.pushChar c).recast f on := by
  obtain ⟨target, options, pending, stack, scopes, cursor, roots, merged⟩ := b
  cases scopes <;> rfl

theorem advances_recast : (b.recast f on).advances = b.advances := by
  obtain ⟨target, options, pending, stack, scopes, cursor, roots, merged⟩ := b
  cases scopes <;> rfl

theorem terminal_recast (codepoint : Nat) :
    (b.recast f on).terminal codepoint = (b.terminal codepoint).map (recast f on) := by
  unfold terminal
  cases Text.contentChar? codepoint with
  | none => rfl
  | some c =>
    dsimp only
    rw [advances_recast, advanced_recast]
    cases b.advances with
    | false => exact congrArg (Response.accept · []) (pushChar_recast c)
    | true =>
      cases b.advanced 1 with
      | error e => rfl
      | ok moved => exact congrArg (Response.accept · []) (pushChar_recast c)

theorem traced_recast (e : Event) : (b.recast f on).traced e = b.traced e := by
  obtain ⟨target, options, pending, stack, scopes, cursor, roots, merged⟩ := b
  rfl

section Events

variable [MergeTarget τ] [MergeTarget σ]

theorem deliverTree_recast (h : Maps f b.target) (id : NodeId) :
    (b.recast f on).deliverTree id = (b.deliverTree id).map (recast f on) := by
  unfold deliverTree
  simp only [recast, h.merge, Delivery.map]
  cases (MergeTarget.merge b.target ((b.pending.tree? id).getD ⟨default, .nil⟩)
    b.options.balancing).outcome <;> rfl

theorem deliverElement_recast (h : Maps f b.target) (n : OpenNode) :
    (b.recast f on).deliverElement n = (b.deliverElement n).map (recast f on) := by
  unfold deliverElement
  simp only [recast, h.insert, Delivery.map]
  cases (MergeTarget.insert b.target (b.pending.element n.id) n.claimed
    b.options.balancing).outcome with
  | error conflict => rfl
  | ok host => cases b.stack <;> rfl

theorem deliver_recast (h : Maps f b.target) (n : OpenNode) :
    (b.recast f on).deliver n = (b.deliver n).map (recast f on) := by
  obtain ⟨target, options, pending, stack, scopes, cursor, roots, merged⟩ := b
  obtain ⟨failOnError, verbose, trace, timing, merge, balancing, rule⟩ := options
  cases merge with
  | incremental => exact deliverElement_recast h n
  | deferred =>
    cases stack with
    | nil => exact deliverTree_recast h n.id
    | cons parent outer => rfl

theorem endNonterminal_recast (h : Maps f b.target) (name : String) :
    (b.recast f on).endNonterminal name = (b.endNonterminal name).map (recast f on) := by
  cases hstack : b.stack with
  | nil =>
    have hstack' : (b.recast f on).stack = [] := hstack
    simp only [endNonterminal, hstack, hstack']
    rfl
  | cons n outer =>
    have hstack' : (b.recast f on).stack = n :: outer := hstack
    by_cases hname : b.nameOf n = name
    · subst hname
      rw [show b.nameOf n = (b.recast f on).nameOf n from rfl]
      cases hscopes : b.scopes with
      | cons s scopes =>
        rw [endNonterminal_of_scope hstack' hscopes]
        exact (congrArg (Response.map (recast f on)) (endNonterminal_of_scope hstack hscopes)).symm
      | nil =>
        rw [endNonterminal_delivers hstack' hscopes]
        refine Eq.trans ?_
          (congrArg (Response.map (recast f on)) (endNonterminal_delivers hstack hscopes)).symm
        exact deliver_recast (b := { b with
          stack := outer, pending := b.pending.setStop n.id b.cursor }) h n
    · rw [endNonterminal_of_ne hstack hname, endNonterminal_of_ne hstack' hname]
      rfl

theorem apply_recast (h : Maps f b.target) (e : Event) :
    (b.recast f on).apply e = (b.apply e).map (recast f on) := by
  cases e with
  | startNonterminal name =>
    obtain ⟨target, options, pending, stack, scopes, cursor, roots, merged⟩ := b
    simp only [apply, startNonterminal, recast]
    split
    · rfl
    · cases scopes <;> rfl
  | endNonterminal name => exact endNonterminal_recast h name
  | startAttribute name =>
    obtain ⟨target, options, pending, stack, scopes, cursor, roots, merged⟩ := b
    cases stack <;> rfl
  | endAttribute =>
    obtain ⟨target, options, pending, stack, scopes, cursor, roots, merged⟩ := b
    cases scopes with
    | nil => rfl
    | cons s scopes => cases stack <;> rfl
  | terminal codepoint => exact terminal_recast codepoint
  | excluded length =>
    simp only [apply, excluded, advanced_recast]
    cases b.advanced length <;> rfl

theorem handle_recast (h : Maps f b.target) (e : Event) :
    (b.recast f on).handle e = (b.handle e).map (recast f on) := by
  rw [handle, apply_recast h, traced_recast]
  rfl

/-- A run over another target; `Good` holds of every state that it passes through. -/
theorem pursue_recast {Good : Builder τ → Prop} (hstep : ∀ b e, Good b → Good (b.handle e).state)
    (hmaps : ∀ b, Good b → Maps f b.target) (h : Good b) (events : List Event) :
    pursue handle (b.recast f on) events =
      ((pursue handle b events).1.recast f on, (pursue handle b events).2) := by
  induction events generalizing b with
  | nil => rfl
  | cons e events ih =>
    rw [pursue, pursue, handle_recast (hmaps b h)]
    exact congrArg (fun r : Builder σ × List Notice => (r.1, (b.handle e).notices ++ r.2))
      (ih (hstep b e h))

end Events

end Builder

/-! ## Handlers that do the same -/

section Handlers

variable {σ ρ : Type} {handler : Handler σ} {handler' : Handler ρ} {g : σ → ρ}

theorem drive_map (h : ∀ state e, handler' (g state) e = (handler state e).map g) (state : σ)
    (events : List Event) :
    drive handler' (g state) events = (drive handler state events).map g := by
  induction events generalizing state with
  | nil => rfl
  | cons e events ih =>
    rw [drive, drive, h]
    cases hout : (handler state e).outcome with
    | error error => simp only [Response.map, hout]
    | ok u =>
      simp only [Response.map, hout, ih]
      rfl

/-- A source goes on behind a group unless it is strict and an event was refused. -/
theorem emitItems_events (lenient : Bool) (handler : Handler σ) (group : List Event)
    (rest : List Source.Item) (state : σ) :
    Source.emitItems lenient handler (.events group :: rest) state =
      if (drive handler state group).outcome.isOk || lenient then
        (Source.emitItems lenient handler rest (drive handler state group).state).withNotices
          (drive handler state group).notices
      else drive handler state group := by
  rw [Source.emitItems.eq_def]
  dsimp only
  generalize drive handler state group = r
  obtain ⟨last, outcome, notices⟩ := r
  cases outcome <;> cases lenient <;> rfl

theorem emitItems_map (h : ∀ state e, handler' (g state) e = (handler state e).map g)
    (lenient : Bool) (items : List Source.Item) (state : σ) :
    Source.emitItems lenient handler' items (g state) =
      (Source.emitItems lenient handler items state).map g := by
  induction items generalizing state with
  | nil => rfl
  | cons item items ih =>
    cases item with
    | fail reason cursor => rfl
    | events group =>
      rw [emitItems_events, emitItems_events, drive_map h]
      simp only [Response.map, ih]
      split <;> rfl

end Handlers

/-! ## Documents that are changed in place -/

/-- A document that is changed in place: a refused delivery leaves it as the change has left it. -/
structure Live where
  document : Document

instance : MergeTarget Live where
  merge w t balancing := (w.document.perform (InPlace.merge t balancing)).map Live.mk
  insert w e claimed balancing :=
    (w.document.perform (InPlace.insert e claimed balancing)).map Live.mk

namespace Live

variable {w : Live} {host : Document}

/-- A document that is changed in place answers and becomes what one that is not does. -/
theorem maps (h : w.document.WellFormed) : MergeTarget.Maps document w where
  merge t balancing := (h.merge_inPlace t balancing).symm
  insert e claimed balancing := Document.insert_inPlace w.document e claimed balancing

open Builder

theorem sound_handle (on : Bool) (b : Builder Live) (e : Event)
    (h : ∃ d, Sound (b.recast document on) d) :
    ∃ d, Sound ((b.handle e).state.recast document on) d := by
  obtain ⟨d, hd⟩ := h
  obtain ⟨d', hd', -⟩ := hd.handle e
  rw [handle_recast (maps hd.wellFormed)] at hd'
  exact ⟨d', hd'⟩

/-- A run over the document in place is the run over the document. -/
theorem pursue_eq (h : host.WellFormed) (options : Options) (events : List Event) :
    let last := pursue handle (start (mk host) options) events
    pursue handle (start host options) events =
        (last.1.recast document options.failOnError, last.2) ∧
      last.1.target.document.WellFormed := by
  intro last
  have hcast : (start (mk host) options).recast document options.failOnError =
      start host options := rfl
  have hstart : ∃ d, Sound ((start (mk host) options).recast document options.failOnError) d :=
    ⟨_, sound_start h options⟩
  rw [← hcast]
  refine ⟨pursue_recast (sound_handle _) (fun _ ⟨_, hd⟩ => maps hd.wellFormed) hstart events, ?_⟩
  obtain ⟨d, hd⟩ := run_induction
    (R := fun _ b => ∃ d, Sound (b.recast document options.failOnError) d)
    (fun _ => sound_handle _) true (start (mk host) options) events hstart
  exact hd.wellFormed

end Live

end Standoff
