import Standoff.Error
import Standoff.Trace

/-! # Grammar events and their handlers

A grammar engine reports what it recognises as a stream of events.  A handler takes them one
at a time; its answer holds its next state, whether the event was accepted, and what there is
to tell about it.

* `Event`: the events, with their kinds.
* `Handler`, `drive`: delivering a list of events, up to the first one that is refused.
* `Recorder`: the handler that keeps the events. -/

namespace Standoff

inductive Event where
  | startNonterminal (name : String)
  | endNonterminal (name : String)
  | startAttribute (name : String)
  | endAttribute
  /-- One recognised character, as a code point. -/
  | terminal (codepoint : Nat)
  /-- `length` characters that were consumed without being recognised one by one. -/
  | excluded (length : Nat)
deriving Repr, DecidableEq

namespace Event

inductive Kind where
  | startNonterminal
  | endNonterminal
  | startAttribute
  | endAttribute
  | terminal
  | excluded
deriving Repr, DecidableEq

def Kind.text : Kind → String
  | startNonterminal => "startNonterminal"
  | endNonterminal => "endNonterminal"
  | startAttribute => "startAttribute"
  | endAttribute => "endAttribute"
  | terminal => "terminal"
  | excluded => "excluded"

def kind : Event → Kind
  | startNonterminal _ => .startNonterminal
  | endNonterminal _ => .endNonterminal
  | startAttribute _ => .startAttribute
  | endAttribute => .endAttribute
  | terminal _ => .terminal
  | excluded _ => .excluded

/-- The characters of a text as terminals. -/
def terminals (text : String) : List Event := text.toList.map fun c => terminal c.toNat

end Event

/-! ## Handlers -/

/-- Accepted, or refused with a reason. -/
abbrev Outcome := Except AnnotateError Unit

/-- A handler's answer to an event. -/
structure Response (σ : Type) where
  state : σ
  outcome : Outcome
  notices : List Notice

namespace Response

variable {σ : Type}

def accept (state : σ) (notices : List Notice) : Response σ := ⟨state, .ok (), notices⟩

def refuse (state : σ) (error : AnnotateError) : Response σ := ⟨state, .error error, []⟩

/-- The answer, with more to tell in front. -/
def withNotices (notices : List Notice) (r : Response σ) : Response σ :=
  { r with notices := notices ++ r.notices }

end Response

/-- What takes events, with a state `σ`. -/
abbrev Handler (σ : Type) := σ → Event → Response σ

/-- Delivers events in order, up to the first one that is refused. -/
def drive {σ : Type} (handler : Handler σ) : σ → List Event → Response σ
  | state, [] => .accept state []
  | state, e :: rest =>
    let r := handler state e
    match r.outcome with
    | .ok () => (drive handler r.state rest).withNotices r.notices
    | .error _ => r

/-! ## Recording -/

/-- Keeps every event it is given. -/
structure Recorder where
  events : Array Event := #[]
deriving Repr, DecidableEq

namespace Recorder

def handle : Handler Recorder := fun r e => .accept { r with events := r.events.push e } []

def count (r : Recorder) : Nat := r.events.size

end Recorder

end Standoff
