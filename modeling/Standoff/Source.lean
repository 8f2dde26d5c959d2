import Standoff.Event
import Standoff.Text.Blank

/-! # Event sources

A source turns an input text into items: groups of events for a handler, and failures of the
source itself.  A group ends at the first event that is refused.  A strict source then gives
up; a lenient one goes on with the next item.

* `Source.emit`: runs a source against a handler.
* `Source.recorded`, `Source.words`, `Source.lines`, `Source.enclosing`: sources.
* `Source.ofGrammar`: prepares a source from the text of a grammar. -/

namespace Standoff

namespace Source

/-- One step of a source. -/
inductive Item where
  | events (group : List Event)
  /-- The source gives up at a cursor, for a reason of its own. -/
  | fail (reason : String) (cursor : Nat)
deriving Repr, DecidableEq

end Source

structure Source where
  items : String → List Source.Item
  /-- Refused events do not stop the source. -/
  lenient : Bool := false

namespace Source

variable {σ : Type}

/-- Runs items against a handler. -/
def emitItems (lenient : Bool) (handler : Handler σ) : List Item → σ → Response σ
  | [], state => .accept state []
  | .fail reason cursor :: _, state => .refuse state (.source reason cursor)
  | .events group :: rest, state =>
    let r := drive handler state group
    match r.outcome, lenient with
    | .error _, false => r
    | _, _ => (emitItems lenient handler rest r.state).withNotices r.notices

/-- Runs a source over an input against a handler. -/
def emit (source : Source) (handler : Handler σ) (input : String) (state : σ) : Response σ :=
  emitItems source.lenient handler (source.items input) state

/-! ## Sources -/

/-- The same items whatever the input. -/
def recorded (items : List Item) (lenient : Bool) : Source := ⟨fun _ => items, lenient⟩

/-- A single event as an item. -/
def one (e : Event) : Item := .events [e]

def terminalOf (c : Char) : Item := one (.terminal c.toNat)

/-- Runs of ASCII letters as nonterminals `w`; `inWord` tells that one is open, `cursor` is the
position of the next character.  An ASCII digit fails the source. -/
def wordItems (inWord : Bool) (cursor : Nat) : List Char → List Item
  | [] => if inWord then [one (.endNonterminal "w")] else []
  | c :: rest =>
    if c.isDigit then [.fail ("unexpected " ++ String.singleton c) cursor]
    else
      (if c.isAlpha && !inWord then [one (.startNonterminal "w")]
        else if !c.isAlpha && inWord then [one (.endNonterminal "w")]
        else [])
      ++ terminalOf c :: wordItems c.isAlpha (cursor + 1) rest

/-- Words of ASCII letters. -/
def words : Source := ⟨fun input => wordItems false 0 input.toList, false⟩

/-- Lines without their line feeds as nonterminals `line`, empty ones apart.  An exclamation
mark fails the source. -/
def lineItems (inLine : Bool) (cursor : Nat) : List Char → List Item
  | [] => if inLine then [one (.endNonterminal "line")] else []
  | c :: rest =>
    if c = '!' then [.fail "bang" cursor]
    else
      (if c ≠ '\n' && !inLine then [one (.startNonterminal "line")]
        else if c = '\n' && inLine then [one (.endNonterminal "line")]
        else [])
      ++ terminalOf c :: lineItems (c ≠ '\n') (cursor + 1) rest

/-- Lines that are not empty. -/
def lines : Source := ⟨fun input => lineItems false 0 input.toList, false⟩

/-- The whole input as one nonterminal. -/
def enclosing (name : String) : Source :=
  ⟨fun input =>
    [.events ([.startNonterminal name] ++ Event.terminals input ++ [.endNonterminal name])],
    false⟩

/-- A grammar is the name of the one nonterminal it recognises, and may not be blank. -/
def ofGrammar (grammar : String) : Except AnnotateError Source :=
  if Text.isBlank grammar then .error (.source "empty grammar" grammar.utf8ByteSize)
  else .ok (enclosing grammar)

end Source

end Standoff
