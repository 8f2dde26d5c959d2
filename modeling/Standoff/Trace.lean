import Standoff.Error
import Standoff.Markup.Basic

/-! # Notices, and where they go

A run tells what it does in `Notice`s.  Lines go to a sink of the caller's choice; everything
else is for the log.

* `Notice`: what there is to tell.
* `Sink`: memory, nowhere, or the log under a target.
* `Notice.record?`: the log record of a notice.
* `LineWriter`: whole lines out of text in any pieces. -/

namespace Standoff

inductive Notice where
  /-- A whole line of trace or summary. -/
  | line (text : String)
  | cut (c : Cut)
  /-- A finished node has reached its target. -/
  | closed (name : String) (span : Span)
  /-- A source is being prepared from a grammar of so many bytes. -/
  | preparing (bytes : Nat)
  /-- A source failure that did not fail the run. -/
  | sourceFailed (error : AnnotateError)
deriving Repr, DecidableEq

/-! ## Sinks and log records -/

inductive Sink where
  | memory
  | null
  | log (target : String)
deriving Repr, DecidableEq

/-- The log under the target that lines have by default. -/
def Sink.defaultLog : Sink := .log "tixml"

/-- Severities, the lowest first. -/
inductive Level where
  | debug
  | info
  | warn
deriving Repr, DecidableEq

namespace Level

def rank : Level → Nat
  | debug => 0
  | info => 1
  | warn => 2

def text : Level → String
  | debug => "DEBUG"
  | info => "INFO"
  | warn => "WARN"

/-- Records of level `l` are kept by a log that asks for `least` and more severe ones. -/
def admits (least l : Level) : Bool := decide (least.rank ≤ l.rank)

end Level

/-- An entry of the log; lines carry the target of their sink. -/
structure Record where
  level : Level
  target : Option String
  text : String
deriving Repr, DecidableEq

namespace Notice

/-- The log record of a notice when lines go to `sink`, if there is one. -/
def record? (sink : Sink) : Notice → Option Record
  | line text =>
    match sink with
    | .log target => some ⟨.info, some target, text⟩
    | _ => none
  | cut c =>
    some ⟨.debug, none,
      "splitting `" ++ c.name ++ "` " ++ c.span.text ++ " at " ++ toString c.pos⟩
  | closed name span => some ⟨.debug, none, "closed `" ++ name ++ "` " ++ span.text⟩
  | preparing bytes =>
    some ⟨.debug, none,
      "preparing event source for a " ++ toString bytes ++ " byte grammar"⟩
  | sourceFailed error => some ⟨.warn, none, "event source failed: " ++ error.message⟩

/-- The line of a notice, if it is one. -/
def line? : Notice → Option String
  | line text => some text
  | _ => none

end Notice

/-- The lines that a sink holds after some notices. -/
def Sink.held (sink : Sink) (notices : List Notice) : List String :=
  match sink with
  | memory => notices.filterMap Notice.line?
  | _ => []

/-! ## Lines from pieces -/

/-- Text that has been written since the last end of line. -/
structure LineWriter where
  pending : String := ""
deriving Repr, DecidableEq

namespace LineWriter

/-- The byte that ends a line. -/
def endOfLine : UInt8 := 10

/-- Goes on at byte `start` of a piece whose next ends of line are given: whatever is pending
comes in front of the first of them, and what is behind the last one is pending then.  None if
one of the cuts is inside a character. -/
def writeFrom? (piece pending : String) (start : Nat) :
    List Nat → Option (LineWriter × List String)
  | [] =>
    (Text.between? piece start piece.utf8ByteSize).map fun rest => (⟨pending ++ rest⟩, [])
  | stop :: stops =>
    match Text.between? piece start stop with
    | none => none
    | some chunk =>
      let line := if pending.isEmpty then chunk else pending ++ chunk
      (writeFrom? piece "" (stop + 1) stops).map fun (w, lines) => (w, line :: lines)

/-- Takes a piece of text, and gives out the lines that it completes; `search` tells where a byte
occurs among others. -/
def writeWith? (search : UInt8 → ByteArray → List Nat) (w : LineWriter) (piece : String) :
    Option (LineWriter × List String) :=
  writeFrom? piece w.pending 0 (search endOfLine piece.toUTF8)

/-- Takes a piece of text, and gives out the lines that it completes. -/
def write (w : LineWriter) (piece : String) : LineWriter × List String :=
  (w.writeWith? Text.occurrences piece).getD (w, [])

/-- Gives out what is pending as a last line, unless there is none. -/
def finish (w : LineWriter) : LineWriter × List String :=
  if w.pending.isEmpty then (w, []) else ({}, [w.pending])

/-- What a writer that is given up still gives out: the same as at its end. -/
def drop (w : LineWriter) : List String := w.finish.2

/-- Takes pieces one after another. -/
def writeAll : LineWriter → List String → LineWriter × List String
  | w, [] => (w, [])
  | w, piece :: rest =>
    let (w, lines) := w.write piece
    let (w, more) := writeAll w rest
    (w, lines ++ more)

/-- The lines of pieces that are written one after another and then finished. -/
def linesOf (pieces : List String) : List String :=
  let (w, lines) := writeAll {} pieces
  lines ++ w.finish.2

end LineWriter

end Standoff
