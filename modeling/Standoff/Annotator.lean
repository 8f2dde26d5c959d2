import Standoff.Builder
import Standoff.Source

/-! # Annotator: a source run over texts and documents

An annotator runs its source into a builder over a document.  A failure of the source itself
is reported and keeps what was delivered before it, unless the options ask for more; every
other failure fails the run.

* `Annotator.run`: merges into a document.
* `Annotator.annotate`: makes a document of a text.
* `Annotator.annotateInto`: adds to a document, its own text being the input.
* `Annotator.annotateAll`, `Annotator.annotateAllInto`: the same for many inputs, each on its
  own, answers in the order of the inputs. -/

namespace Standoff

structure Annotator where
  source : Source
  options : Options := {}

/-- The account of a run that did not fail. -/
structure Report where
  cursor : Nat
  roots : Nat
  merged : Nat
  /-- The source failed, and the run was allowed to go on. -/
  failure : Option AnnotateError
  /-- The run was timed. -/
  timed : Bool
deriving Repr, DecidableEq

/-- The source accepted the input. -/
def Report.isSuccess (r : Report) : Bool := r.failure.isNone

/-- A run: the document it left, its account, and what it told. -/
structure Run where
  document : Document
  outcome : Except AnnotateError Report
  notices : List Notice

namespace Annotator

/-- The account of a builder that has come to an end. -/
def account (a : Annotator) (b : BuildReport) (failure : Option AnnotateError) : Report where
  cursor := b.cursor
  roots := b.roots
  merged := b.merged
  failure := failure
  timed := a.options.timing

/-- The lines that close a run: its failure, its counts, and that it was timed.  The time
itself is known to the caller's clock only. -/
def summary (a : Annotator) (input : String) (r : Report) : List Notice :=
  let failed := match r.failure with
    | some e => ["failed: " ++ e.message ++ "\n"]
    | none => []
  let counts :=
    if a.options.verbose then
      ["annotated " ++ toString input.length ++ " char(s): cursor " ++ toString r.cursor ++ ", "
        ++ toString r.roots ++ " root(s), " ++ toString r.merged ++ " node(s)\n"]
    else []
  let elapsed := if r.timed then ["elapsed"] else []
  (LineWriter.linesOf (failed ++ counts ++ elapsed)).map .line

/-- Runs the source over an input, and merges what it finds into a document. -/
def run (a : Annotator) (input : String) (doc : Document) : Run :=
  let r := a.source.emit Builder.handle input (Builder.start doc a.options)
  let b := r.state
  let completed (report : Report) (notices : List Notice) : Run :=
    ⟨b.target, .ok report, r.notices ++ notices ++ a.summary input report⟩
  match r.outcome with
  | .ok () =>
    match b.finish with
    | .ok counts => completed (a.account counts none) []
    | .error e => ⟨b.target, .error e, r.notices⟩
  | .error e =>
    match e, a.options.failOnError with
    | .source .., false => completed (a.account b.report (some e)) [.sourceFailed e]
    | _, _ => ⟨b.target, .error e, r.notices⟩

/-- Runs over a text, into a document of its own. -/
def annotate (a : Annotator) (input : String) : Run := a.run input (.ofText input)

/-- Runs over the text of a document, into that document. -/
def annotateInto (a : Annotator) (doc : Document) : Run := a.run doc.text doc

def annotateAll (a : Annotator) (inputs : List String) : List Run := inputs.map a.annotate

def annotateAllInto (a : Annotator) (docs : List Document) : List Run := docs.map a.annotateInto

end Annotator

end Standoff
