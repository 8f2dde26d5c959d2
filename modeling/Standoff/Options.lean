import Standoff.Error
import Standoff.Policy

/-! # Options of a run

Options come as pairs of texts.  A pair is read into a `Setting`, which is an option with a
value of its own type; only settings change `Options`, so a bad pair leaves them as they were.

* `Setting.ofPair`: reads a pair, or says why it cannot be read.
* `Options.ofPairs`: the defaults with every pair applied in turn; the first bad pair wins. -/

namespace Standoff

structure Options where
  /-- A failing event source fails the run. -/
  failOnError : Bool := false
  verbose : Bool := false
  trace : Bool := false
  timing : Bool := false
  merge : MergeStrategy := .deferred
  balancing : Balancing := .inner
  attributeCursor : AttributeCursor := .hold
deriving Repr, DecidableEq, Inhabited

/-- An option and its value. -/
inductive Setting where
  | failOnError (on : Bool)
  | verbose (on : Bool)
  | trace (on : Bool)
  | timing (on : Bool)
  | merge (strategy : MergeStrategy)
  | balancing (rule : Balancing)
  | attributeCursor (rule : AttributeCursor)
deriving Repr, DecidableEq

/-! ## Values as text -/

def MergeStrategy.text : MergeStrategy → String
  | deferred => "deferred"
  | incremental => "incremental"

def Balancing.text : Balancing → String
  | inner => "inner"
  | strict => "strict"

def AttributeCursor.text : AttributeCursor → String
  | hold => "hold"
  | unqualified => "unqualified"
  | advance => "advance"

/-- An admitted value: its text, and what it stands for. -/
abbrev Choices (α : Type) := List (String × α)

def switchChoices : Choices Bool := [("true", true), ("false", false)]

def mergeChoices : Choices MergeStrategy :=
  [MergeStrategy.deferred, .incremental].map fun s => (s.text, s)

def balancingChoices : Choices Balancing :=
  [Balancing.inner, .strict].map fun b => (b.text, b)

def attributeCursorChoices : Choices AttributeCursor :=
  [AttributeCursor.hold, .unqualified, .advance].map fun r => (r.text, r)

namespace Choices

variable {α : Type}

/-- The texts in quotes, with commas between them and "or" before the last. -/
def expected : Choices α → String
  | [] => ""
  | [(a, _)] => "\"" ++ a ++ "\""
  | [(a, _), (b, _)] => "\"" ++ a ++ "\" or \"" ++ b ++ "\""
  | (a, _) :: rest => "\"" ++ a ++ "\", " ++ expected rest

def read (choices : Choices α) (key value : String) : Except ConfigError α :=
  match choices.lookup value with
  | some a => .ok a
  | none => .error (.invalidValue key value choices.expected)

end Choices

/-! ## Settings -/

/-- The option keys, in the order in which they are listed to users. -/
def optionKeys : List String :=
  ["fail-on-error", "verbose", "trace", "timing", "merge", "balancing", "attribute-cursor"]

namespace Setting

/-- Reads an option from its key and value. -/
def ofPair (key value : String) : Except ConfigError Setting :=
  match key with
  | "fail-on-error" => (switchChoices.read key value).map failOnError
  | "verbose" => (switchChoices.read key value).map verbose
  | "trace" => (switchChoices.read key value).map trace
  | "timing" => (switchChoices.read key value).map timing
  | "merge" => (mergeChoices.read key value).map merge
  | "balancing" => (balancingChoices.read key value).map balancing
  | "attribute-cursor" => (attributeCursorChoices.read key value).map attributeCursor
  | _ => .error (.unknownOption key value)

def apply (setting : Setting) (options : Options) : Options :=
  match setting with
  | failOnError on => { options with failOnError := on }
  | verbose on => { options with verbose := on }
  | trace on => { options with trace := on }
  | timing on => { options with timing := on }
  | merge strategy => { options with merge := strategy }
  | balancing rule => { options with balancing := rule }
  | attributeCursor rule => { options with attributeCursor := rule }

end Setting

namespace Options

/-- The options with one pair applied. -/
def set (options : Options) (key value : String) : Except ConfigError Options :=
  (Setting.ofPair key value).map (·.apply options)

/-- The options with every pair applied in turn. -/
def setAll : Options → List (String × String) → Except ConfigError Options
  | options, [] => .ok options
  | options, (key, value) :: rest =>
    match options.set key value with
    | .ok options => setAll options rest
    | .error e => .error e

def ofPairs (pairs : List (String × String)) : Except ConfigError Options :=
  setAll {} pairs

end Options

end Standoff
