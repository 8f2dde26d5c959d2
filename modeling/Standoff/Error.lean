import Standoff.Span

/-! # What can go wrong

Every failure is a value of `AnnotateError`.  It says what is wrong and where; the wording is
in the `message` functions and nowhere else.

* `Mismatch`: events that do not nest.
* `MergeConflict`: an element that has no place in the mark-up.
* `ConfigError`: an option that cannot be set.
* `AnnotateError.cursor`: where in the text the failure lies. -/

namespace Standoff

/-- Events that do not nest. -/
inductive Mismatch where
  | unopenedEnd (name : String)
  | nameMismatch (opened found : String)
  | emptyName
  | attributeOutsideNode (name : String)
  | unopenedAttributeEnd
  | nonterminalInAttribute (name : String)
  | attributeOpenAtEnd (name : String)
  | unclosed (nodes attributes : Nat)
deriving Repr, DecidableEq

def Mismatch.message : Mismatch → String
  | unopenedEnd name => "end of nonterminal `" ++ name ++ "` with no open nonterminal"
  | nameMismatch opened found =>
    "end of nonterminal `" ++ found ++ "` while `" ++ opened ++ "` is open"
  | emptyName => "nonterminal with an empty name"
  | attributeOutsideNode name => "attribute `" ++ name ++ "` outside any open nonterminal"
  | unopenedAttributeEnd => "end of attribute with no open attribute"
  | nonterminalInAttribute name =>
    "nonterminal `" ++ name ++ "` started inside an attribute"
  | attributeOpenAtEnd name =>
    "end of nonterminal `" ++ name ++ "` while one of its attributes is open"
  | unclosed nodes attributes =>
    "stream ended with " ++ toString nodes ++ " open nonterminal(s) and "
      ++ toString attributes ++ " open attribute(s)"

/-- Why an element has no place. -/
inductive ConflictReason where
  | inverted
  /-- The text has `length` characters only. -/
  | outOfBounds (length : Nat)
  | crossing (existing : String) (span : Span)
  | outsideParent (parent : Span)
deriving Repr, DecidableEq

def ConflictReason.message : ConflictReason → String
  | inverted => "span is inverted"
  | outOfBounds length => "span exceeds the text length " ++ toString length
  | crossing existing span => "crosses the boundary of `" ++ existing ++ "` " ++ span.text
  | outsideParent parent => "lies outside its target parent " ++ parent.text

/-- The element `name` over `span` has no place in the mark-up. -/
structure MergeConflict where
  name : String
  span : Span
  reason : ConflictReason
deriving Repr, DecidableEq

def MergeConflict.message (c : MergeConflict) : String :=
  "cannot merge `" ++ c.name ++ "` " ++ c.span.text ++ ": " ++ c.reason.message

/-- An option that cannot be set. -/
inductive ConfigError where
  | unknownOption (key value : String)
  /-- `expected` lists the admitted values. -/
  | invalidValue (key value expected : String)
deriving Repr, DecidableEq

def ConfigError.message : ConfigError → String
  | unknownOption key value => "unsupported option \"" ++ key ++ "\": \"" ++ value ++ "\""
  | invalidValue key value expected =>
    "invalid value \"" ++ value ++ "\" for option \"" ++ key ++ "\", expected " ++ expected

/-- Any failure of a run. -/
inductive AnnotateError where
  | illegalCharacter (codepoint cursor : Nat)
  | mismatch (kind : Mismatch) (cursor : Nat)
  | cursorOverflow (length cursor : Nat)
  | conflict (conflict : MergeConflict)
  | source (reason : String) (cursor : Nat)
  | config (error : ConfigError)
deriving Repr, DecidableEq

namespace AnnotateError

/-- A code point as `U+` and at least four upper-case hexadecimal digits. -/
def codepointText (n : Nat) : String :=
  let digits := (Nat.toDigits 16 n).map Char.toUpper
  "U+" ++ String.ofList (List.replicate (4 - digits.length) '0' ++ digits)

def message : AnnotateError → String
  | illegalCharacter codepoint cursor =>
    "illegal content character " ++ codepointText codepoint ++ " at cursor " ++ toString cursor
  | mismatch kind cursor =>
    "structural mismatch at cursor " ++ toString cursor ++ ": " ++ kind.message
  | cursorOverflow length cursor =>
    "cursor overflow: cannot advance " ++ toString length ++ " char(s) from cursor "
      ++ toString cursor
  | conflict c => c.message
  | source reason cursor =>
    "event source failed at cursor " ++ toString cursor ++ ": " ++ reason
  | config error => error.message

/-- The cursor at which the run failed; for a conflict, the end of the span that has no place. -/
def cursor : AnnotateError → Option Nat
  | illegalCharacter _ cursor => some cursor
  | mismatch _ cursor => some cursor
  | cursorOverflow _ cursor => some cursor
  | conflict c => some c.span.stop
  | source _ cursor => some cursor
  | config _ => none

end AnnotateError

end Standoff
