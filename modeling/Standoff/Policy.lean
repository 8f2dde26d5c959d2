import Standoff.Text.XmlChar

/-! # Policies: the choices that a run is given

* `MergeStrategy`: when finished nodes reach the document.
* `Balancing`: what happens to an element that a new one would cross.
* `AttributeCursor`: whether the characters of an attribute value are text of the document. -/

namespace Standoff

/-- When finished nodes reach the document. -/
inductive MergeStrategy where
  /-- A root is merged with its whole subtree when it closes. -/
  | deferred
  /-- Every node is inserted when it closes. -/
  | incremental
deriving Repr, DecidableEq, Inhabited

/-- What happens to an element that a new one would cross. -/
inductive Balancing where
  /-- It is cut at the boundary of the new element. -/
  | inner
  /-- The new element is refused. -/
  | strict
deriving Repr, DecidableEq, Inhabited

/-- Whether a terminal inside an attribute scope moves the cursor. -/
inductive AttributeCursor where
  | hold
  /-- Only if the attribute name has no namespace part. -/
  | unqualified
  | advance
deriving Repr, DecidableEq, Inhabited

/-- Whether a terminal of the attribute `name` moves the cursor. -/
def AttributeCursor.advances (rule : AttributeCursor) (name : String) : Bool :=
  match rule with
  | hold => false
  | unqualified => !Text.isQualified name
  | advance => true

end Standoff
