import Standoff.Proofs.Runs

/-! # Sessions: operations on one document

A session starts with a bare text and applies operations one after another; an operation that
fails leaves the document as it is.  Only an insertion has a condition: the nodes it claims are
elements of the document at that moment and lie within the new span.

* `Operation`, `Operation.apply`: the operations and what they do.
* `Session.Admissible`: every insertion of a session meets its condition.
* `Session.wellFormed_apply`: the document at the end of a session. -/

namespace Standoff

/-- What can be done to a document. -/
inductive Operation where
  | addSpan (name : String) (span : Span)
  | setAttribute (id : NodeId) (key value : String)
  | merge (t : Tree Element) (balancing : Balancing)
  | insert (e : Element) (claimed : List NodeId) (balancing : Balancing)
  /-- A builder takes events, and stops at the first refusal or goes on. -/
  | build (options : Options) (resume : Bool) (events : List Event)

namespace Operation

/-- The document after an attempt to add to it. -/
def settle (doc : Document) (attempt : Except MergeConflict Addition) : Document :=
  match attempt with
  | .ok a => a.document
  | .error _ => doc

def apply (doc : Document) : Operation → Document
  | addSpan name span => settle doc (doc.addSpan name span)
  | setAttribute id key value => doc.setAttribute id key value
  | merge t balancing => settle doc (doc.merge t balancing)
  | insert e claimed balancing => settle doc (doc.insert e claimed balancing)
  | build options resume events =>
    (Builder.run resume { target := doc, options := options } events).1.target

/-- The condition of an operation on the document it is applied to. -/
def Admissible (doc : Document) : Operation → Prop
  | insert e claimed _ => doc.ClaimsWithin claimed e.span
  | _ => True

instance decidableAdmissible (doc : Document) : (op : Operation) → Decidable (op.Admissible doc)
  | insert e claimed _ => inferInstanceAs (Decidable (doc.ClaimsWithin claimed e.span))
  | addSpan .. => .isTrue trivial
  | setAttribute .. => .isTrue trivial
  | merge .. => .isTrue trivial
  | build .. => .isTrue trivial

variable {doc : Document} {op : Operation}

theorem wellFormed_settle {attempt : Except MergeConflict Addition} (h : doc.WellFormed)
    (ha : ∀ a, attempt = .ok a → a.document.WellFormed) : (settle doc attempt).WellFormed := by
  cases attempt with
  | error conflict => exact h
  | ok a => exact ha a rfl

theorem wellFormed_apply (h : doc.WellFormed) (hop : op.Admissible doc) :
    (op.apply doc).WellFormed := by
  cases op with
  | addSpan name span => exact wellFormed_settle h fun _ ha => h.addSpan ha
  | setAttribute id key value => exact h.setAttribute id key value
  | merge t balancing => exact wellFormed_settle h fun _ ha => h.merge ha
  | insert e claimed balancing => exact wellFormed_settle h fun _ ha => h.insert hop ha
  | build options resume events => exact (Builder.wellFormed_run h options resume events).1

theorem text_settle {attempt : Except MergeConflict Addition}
    (ha : ∀ a, attempt = .ok a → a.document.text = doc.text) :
    (settle doc attempt).text = doc.text := by
  cases attempt with
  | error conflict => rfl
  | ok a => exact ha a rfl

theorem text_apply (h : doc.WellFormed) (op : Operation) : (op.apply doc).text = doc.text := by
  cases op with
  | addSpan name span => exact text_settle fun _ ha => Document.insert_text ha
  | setAttribute id key value => rfl
  | merge t balancing => exact text_settle fun _ ha => Document.merge_text ha
  | insert e claimed balancing => exact text_settle fun _ ha => Document.insert_text ha
  | build options resume events => exact (Builder.wellFormed_run h options resume events).2

end Operation

/-! ## Sessions -/

namespace Session

/-- The document after a session. -/
def apply (doc : Document) (ops : List Operation) : Document := ops.foldl Operation.apply doc

/-- Every operation of a session is admissible when its turn comes. -/
def Admissible : Document → List Operation → Prop
  | _, [] => True
  | doc, op :: ops => op.Admissible doc ∧ Admissible (op.apply doc) ops

instance decidableAdmissible :
    (doc : Document) → (ops : List Operation) → Decidable (Admissible doc ops)
  | _, [] => .isTrue trivial
  | doc, op :: ops =>
    have := decidableAdmissible (op.apply doc) ops
    inferInstanceAs (Decidable (op.Admissible doc ∧ Admissible (op.apply doc) ops))

/-- A session over a well-formed document leaves a well-formed one over the same text. -/
theorem wellFormed_apply {doc : Document} (h : doc.WellFormed) {ops : List Operation}
    (hops : Admissible doc ops) :
    (apply doc ops).WellFormed ∧ (apply doc ops).text = doc.text := by
  induction ops generalizing doc with
  | nil => exact ⟨h, rfl⟩
  | cons op ops ih =>
    obtain ⟨hwf, htext⟩ := ih (Operation.wellFormed_apply h hops.1) hops.2
    exact ⟨hwf, htext.trans (Operation.text_apply h op)⟩

end Session

end Standoff
