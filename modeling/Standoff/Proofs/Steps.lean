import Standoff.Proofs.Phrases
import Standoff.Proofs.Drafts

/-! # What an event does to a builder

A handler checks its event before it changes anything; only the target is asked later.  So the
events that a builder refuses by itself leave it as it is, and each of the others does one thing:

* `Event.request?`: how far an event asks the cursor to move.
* `Builder.Does`: all answers to events, with the checks that lead to them.
* `Builder.apply_does`: there are no others. -/

namespace Standoff

namespace Event

/-- How far an event asks the cursor to move where the attributes `scopes` are open, the innermost
first.  A terminal that does not count or is no character asks for nothing. -/
def request? (rule : AttributeCursor) (scopes : List String) : Event → Option Nat
  | terminal codepoint =>
    if Text.isXmlChar codepoint ∧ scopes.head?.all rule.advances then some 1 else none
  | excluded length => some length
  | _ => none

end Event

open Event

namespace Builder

variable {τ : Type} {b : Builder τ}

/-! ## Moves of the cursor -/

section Cursor

variable {codepoint length : Nat} {c : Char}

/-- How far an event asks the cursor of a builder to move. -/
def request? (b : Builder τ) (e : Event) : Option Nat :=
  e.request? b.options.attributeCursor (b.scopes.map (·.name))

theorem advances_eq_head (b : Builder τ) : b.advances =
    (b.scopes.map (·.name)).head?.all b.options.attributeCursor.advances := by
  unfold advances
  cases b.scopes <;> rfl

/-- What a terminal asks for. -/
theorem request?_terminal (b : Builder τ) (codepoint : Nat) : b.request? (.terminal codepoint) =
    if Text.isXmlChar codepoint ∧ b.advances then some 1 else none := by
  rw [request?, Event.request?, advances_eq_head]

theorem advanced_of_le (h : b.cursor + length ≤ maxCursor) :
    b.advanced length = .ok { b with cursor := b.cursor + length } := if_pos h

theorem advanced_of_lt (h : maxCursor < b.cursor + length) :
    b.advanced length = .error (.cursorOverflow length b.cursor) := if_neg (Nat.not_le.mpr h)

end Cursor

/-! ## Answers to events -/

section Steps

variable [MergeTarget τ] {n : OpenNode} {outer : List OpenNode} {s : AttributeScope}
  {scopes : List AttributeScope} {name : String}

/-- Everything that an event can do to a builder, and the answer to it. -/
inductive Does (b : Builder τ) : Event → Response (Builder τ) → Prop where
  /-- The builder refuses it, though it asks for no move of the cursor, and stays as it is. -/
  | refuses (e : Event) (error : AnnotateError) (hkind : ∀ conflict, error ≠ .conflict conflict)
      (hask : b.request? e = none) : Does b e (.refuse b error)
  /-- It asks for too much. -/
  | overflows (e : Event) (length : Nat) (hask : b.request? e = some length)
      (hlt : maxCursor < b.cursor + length) :
      Does b e (.refuse b (.cursorOverflow length b.cursor))
  /-- An attribute ends outside all nonterminals.  No builder reaches a state in which it could. -/
  | strays (s : AttributeScope) (scopes : List AttributeScope) (hscopes : b.scopes = s :: scopes)
      (hstack : b.stack = []) :
      Does b .endAttribute ({ b with scopes := scopes }.mismatch (.attributeOutsideNode s.name))
  | opens (name : String) (hname : name ≠ "") (hscopes : b.scopes = []) :
      Does b (.startNonterminal name) (.accept { b with
        pending := (b.pending.allocElement name (.emptyAt b.cursor)).1
        stack := ⟨(b.pending.allocElement name (.emptyAt b.cursor)).2, []⟩ :: b.stack } [])
  /-- A nonterminal leaves the stack, and is delivered. -/
  | closes (n : OpenNode) (outer : List OpenNode) (hstack : b.stack = n :: outer)
      (hscopes : b.scopes = []) :
      Does b (.endNonterminal (b.nameOf n))
        (deliver { b with stack := outer, pending := b.pending.setStop n.id b.cursor } n)
  | opensAttribute (name : String) (hstack : b.stack ≠ []) :
      Does b (.startAttribute name) (.accept { b with scopes := { name := name } :: b.scopes } [])
  | closesAttribute (n : OpenNode) (outer : List OpenNode) (s : AttributeScope)
      (scopes : List AttributeScope) (hstack : b.stack = n :: outer)
      (hscopes : b.scopes = s :: scopes) :
      Does b .endAttribute (.accept { b with
        scopes := scopes, pending := b.pending.setAttribute n.id s.name s.value } [])
  /-- A character goes to an attribute in which it does not count. -/
  | holds (codepoint : Nat) (c : Char) (hchar : Text.contentChar? codepoint = some c)
      (hadv : b.advances = false) : Does b (.terminal codepoint) (.accept (b.pushChar c) [])
  | counts (codepoint : Nat) (c : Char) (hchar : Text.contentChar? codepoint = some c)
      (hadv : b.advances = true) (hle : b.cursor + 1 ≤ maxCursor) :
      Does b (.terminal codepoint) (.accept ({ b with cursor := b.cursor + 1 }.pushChar c) [])
  | skips (length : Nat) (hle : b.cursor + length ≤ maxCursor) :
      Does b (.excluded length) (.accept { b with cursor := b.cursor + length } [])

theorem Does.of_mismatch {e : Event} (kind : Mismatch) (hask : b.request? e = none) :
    b.Does e (b.mismatch kind) :=
  .refuses e _ (fun _ h => AnnotateError.noConfusion h) hask

theorem startNonterminal_does (b : Builder τ) (name : String) :
    b.Does (.startNonterminal name) (b.startNonterminal name) := by
  by_cases hname : name = ""
  · rw [startNonterminal, if_pos hname]
    exact .of_mismatch _ rfl
  · cases hscopes : b.scopes with
    | nil =>
      rw [startNonterminal_eq hname hscopes]
      exact .opens name hname hscopes
    | cons s scopes =>
      simp only [startNonterminal, if_neg hname, hscopes]
      exact .of_mismatch _ rfl

theorem endNonterminal_of_ne (hstack : b.stack = n :: outer) (hname : b.nameOf n ≠ name) :
    b.endNonterminal name = b.mismatch (.nameMismatch (b.nameOf n) name) := by
  rw [endNonterminal, hstack]
  exact if_pos hname

theorem endNonterminal_of_scope (hstack : b.stack = n :: outer) (hscopes : b.scopes = s :: scopes) :
    b.endNonterminal (b.nameOf n) = b.mismatch (.attributeOpenAtEnd (b.nameOf n)) := by
  rw [endNonterminal, hstack, hscopes]
  exact if_neg (not_not_intro rfl)

theorem endNonterminal_delivers (hstack : b.stack = n :: outer) (hscopes : b.scopes = []) :
    b.endNonterminal (b.nameOf n) =
      deliver { b with stack := outer, pending := b.pending.setStop n.id b.cursor } n := by
  rw [nameOf_eq, endNonterminal_eq hstack hscopes]

theorem endNonterminal_does (b : Builder τ) (name : String) :
    b.Does (.endNonterminal name) (b.endNonterminal name) := by
  cases hstack : b.stack with
  | nil =>
    simp only [endNonterminal, hstack]
    exact .of_mismatch _ rfl
  | cons n outer =>
    by_cases hname : b.nameOf n = name
    · subst hname
      cases hscopes : b.scopes with
      | nil =>
        rw [endNonterminal_delivers hstack hscopes]
        exact .closes n outer hstack hscopes
      | cons s scopes =>
        rw [endNonterminal_of_scope hstack hscopes]
        exact .of_mismatch _ rfl
    · rw [endNonterminal_of_ne hstack hname]
      exact .of_mismatch _ rfl

theorem startAttribute_does (b : Builder τ) (name : String) :
    b.Does (.startAttribute name) (b.startAttribute name) := by
  by_cases hstack : b.stack = []
  · simp only [startAttribute, hstack]
    exact .of_mismatch _ rfl
  · rw [startAttribute_eq hstack]
    exact .opensAttribute name hstack

theorem endAttribute_does (b : Builder τ) : b.Does .endAttribute b.endAttribute := by
  cases hscopes : b.scopes with
  | nil =>
    simp only [endAttribute, hscopes]
    exact .of_mismatch _ rfl
  | cons s scopes =>
    cases hstack : b.stack with
    | nil =>
      have hstrays : b.endAttribute =
          { b with scopes := scopes }.mismatch (.attributeOutsideNode s.name) := by
        simp only [endAttribute, hscopes, hstack]
      rw [hstrays]
      exact .strays s scopes hscopes hstack
    | cons n outer =>
      rw [endAttribute_eq hstack hscopes]
      exact .closesAttribute n outer s scopes hstack hscopes

theorem terminal_does (b : Builder τ) (codepoint : Nat) :
    b.Does (.terminal codepoint) (b.terminal codepoint) := by
  unfold terminal
  cases hchar : Text.contentChar? codepoint with
  | none =>
    refine .refuses _ _ (fun _ h => AnnotateError.noConfusion h) ?_
    rw [request?_terminal, if_neg fun h => ?_]
    rw [Text.contentChar?, if_pos h.1] at hchar
    cases hchar
  | some c =>
    have hxml : Text.isXmlChar codepoint = true := by
      by_contra hno
      rw [Text.contentChar?, if_neg hno] at hchar
      cases hchar
    cases hadv : b.advances with
    | false => exact .holds codepoint c hchar hadv
    | true =>
      rcases Nat.lt_or_ge maxCursor (b.cursor + 1) with hlt | hle
      · simp only [if_true, advanced_of_lt hlt]
        refine .overflows _ 1 ?_ hlt
        rw [request?_terminal, if_pos ⟨hxml, hadv⟩]
      · simp only [if_true, advanced_of_le hle]
        exact .counts codepoint c hchar hadv hle

theorem excluded_does (b : Builder τ) (length : Nat) :
    b.Does (.excluded length) (b.excluded length) := by
  rcases Nat.lt_or_ge maxCursor (b.cursor + length) with hlt | hle
  · rw [excluded, advanced_of_lt hlt]
    exact .overflows _ length rfl hlt
  · rw [excluded, advanced_of_le hle]
    exact .skips length hle

/-- There are no other answers. -/
theorem apply_does (b : Builder τ) (e : Event) : b.Does e (b.apply e) := by
  cases e with
  | startNonterminal name => exact b.startNonterminal_does name
  | endNonterminal name => exact b.endNonterminal_does name
  | startAttribute name => exact b.startAttribute_does name
  | endAttribute => exact b.endAttribute_does
  | terminal codepoint => exact b.terminal_does codepoint
  | excluded length => exact b.excluded_does length

end Steps

end Builder

end Standoff
