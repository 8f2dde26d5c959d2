import Standoff.Event
import Standoff.Policy
import Standoff.Text.XmlChar

/-! # Phrases: the grammar of event streams

A stream of events that opens and closes its scopes properly spells a phrase, a row of items that
may hold rows of their own.  A pushdown machine reads such streams: its stack holds the scopes
that are open, and from every stack there is a language of streams that close them all,

    `Completes (o₁ … oₙ)` = phrase in `o₁`, end of `o₁`, …, phrase in `oₙ`, end of `oₙ`, phrase

* `Phrase`, `Phrase.Valid`, `Phrase.events`: phrases, their places and their streams.
* `Opened.completes_cons`: one step of the machine in terms of languages.
* `Event.reach`: how far a stream moves the cursor. -/

namespace Standoff

/-! ## Phrases -/

/-- Where a phrase stands. -/
inductive Place where
  /-- Outside every nonterminal. -/
  | outside
  /-- In a nonterminal, outside its attributes. -/
  | inNode
  | inAttribute
deriving DecidableEq

/-- A row of items; `rest` is what follows the first one. -/
inductive Phrase where
  | nil
  | terminal (codepoint : Nat) (rest : Phrase)
  | excluded (length : Nat) (rest : Phrase)
  | nonterminal (name : String) (content rest : Phrase)
  | attr (name : String) (content rest : Phrase)
deriving DecidableEq

namespace Phrase

/-- Terminals are characters of XML text, nonterminals have names and do not stand in attributes,
and attributes stand in nonterminals. -/
def Valid (place : Place) : Phrase → Prop
  | nil => True
  | terminal codepoint rest => Text.isXmlChar codepoint = true ∧ rest.Valid place
  | excluded _ rest => rest.Valid place
  | nonterminal name content rest =>
    place ≠ .inAttribute ∧ name ≠ "" ∧ content.Valid .inNode ∧ rest.Valid place
  | attr _ content rest => place ≠ .outside ∧ content.Valid .inAttribute ∧ rest.Valid place

instance decidableValid : (place : Place) → (ph : Phrase) → Decidable (ph.Valid place)
  | _, nil => inferInstanceAs (Decidable True)
  | place, terminal codepoint rest =>
    have := decidableValid place rest
    inferInstanceAs (Decidable (Text.isXmlChar codepoint = true ∧ rest.Valid place))
  | place, excluded _ rest => decidableValid place rest
  | place, nonterminal name content rest =>
    have := decidableValid .inNode content
    have := decidableValid place rest
    inferInstanceAs (Decidable (place ≠ .inAttribute ∧ name ≠ "" ∧ content.Valid .inNode ∧
      rest.Valid place))
  | place, attr _ content rest =>
    have := decidableValid .inAttribute content
    have := decidableValid place rest
    inferInstanceAs (Decidable (place ≠ .outside ∧ content.Valid .inAttribute ∧ rest.Valid place))

/-- The stream that spells a phrase. -/
def events : Phrase → List Event
  | nil => []
  | terminal codepoint rest => .terminal codepoint :: rest.events
  | excluded length rest => .excluded length :: rest.events
  | nonterminal name content rest =>
    .startNonterminal name :: (content.events ++ .endNonterminal name :: rest.events)
  | attr name content rest =>
    .startAttribute name :: (content.events ++ .endAttribute :: rest.events)

end Phrase

/-! ## Open scopes -/

/-- A scope that has been opened and not closed. -/
inductive Opened where
  | node (name : String)
  | attr (name : String)
deriving DecidableEq

namespace Opened

/-- The place inside a scope. -/
def place : Opened → Place
  | node _ => .inNode
  | attr _ => .inAttribute

/-- The event that closes a scope. -/
def closing : Opened → Event
  | node name => .endNonterminal name
  | attr _ => .endAttribute

/-- The place inside the innermost scope. -/
def placeOf : List Opened → Place
  | [] => .outside
  | o :: _ => o.place

/-- The streams that close all open scopes, the innermost first. -/
def Completes : List Opened → List Event → Prop
  | [], es => ∃ ph : Phrase, ph.Valid .outside ∧ es = ph.events
  | o :: outer, es => ∃ (ph : Phrase) (rest : List Event), ph.Valid o.place ∧
      es = ph.events ++ o.closing :: rest ∧ Completes outer rest

/-- The open scopes after an event; nothing if the event is out of place. -/
def after? : List Opened → Event → Option (List Opened)
  | os, .startNonterminal name =>
    if placeOf os ≠ .inAttribute ∧ name ≠ "" then some (node name :: os) else none
  | node name :: outer, .endNonterminal found => if name = found then some outer else none
  | os, .startAttribute name => if placeOf os ≠ .outside then some (attr name :: os) else none
  | attr _ :: outer, .endAttribute => some outer
  | os, .terminal codepoint => if Text.isXmlChar codepoint then some os else none
  | os, .excluded _ => some os
  | _, _ => none

variable {os os' outer : List Opened} {o : Opened} {e : Event} {es rest : List Event} {ph : Phrase}

/-- What may follow an item in its row. -/
theorem completes_iff : Completes os es ↔
    ∃ (ph : Phrase) (rest : List Event), ph.Valid (placeOf os) ∧ es = ph.events ++ rest ∧
      match os with
      | [] => rest = []
      | o :: outer => ∃ rest', rest = o.closing :: rest' ∧ Completes outer rest' := by
  cases os with
  | nil =>
    constructor
    · rintro ⟨ph, hph, rfl⟩
      exact ⟨ph, [], hph, (List.append_nil _).symm, rfl⟩
    · rintro ⟨ph, rest, hph, rfl, rfl⟩
      exact ⟨ph, hph, List.append_nil _⟩
  | cons o outer =>
    constructor
    · rintro ⟨ph, rest, hph, rfl, hrest⟩
      exact ⟨ph, _, hph, rfl, rest, rfl, hrest⟩
    · rintro ⟨ph, _, hph, rfl, rest, rfl, hrest⟩
      exact ⟨ph, rest, hph, rfl, hrest⟩

/-- A stream that completes goes on after a row in front of it. -/
theorem Completes.prepend (h : Completes os es) (item : Phrase → Phrase) (front : List Event)
    (hvalid : ∀ ph : Phrase, ph.Valid (placeOf os) → (item ph).Valid (placeOf os))
    (hevents : ∀ ph : Phrase, (item ph).events = front ++ ph.events) :
    Completes os (front ++ es) := by
  obtain ⟨ph, rest, hph, rfl, hrest⟩ := completes_iff.mp h
  refine completes_iff.mpr ⟨item ph, rest, hvalid ph hph, ?_, hrest⟩
  rw [hevents, List.append_assoc]

/-- The scopes can be closed at once. -/
theorem completes_closing (os : List Opened) : Completes os (os.map closing) := by
  induction os with
  | nil => exact ⟨.nil, trivial, rfl⟩
  | cons o outer ih => exact ⟨.nil, _, trivial, rfl, ih⟩

/-- Nothing need follow if no scope is open. -/
theorem completes_nil : Completes os [] ↔ os = [] := by
  constructor
  · intro h
    cases os with
    | nil => rfl
    | cons o outer =>
      obtain ⟨ph, rest, -, heq, -⟩ := h
      exact absurd heq.symm (List.append_ne_nil_of_right_ne_nil _ (List.cons_ne_nil _ _))
  · rintro rfl
    exact completes_closing []

/-- What the machine does with the first event of a stream that completes. -/
theorem completes_step (h : Completes os (e :: es)) :
    ∃ os', after? os e = some os' ∧ Completes os' es := by
  obtain ⟨ph, rest, hph, heq, hrest⟩ := completes_iff.mp h
  cases ph with
  | nil =>
    cases os with
    | nil =>
      subst hrest
      cases heq
    | cons o outer =>
      obtain ⟨rest', rfl, hrest'⟩ := hrest
      obtain ⟨rfl, rfl⟩ := List.cons.inj heq
      refine ⟨outer, ?_, hrest'⟩
      cases o with
      | node name => exact if_pos rfl
      | attr name => rfl
  | terminal codepoint ph =>
    obtain ⟨rfl, rfl⟩ := List.cons.inj heq
    refine ⟨os, ?_, completes_iff.mpr ⟨ph, rest, hph.2, rfl, hrest⟩⟩
    show (if _ then _ else _) = _
    rw [if_pos hph.1]
  | excluded length ph =>
    obtain ⟨rfl, rfl⟩ := List.cons.inj heq
    exact ⟨os, rfl, completes_iff.mpr ⟨ph, rest, hph, rfl, hrest⟩⟩
  | nonterminal name content ph =>
    obtain ⟨rfl, rfl⟩ := List.cons.inj heq
    obtain ⟨hplace, hname, hcontent, hph⟩ := hph
    refine ⟨node name :: os, if_pos ⟨hplace, hname⟩, content, ph.events ++ rest, hcontent, ?_,
      completes_iff.mpr ⟨ph, rest, hph, rfl, hrest⟩⟩
    exact List.append_assoc _ _ _
  | attr name content ph =>
    obtain ⟨rfl, rfl⟩ := List.cons.inj heq
    obtain ⟨hplace, hcontent, hph⟩ := hph
    refine ⟨attr name :: os, if_pos hplace, content, ph.events ++ rest, hcontent, ?_,
      completes_iff.mpr ⟨ph, rest, hph, rfl, hrest⟩⟩
    exact List.append_assoc _ _ _

/-- An event that is in place goes in front of every stream that completes the scopes after it. -/
theorem completes_of_step (hstep : after? os e = some os') (h : Completes os' es) :
    Completes os (e :: es) := by
  unfold after? at hstep
  split at hstep
  · next name =>
    split at hstep
    · next hin =>
      cases hstep
      obtain ⟨content, rest, hcontent, rfl, hrest⟩ := h
      have := hrest.prepend (.nonterminal name content)
        (.startNonterminal name :: (content.events ++ [.endNonterminal name]))
        (fun ph hph => ⟨hin.1, hin.2, hcontent, hph⟩) (fun ph => by simp [Phrase.events])
      simpa [closing] using this
    · cases hstep
  · next name outer found =>
    split at hstep
    · next heq =>
      subst heq
      cases hstep
      exact ⟨.nil, es, trivial, rfl, h⟩
    · cases hstep
  · next name =>
    split at hstep
    · next hin =>
      cases hstep
      obtain ⟨content, rest, hcontent, rfl, hrest⟩ := h
      have := hrest.prepend (.attr name content)
        (.startAttribute name :: (content.events ++ [.endAttribute]))
        (fun ph hph => ⟨hin, hcontent, hph⟩) (fun ph => by simp [Phrase.events])
      simpa [closing] using this
    · cases hstep
  · next name outer =>
    cases hstep
    exact ⟨.nil, es, trivial, rfl, h⟩
  · next codepoint =>
    split at hstep
    · next hchar =>
      cases hstep
      exact h.prepend (.terminal codepoint) [.terminal codepoint]
        (fun ph hph => ⟨hchar, hph⟩) (fun ph => rfl)
    · cases hstep
  · next length =>
    cases hstep
    exact h.prepend (.excluded length) [.excluded length]
      (fun ph hph => hph) (fun ph => rfl)
  · cases hstep

/-- A stream completes open scopes if its first event is in place and the others complete what is
open then. -/
theorem completes_cons : Completes os (e :: es) ↔
    ∃ os', after? os e = some os' ∧ Completes os' es :=
  ⟨completes_step, fun ⟨_, hstep, h⟩ => completes_of_step hstep h⟩

end Opened

/-! ## The cursor -/

namespace Event

/-- How far an event moves the cursor where the attributes `scopes` are open, the innermost
first. -/
def advance (rule : AttributeCursor) (scopes : List String) : Event → Nat
  | terminal _ => if scopes.head?.all rule.advances then 1 else 0
  | excluded length => length
  | _ => 0

/-- The open attributes after an event. -/
def scopesAfter (scopes : List String) : Event → List String
  | startAttribute name => name :: scopes
  | endAttribute => scopes.tail
  | _ => scopes

/-- How far a stream moves the cursor. -/
def reach (rule : AttributeCursor) : List String → List Event → Nat
  | _, [] => 0
  | scopes, e :: es => e.advance rule scopes + reach rule (e.scopesAfter scopes) es

/-- The cursor does not move back. -/
theorem reach_le_append (rule : AttributeCursor) (scopes : List String) (es es' : List Event) :
    reach rule scopes es ≤ reach rule scopes (es ++ es') := by
  induction es generalizing scopes with
  | nil => exact Nat.zero_le _
  | cons e es ih => exact Nat.add_le_add_left (ih _) _

/-- Closing scopes moves nothing. -/
theorem reach_closing (rule : AttributeCursor) (scopes : List String) (os : List Opened) :
    reach rule scopes (os.map Opened.closing) = 0 := by
  induction os generalizing scopes with
  | nil => rfl
  | cons o outer ih =>
    have hzero : o.closing.advance rule scopes = 0 := by cases o <;> rfl
    rw [List.map_cons, reach, hzero, ih]

end Event

end Standoff
