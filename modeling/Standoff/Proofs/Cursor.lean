import Standoff.Proofs.Refusals

/-! # What the cursor counts

The cursor of a builder is how far the accepted events reach, whatever the target answers and
whatever was refused between them:

    cursor  =  lengths of the accepted excluded events
               + number of the accepted terminals that the innermost open attribute lets count

* `accepted`: the events that are accepted in a run that goes on after refusals.
* `Builder.Counts`, `Builder.cursor_counts`: the equation above, and the requests that are
  refused. -/

namespace Standoff

/-- The events that are accepted in a run that goes on after refusals. -/
def accepted {σ : Type} (handler : Handler σ) : σ → List Event → List Event
  | _, [] => []
  | state, e :: rest =>
    let r := handler state e
    match r.outcome with
    | .ok () => e :: accepted handler r.state rest
    | .error _ => accepted handler r.state rest

open Event

theorem Event.reach_append (rule : AttributeCursor) (scopes : List String) (es es' : List Event) :
    reach rule scopes (es ++ es') =
      reach rule scopes es + reach rule (es.foldl scopesAfter scopes) es' := by
  induction es generalizing scopes with
  | nil => exact (Nat.zero_add _).symm
  | cons e es ih => rw [List.cons_append, reach, ih, reach, List.foldl_cons, Nat.add_assoc]

/-- An event that asks for something is one that would move the cursor by as much. -/
theorem Event.advance_of_request {rule : AttributeCursor} {scopes : List String} {e : Event}
    {length : Nat} (h : e.request? rule scopes = some length) : e.advance rule scopes = length := by
  cases e with
  | terminal codepoint =>
    rw [request?] at h
    split at h
    · next hin =>
      cases h
      exact if_pos hin.2
    · cases h
  | excluded n =>
    cases h
    rfl
  | _ => cases h

namespace Builder

variable {τ : Type} {b : Builder τ} {d : Draft} {e : Event} {length : Nat}

/-! ## One event -/

theorem advance_terminal (b : Builder τ) (codepoint : Nat) :
    (Event.terminal codepoint).advance b.options.attributeCursor (b.scopes.map (·.name)) =
      if b.advances then 1 else 0 := by
  rw [advances_eq_head]
  rfl

theorem pushChar_keeps (b : Builder τ) (c : Char) :
    (b.pushChar c).cursor = b.cursor ∧
      (b.pushChar c).scopes.map (·.name) = b.scopes.map (·.name) := by
  unfold pushChar
  split
  · exact ⟨rfl, rfl⟩
  · next s outer hscopes =>
    rw [hscopes]
    exact ⟨rfl, rfl⟩

variable [MergeTarget τ]

theorem deliver_keeps (b : Builder τ) (n : OpenNode) :
    (b.deliver n).state.cursor = b.cursor ∧ (b.deliver n).state.scopes = b.scopes := by
  unfold deliver
  split
  · exact ⟨rfl, rfl⟩
  · unfold deliverTree
    dsimp only
    split <;> exact ⟨rfl, rfl⟩
  · unfold deliverElement
    dsimp only
    split
    · exact ⟨rfl, rfl⟩
    · split <;> exact ⟨rfl, rfl⟩

/-- An accepted event moves the cursor and the open attributes, another one does not. -/
theorem counts_step (b : Builder τ) (hopen : b.scopes ≠ [] → b.stack ≠ []) (e : Event) :
    let names := b.scopes.map (·.name)
    let taken := accepted Builder.handle b [e]
    (b.handle e).state.cursor = b.cursor + reach b.options.attributeCursor names taken ∧
      (b.handle e).state.scopes.map (·.name) = taken.foldl scopesAfter names ∧
      (b.cursor ≤ maxCursor → (b.handle e).state.cursor ≤ maxCursor) := by
  intro names taken
  have htaken : taken = match (b.apply e).outcome with
    | .ok () => [e]
    | .error _ => [] := rfl
  show (b.apply e).state.cursor = _ ∧ (b.apply e).state.scopes.map (·.name) = _ ∧
    (_ → (b.apply e).state.cursor ≤ maxCursor)
  have hdoes := b.apply_does e
  rw [htaken]
  generalize b.apply e = r at hdoes ⊢
  cases hdoes with
  | refuses e error _ _ => exact ⟨rfl, rfl, id⟩
  | overflows e length _ _ => exact ⟨rfl, rfl, id⟩
  | strays s scopes hscopes hstack =>
    exact absurd hstack (hopen (hscopes ▸ List.cons_ne_nil _ _))
  | opens name _ _ => exact ⟨rfl, rfl, id⟩
  | closes n outer _ _ =>
    -- the end of a nonterminal counts nothing, so it does not matter if the target takes it
    obtain ⟨hcursor, hscopes⟩ := deliver_keeps
      { b with stack := outer, pending := b.pending.setStop n.id b.cursor } n
    rw [hcursor, hscopes]
    split <;> exact ⟨rfl, rfl, id⟩
  | opensAttribute name _ => exact ⟨rfl, rfl, id⟩
  | closesAttribute n outer s scopes _ hscopes =>
    refine ⟨rfl, ?_, id⟩
    show scopes.map (·.name) = names.tail
    rw [show names = (s :: scopes).map (·.name) from congrArg _ hscopes]
    rfl
  | holds codepoint c _ hadv =>
    obtain ⟨hcursor, hscopes⟩ := b.pushChar_keeps c
    have hadvance := b.advance_terminal codepoint
    rw [hadv] at hadvance
    refine ⟨hcursor.trans ?_, hscopes, fun hle => hcursor ▸ hle⟩
    show b.cursor = b.cursor + (Event.advance _ _ _ + 0)
    rw [hadvance]
    rfl
  | counts codepoint c _ hadv hle =>
    obtain ⟨hcursor, hscopes⟩ := { b with cursor := b.cursor + 1 }.pushChar_keeps c
    have hadvance := b.advance_terminal codepoint
    rw [hadv] at hadvance
    refine ⟨hcursor.trans ?_, hscopes, fun _ => hcursor ▸ hle⟩
    show b.cursor + 1 = b.cursor + (Event.advance _ _ _ + 0)
    rw [hadvance]
    rfl
  | skips length hle => exact ⟨rfl, rfl, fun _ => hle⟩

/-- What asks for something is refused for the cursor only, and exactly if it would go too far. -/
theorem apply_request (hask : b.request? e = some length) :
    ((b.apply e).outcome = .error (.cursorOverflow length b.cursor) ↔
        maxCursor < b.cursor + length) ∧
      ∀ error, (b.apply e).outcome = .error error → error = .cursorOverflow length b.cursor := by
  have hdoes := b.apply_does e
  generalize b.apply e = r at hdoes ⊢
  cases hdoes with
  | refuses e error _ hno => cases hno.symm.trans hask
  | overflows e length' hask' hlt =>
    cases hask'.symm.trans hask
    refine ⟨iff_of_true rfl hlt, fun error h => ?_⟩
    cases h
    rfl
  | holds codepoint c _ hadv =>
    rw [request?_terminal, if_neg fun h => Bool.false_ne_true (hadv.symm.trans h.2)] at hask
    cases hask
  | counts codepoint c _ _ hle =>
    rw [request?_terminal] at hask
    split at hask
    · cases hask
      exact ⟨iff_of_false (fun h => by cases h) (Nat.not_lt.mpr hle), fun error h => by cases h⟩
    · cases hask
  | skips n hle =>
    cases hask
    exact ⟨iff_of_false (fun h => by cases h) (Nat.not_lt.mpr hle), fun error h => by cases h⟩
  | _ => cases hask

/-! ## Runs -/

/-- The accepted events move the cursor and the open attributes of a run. -/
theorem Follows.counts_run (h : b.Follows d) (hle : b.cursor ≤ maxCursor) (events : List Event) :
    let names := b.scopes.map (·.name)
    let taken := accepted Builder.handle b events
    let last := (Standoff.pursue Builder.handle b events).1
    last.cursor = b.cursor + reach b.options.attributeCursor names taken ∧
      last.scopes.map (·.name) = taken.foldl scopesAfter names ∧ last.cursor ≤ maxCursor := by
  induction events generalizing b d with
  | nil => exact ⟨rfl, rfl, hle⟩
  | cons e events ih =>
    obtain ⟨hfol, hoptions⟩ := h.handle e
    obtain ⟨hcursor, hnames, hle'⟩ := b.counts_step h.nested e
    obtain ⟨hcursor', hnames', hlast⟩ := ih hfol (hle' hle)
    have htaken : accepted Builder.handle b (e :: events) =
        accepted Builder.handle b [e] ++ accepted Builder.handle (b.handle e).state events := by
      simp only [accepted]
      cases (b.handle e).outcome <;> rfl
    refine ⟨?_, ?_, hlast⟩
    · rw [htaken, reach_append, ← Nat.add_assoc, ← hcursor, ← hnames, ← hoptions]
      exact hcursor'
    · rw [htaken, List.foldl_append, ← hnames]
      exact hnames'

/-- What the cursor of a builder tells after the events `taken` were accepted. -/
structure Counts (rule : AttributeCursor) (b : Builder τ) (taken : List Event) : Prop where
  cursor : b.cursor = reach rule [] taken
  bounded : b.cursor ≤ maxCursor
  scopes : b.scopes.map (·.name) = taken.foldl scopesAfter []
  /-- The cursor does not go back. -/
  forward : ∀ e, b.cursor ≤ (b.handle e).state.cursor
  /-- Whatever an event is refused for, the cursor stays. -/
  refused : ∀ e error, (b.handle e).outcome = .error error →
    (b.handle e).state.cursor = b.cursor
  /-- A request is refused exactly if the accepted events would reach too far with it. -/
  overflow : ∀ e length, e.request? rule (taken.foldl scopesAfter []) = some length →
    ((b.handle e).outcome = .error (.cursorOverflow length b.cursor) ↔
      maxCursor < reach rule [] (taken ++ [e]))
  /-- There is no other reason to refuse a request. -/
  only : ∀ e length, e.request? rule (taken.foldl scopesAfter []) = some length →
    ∀ error, (b.handle e).outcome = .error error → error = .cursorOverflow length b.cursor

/-- In every state that a builder reaches, over any target and after any refusals, the cursor is how
far the accepted events reach, and the events that would reach too far are those that it refuses
for the cursor. -/
theorem cursor_counts (τ : Type) [MergeTarget τ] (target : τ) (options : Options)
    (events : List Event) :
    (pursue handle (start target options) events).1.Counts options.attributeCursor
      (accepted handle (start target options) events) := by
  have hstart : (start target options).Follows {} := follows_start target options
  obtain ⟨hcursor, hnames, hbounded⟩ := hstart.counts_run (Nat.zero_le _) events
  obtain ⟨hfol, hoptions⟩ := hstart.pursue events
  have hopen := hfol.nested
  generalize accepted handle (start target options) events = taken at hcursor hnames ⊢
  generalize (pursue handle (start target options) events).1 = b at *
  have hcursor : b.cursor = reach options.attributeCursor [] taken :=
    hcursor.trans (Nat.zero_add _)
  have hrequest (e : Event) (length : Nat)
      (h : e.request? options.attributeCursor (taken.foldl scopesAfter []) = some length) :
      b.request? e = some length := by
    rw [request?, hoptions]
    exact hnames ▸ h
  refine ⟨hcursor, hbounded, hnames, fun e => ?_, fun e error hout => ?_, fun e length hask => ?_,
    fun e length hask => (apply_request (hrequest e length hask)).2⟩
  · rw [(b.counts_step hopen e).1]
    exact Nat.le_add_right _ _
  · rw [(b.counts_step hopen e).1, accepted, hout]
    rfl
  · have hreach : reach options.attributeCursor [] (taken ++ [e]) = b.cursor + length := by
      rw [reach_append, ← hcursor, reach, reach, advance_of_request hask, Nat.add_zero]
    rw [hreach]
    exact (apply_request (hrequest e length hask)).1

/-- A qualified attribute in one that is not, and a text that is as long as the cursor can count:
no more goes in, and the root that does not fit into its document does not change the cursor. -/
theorem cursor_counts_full :
    let events : List Event := [.startNonterminal "p", .startAttribute "a", .terminal 120,
      .startAttribute "b:c", .terminal 121, .terminal 7, .endAttribute, .terminal 122,
      .endAttribute, .excluded (maxCursor - 2)]
    let options : Options := { attributeCursor := .unqualified }
    let b := (pursue handle (start (Document.ofText "abc") options) events).1
    b.cursor = maxCursor ∧
      (b.handle (.terminal 97)).outcome = .error (.cursorOverflow 1 b.cursor) ∧
      (b.handle (.endNonterminal "p")).outcome =
        .error (.conflict ⟨"p", ⟨0, maxCursor⟩, .outOfBounds 3⟩) ∧
      (b.handle (.endNonterminal "p")).state.cursor = b.cursor := by
  intro events options b
  have hcounts : b.Counts .unqualified _ :=
    cursor_counts Document (Document.ofText "abc") options events
  have htaken : accepted handle (start (Document.ofText "abc") options) events =
      [.startNonterminal "p", .startAttribute "a", .terminal 120, .startAttribute "b:c",
        .terminal 121, .endAttribute, .terminal 122, .endAttribute,
        .excluded (maxCursor - 2)] := by decide +kernel
  rw [htaken] at hcounts
  have hconflict : (b.handle (.endNonterminal "p")).outcome =
      .error (.conflict ⟨"p", ⟨0, maxCursor⟩, .outOfBounds 3⟩) := by decide +kernel
  exact ⟨hcounts.cursor.trans (by decide +kernel),
    (hcounts.overflow (.terminal 97) 1 (by decide +kernel)).mpr (by decide +kernel), hconflict,
    hcounts.refused _ _ hconflict⟩

end Builder

end Standoff
