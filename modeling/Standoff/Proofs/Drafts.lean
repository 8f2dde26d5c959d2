import Standoff.Builder
import Standoff.Proofs.Slots

/-! # Drafts: what a builder knows apart from its target

A draft is a builder without arena and target: the open nonterminals as values, each over the
trees of those closed below it.  It says which events are refused, whatever the target does.

    start    a nonterminal opens
    stay     the cursor, a scope or an attribute changes
    close    a nonterminal leaves the stack and is delivered

* `Draft.move?`: what an event does to a draft.
* `Builder.Follows`: a builder agrees with a draft.
* `Builder.apply_refused`, `Builder.apply_start`, `Builder.apply_stay`, `Builder.apply_close`:
  the builder takes every event as the draft does. -/

namespace Standoff

/-! ## Drafts -/

/-- An open nonterminal over the trees that closed directly below it. -/
structure Frame where
  element : Element
  kids : Forest Element
deriving DecidableEq

structure Draft where
  /-- The open nonterminals, the innermost first. -/
  frames : List Frame := []
  scopes : List AttributeScope := []
  cursor : Nat := 0
  /-- The trees of the roots that have closed. -/
  roots : Forest Element := .nil
deriving DecidableEq

/-- What an event that is not refused does to a draft. -/
inductive Move where
  | start (d : Draft)
  | stay (d : Draft)
  /-- The frame has left the stack and is to be delivered. -/
  | close (f : Frame) (d : Draft)
deriving DecidableEq

namespace Frame

/-- The tree of a closed frame, as a row. -/
def tree (f : Frame) : Forest Element := .node f.element f.kids .nil

/-- The frame with its span ended. -/
def endAt (f : Frame) (pos : Nat) : Frame :=
  { f with element := { f.element with span := { f.element.span with stop := pos } } }

def setAttribute (f : Frame) (s : AttributeScope) : Frame :=
  { f with element := { f.element with attributes := f.element.attributes.set s.name s.value } }

end Frame

namespace Draft

/-- A terminal moves the cursor now. -/
def advances (rule : AttributeCursor) (d : Draft) : Bool :=
  match d.scopes with
  | [] => true
  | s :: _ => rule.advances s.name

/-- The draft with the cursor moved, unless that would be too far. -/
def advanced? (d : Draft) (length : Nat) : Option Draft :=
  if d.cursor + length ≤ maxCursor then some { d with cursor := d.cursor + length }
  else none

def pushChar (d : Draft) (c : Char) : Draft :=
  match d.scopes with
  | [] => d
  | s :: outer => { d with scopes := { s with value := s.value.push c } :: outer }

/-- What an event does; nothing if it is refused. -/
def move? (rule : AttributeCursor) (d : Draft) : Event → Option Move
  | .startNonterminal name =>
    match d.scopes with
    | _ :: _ => none
    | [] =>
      if name = "" then none
      else some (.start { d with frames := ⟨⟨name, .emptyAt d.cursor, {}⟩, .nil⟩ :: d.frames })
  | .endNonterminal name =>
    match d.frames, d.scopes with
    | f :: outer, [] =>
      if f.element.name = name then some (.close (f.endAt d.cursor) { d with frames := outer })
      else none
    | _, _ => none
  | .startAttribute name =>
    match d.frames with
    | [] => none
    | _ :: _ => some (.stay { d with scopes := { name := name } :: d.scopes })
  | .endAttribute =>
    match d.scopes, d.frames with
    | s :: scopes, f :: outer =>
      some (.stay { d with scopes := scopes, frames := f.setAttribute s :: outer })
    | _, _ => none
  | .terminal codepoint =>
    (Text.contentChar? codepoint).bind fun c =>
      (if d.advances rule then d.advanced? 1 else some d).map fun d => .stay (d.pushChar c)
  | .excluded length => (d.advanced? length).map .stay

/-- Everything that an event can do to a draft. -/
theorem move_cases {rule : AttributeCursor} {d : Draft} {e : Event} {mv : Move}
    (h : d.move? rule e = some mv) :
    (∃ name, e = .startNonterminal name ∧ name ≠ "" ∧ d.scopes = [] ∧
        mv = .start { d with frames := ⟨⟨name, .emptyAt d.cursor, {}⟩, .nil⟩ :: d.frames }) ∨
      (∃ f outer, e = .endNonterminal f.element.name ∧ d.frames = f :: outer ∧ d.scopes = [] ∧
        mv = .close (f.endAt d.cursor) { d with frames := outer }) ∨
      (∃ name, e = .startAttribute name ∧ d.frames ≠ [] ∧
        mv = .stay { d with scopes := { name := name } :: d.scopes }) ∨
      (∃ s scopes f outer, e = .endAttribute ∧ d.scopes = s :: scopes ∧ d.frames = f :: outer ∧
        mv = .stay { d with scopes := scopes, frames := f.setAttribute s :: outer }) ∨
      (∃ codepoint c d₁, e = .terminal codepoint ∧ Text.contentChar? codepoint = some c ∧
        (if d.advances rule then d.advanced? 1 else some d) = some d₁ ∧
        mv = .stay (d₁.pushChar c)) ∨
      ∃ length d₁, e = .excluded length ∧ d.advanced? length = some d₁ ∧ mv = .stay d₁ := by
  cases e with
  | startNonterminal name =>
    simp only [move?] at h
    split at h
    · cases h
    · next hs =>
      split at h
      · cases h
      · next hname =>
        cases h
        exact Or.inl ⟨name, rfl, hname, hs, rfl⟩
  | endNonterminal name =>
    simp only [move?] at h
    split at h
    · next f outer hf hs =>
      split at h
      · next hname =>
        cases h
        exact Or.inr (Or.inl ⟨f, outer, by rw [hname], hf, hs, rfl⟩)
      · cases h
    · cases h
  | startAttribute name =>
    simp only [move?] at h
    split at h
    · cases h
    · next f outer hf =>
      cases h
      exact Or.inr (Or.inr (Or.inl ⟨name, rfl, hf ▸ List.cons_ne_nil _ _, rfl⟩))
  | endAttribute =>
    simp only [move?] at h
    split at h
    · next s scopes f outer hs hf =>
      cases h
      exact Or.inr (Or.inr (Or.inr (Or.inl ⟨s, scopes, f, outer, rfl, hs, hf, rfl⟩)))
    · cases h
  | terminal codepoint =>
    right; right; right; right; left
    rw [move?] at h
    obtain ⟨c, hc, h⟩ := Option.bind_eq_some_iff.mp h
    obtain ⟨d₁, hd₁, rfl⟩ := Option.map_eq_some_iff.mp h
    exact ⟨codepoint, c, d₁, rfl, hc, hd₁, rfl⟩
  | excluded length =>
    right; right; right; right; right
    rw [move?] at h
    obtain ⟨d₁, hd₁, rfl⟩ := Option.map_eq_some_iff.mp h
    exact ⟨length, d₁, rfl, hd₁, rfl⟩

theorem start_cases {rule : AttributeCursor} {d d' : Draft} {e : Event}
    (h : d.move? rule e = some (.start d')) : ∃ name, e = .startNonterminal name ∧ name ≠ "" ∧
      d.scopes = [] ∧
      d' = { d with frames := ⟨⟨name, .emptyAt d.cursor, {}⟩, .nil⟩ :: d.frames } := by
  rcases move_cases h with ⟨name, he, hname, hs, hd⟩ | ⟨_, _, _, _, _, hd⟩ |
    ⟨_, _, _, hd⟩ | ⟨_, _, _, _, _, _, _, hd⟩ | ⟨_, _, _, _, _, _, hd⟩ | ⟨_, _, _, _, hd⟩
  · cases hd
    exact ⟨name, he, hname, hs, rfl⟩
  all_goals cases hd

theorem close_cases {rule : AttributeCursor} {d d' : Draft} {e : Event} {f : Frame}
    (h : d.move? rule e = some (.close f d')) :
    ∃ g outer, e = .endNonterminal g.element.name ∧ d.frames = g :: outer ∧ d.scopes = [] ∧
      f = g.endAt d.cursor ∧ d' = { d with frames := outer } := by
  rcases move_cases h with ⟨_, _, _, _, hd⟩ | ⟨g, outer, he, hf, hs, hd⟩ |
    ⟨_, _, _, hd⟩ | ⟨_, _, _, _, _, _, _, hd⟩ | ⟨_, _, _, _, _, _, hd⟩ | ⟨_, _, _, _, hd⟩
  · cases hd
  · cases hd
    exact ⟨g, outer, he, hf, hs, rfl, rfl⟩
  all_goals cases hd

/-- The end of a nonterminal closes one. -/
theorem end_closes {rule : AttributeCursor} {d : Draft} {name : String} {mv : Move}
    (h : d.move? rule (.endNonterminal name) = some mv) : ∃ f d', mv = .close f d' := by
  rcases move_cases h with ⟨_, he, _⟩ | ⟨_, _, _, _, _, hd⟩ | ⟨_, he, _⟩ | ⟨_, _, _, _, he, _⟩ |
    ⟨_, _, _, he, _⟩ | ⟨_, _, he, _⟩
  · cases he
  · exact ⟨_, _, hd⟩
  · cases he
  · cases he
  · cases he
  · cases he

theorem advanced?_le {d d' : Draft} {length : Nat} (h : d.advanced? length = some d') :
    d' = { d with cursor := d.cursor + length } := by
  rw [advanced?] at h
  split at h
  · exact (Option.some.inj h).symm
  · cases h

theorem pushChar_frames (d : Draft) (c : Char) :
    (d.pushChar c).frames = d.frames ∧ (d.pushChar c).cursor = d.cursor ∧
      (d.pushChar c).roots = d.roots := by
  unfold pushChar
  split <;> exact ⟨rfl, rfl, rfl⟩

/-- An event that opens and closes nothing keeps the nonterminals but for attributes. -/
theorem stay_cases {rule : AttributeCursor} {d d' : Draft} {e : Event}
    (h : d.move? rule e = some (.stay d')) :
    d.cursor ≤ d'.cursor ∧ d'.roots = d.roots ∧
      List.Forall₂ (fun f g => g.kids = f.kids ∧ g.element.span = f.element.span)
        d.frames d'.frames := by
  have hrefl (fs : List Frame) :
      List.Forall₂ (fun f g : Frame => g.kids = f.kids ∧ g.element.span = f.element.span) fs fs :=
    List.forall₂_same.mpr fun _ _ => ⟨rfl, rfl⟩
  rcases move_cases h with ⟨_, _, _, _, hd⟩ | ⟨_, _, _, _, _, hd⟩ |
    ⟨name, rfl, hf, hd⟩ | ⟨s, scopes, f, outer, rfl, hs, hf, hd⟩ |
    ⟨codepoint, c, d₁, rfl, hc, hd₁, hd⟩ | ⟨length, d₁, rfl, hd₁, hd⟩
  · cases hd
  · cases hd
  · cases hd
    exact ⟨Nat.le_refl _, rfl, hrefl _⟩
  · cases hd
    rw [hf]
    exact ⟨Nat.le_refl _, rfl, .cons ⟨rfl, rfl⟩ (hrefl _)⟩
  · cases hd
    obtain ⟨hframes, hcursor, hroots⟩ := pushChar_frames d₁ c
    rw [hframes, hcursor, hroots]
    split at hd₁
    · obtain rfl := advanced?_le hd₁
      exact ⟨Nat.le_add_right _ _, rfl, hrefl _⟩
    · cases hd₁
      exact ⟨Nat.le_refl _, rfl, hrefl _⟩
  · cases hd
    obtain rfl := advanced?_le hd₁
    exact ⟨Nat.le_add_right _ _, rfl, hrefl _⟩

/-- The draft with a closed frame in its place. -/
def attach (f : Frame) (d : Draft) : Draft :=
  match d.frames with
  | [] => { d with roots := d.roots ++ f.tree }
  | g :: outer => { d with frames := { g with kids := g.kids ++ f.tree } :: outer }

variable {f g : Frame} {d : Draft} {outer : List Frame}

theorem attach_of_nil (h : d.frames = []) :
    d.attach f = { d with roots := d.roots ++ f.tree } := by
  unfold attach
  rw [h]

theorem attach_of_cons (h : d.frames = g :: outer) :
    d.attach f = { d with frames := { g with kids := g.kids ++ f.tree } :: outer } := by
  unfold attach
  rw [h]

end Draft

/-! ## Builders that follow a draft -/

namespace Builder

variable {τ : Type} {b b' : Builder τ} {d d' : Draft} {f : Frame} {e : Event}

/-- What waits below an open nonterminal: nothing if delivery is incremental. -/
def held (options : Options) (kids : Forest Element) : Forest Element :=
  match options.merge with
  | .deferred => kids
  | .incremental => .nil

theorem held_deferred {options : Options} (h : options.merge = .deferred)
    (kids : Forest Element) : held options kids = kids := by
  rw [held, h]

theorem held_incremental {options : Options} {kids : Forest Element}
    (h : options.merge = .incremental) : held options kids = .nil := by
  rw [held, h]

/-- The claims of the open nonterminals, the innermost first. -/
def claims (b : Builder τ) : List (List NodeId) := b.stack.map (·.claimed)

theorem claims_cons {n : OpenNode} {stack : List OpenNode} (h : b.stack = n :: stack) :
    b.claims = n.claimed :: stack.map (·.claimed) := by
  rw [claims, h]
  rfl

/-- The builder agrees with the draft. -/
structure Follows (b : Builder τ) (d : Draft) : Prop where
  scopes : b.scopes = d.scopes
  cursor : b.cursor = d.cursor
  outside : d.frames = [] → d.scopes = []
  rows : ∃ w : Arena.Waiting, b.pending.Represents w ∧ w.map (·.1) = b.stack.map (·.id) ∧
    List.Forall₂ (fun r f => b.pending.element r.1 = f.element ∧
      r.2.map b.pending.element = held b.options f.kids) w d.frames

/-- The two builders agree on what they have delivered, and on how. -/
structure Agrees (b b' : Builder τ) : Prop where
  target : b'.target = b.target
  options : b'.options = b.options
  roots : b'.roots = b.roots
  merged : b'.merged = b.merged

theorem Agrees.refl (b : Builder τ) : b.Agrees b := ⟨rfl, rfl, rfl, rfl⟩

theorem Agrees.trans {b'' : Builder τ} (h₁ : b.Agrees b') (h₂ : b'.Agrees b'') : b.Agrees b'' :=
  ⟨h₂.target.trans h₁.target, h₂.options.trans h₁.options, h₂.roots.trans h₁.roots,
    h₂.merged.trans h₁.merged⟩

theorem follows_start (target : τ) (options : Options) :
    Follows ({ target := target, options := options } : Builder τ) {} := by
  refine ⟨rfl, rfl, fun _ => rfl, [], ⟨?_, ?_, ?_, ?_⟩, rfl, .nil⟩
  · exact List.nodup_nil
  · exact fun _ hx => absurd hx (List.not_mem_nil)
  · exact fun _ hr => absurd hr (List.not_mem_nil)
  · exact fun _ hr => absurd hr (List.not_mem_nil)

namespace Follows

theorem stack_nil_iff (h : b.Follows d) : b.stack = [] ↔ d.frames = [] := by
  obtain ⟨w, -, hids, hrows⟩ := h.rows
  have hlen := hrows.length_eq
  have hlen' := congrArg List.length hids
  rw [List.length_map, List.length_map] at hlen'
  rw [← List.length_eq_zero_iff, ← List.length_eq_zero_iff, ← hlen, hlen']

/-- The innermost nonterminal of both. -/
theorem cons {outer : List Frame} (h : b.Follows d) (hd : d.frames = f :: outer) :
    ∃ n stack r w, b.stack = n :: stack ∧ b.pending.Represents (r :: w) ∧ r.1 = n.id ∧
      w.map (·.1) = stack.map (·.id) ∧ b.pending.element n.id = f.element ∧
      r.2.map b.pending.element = held b.options f.kids ∧
      List.Forall₂ (fun r f => b.pending.element r.1 = f.element ∧
        r.2.map b.pending.element = held b.options f.kids) w outer := by
  obtain ⟨w, hw, hids, hrows⟩ := h.rows
  rw [hd] at hrows
  cases hrows with
  | cons hr hrest =>
    rename_i r w
    cases hstack : b.stack with
    | nil =>
      rw [hstack] at hids
      cases hids
    | cons n stack =>
      rw [hstack] at hids
      obtain ⟨hid, hids⟩ := List.cons.inj hids
      have hid : r.1 = n.id := hid
      exact ⟨n, stack, r, w, rfl, hw, hid, hids, hid ▸ hr.1, hr.2, hrest⟩

end Follows

theorem nameOf_eq (b : Builder τ) (n : OpenNode) : b.nameOf n = (b.pending.element n.id).name := by
  rw [nameOf, Arena.name?, Arena.element]
  cases b.pending.slot? n.id with
  | none => rfl
  | some s => rfl

/-- Rows whose slots keep their content are rows of the same trees. -/
theorem forall₂_congr {a a' : Arena} {w : Arena.Waiting} {frames : List Frame} {options : Options}
    (h : List.Forall₂ (fun r f => a.element r.1 = f.element ∧
      r.2.map a.element = held options f.kids) w frames)
    (ha : ∀ x ∈ w.slots, a'.element x = a.element x) :
    List.Forall₂ (fun r f => a'.element r.1 = f.element ∧
      r.2.map a'.element = held options f.kids) w frames := by
  induction h with
  | nil => exact .nil
  | @cons r f w frames hr hrest ih =>
    have hmem : r ∈ r :: w := List.mem_cons_self ..
    refine .cons ⟨?_, ?_⟩ (ih fun x hx => ha x ?_)
    · rw [ha _ (Arena.mem_slots hmem (Or.inl rfl))]
      exact hr.1
    · rw [← hr.2]
      exact Forest.map_congr fun x hx => ha x (Arena.mem_slots hmem (Or.inr hx))
    · rw [Arena.Waiting.slots, List.flatMap_cons]
      exact List.mem_append_right _ hx

/-! ## Events that are refused -/

theorem advances_eq (h : b.Follows d) : b.advances = d.advances b.options.attributeCursor := by
  have hs := h.scopes
  cases hd : d.scopes with
  | nil =>
    rw [hd] at hs
    simp only [advances, Draft.advances, hs, hd]
  | cons s outer =>
    rw [hd] at hs
    simp only [advances, Draft.advances, hs, hd]

/-- The builder refuses what the draft refuses, and stays as it is. -/
theorem apply_refused [MergeTarget τ] (h : b.Follows d)
    (hm : d.move? b.options.attributeCursor e = none) :
    ∃ error, b.apply e = .refuse b error := by
  cases e with
  | startNonterminal name =>
    rw [apply, startNonterminal, h.scopes]
    by_cases hname : name = ""
    · rw [if_pos hname]
      exact ⟨_, rfl⟩
    · rw [if_neg hname]
      cases hs : d.scopes with
      | nil => simp [Draft.move?, hs, hname] at hm
      | cons s outer => exact ⟨_, rfl⟩
  | endNonterminal name =>
    rw [apply, endNonterminal]
    cases hf : d.frames with
    | nil =>
      rw [h.stack_nil_iff.mpr hf]
      exact ⟨_, rfl⟩
    | cons f outer =>
      obtain ⟨n, stack, r, w, hstack, -, -, -, helement, -, -⟩ := h.cons hf
      rw [hstack]
      simp only
      rw [nameOf_eq, helement]
      by_cases hname : f.element.name = name
      · rw [if_neg (not_not_intro hname), h.scopes]
        cases hs : d.scopes with
        | nil => simp [Draft.move?, hf, hs, hname] at hm
        | cons s outer => exact ⟨_, rfl⟩
      · rw [if_pos hname]
        exact ⟨_, rfl⟩
  | startAttribute name =>
    rw [apply, startAttribute]
    cases hf : d.frames with
    | nil =>
      rw [h.stack_nil_iff.mpr hf]
      exact ⟨_, rfl⟩
    | cons f outer => simp [Draft.move?, hf] at hm
  | endAttribute =>
    rw [apply, endAttribute, h.scopes]
    cases hs : d.scopes with
    | nil => exact ⟨_, rfl⟩
    | cons s scopes =>
      cases hf : d.frames with
      | nil =>
        rw [h.outside hf] at hs
        cases hs
      | cons f outer => simp [Draft.move?, hs, hf] at hm
  | terminal codepoint =>
    rw [apply, terminal]
    cases hc : Text.contentChar? codepoint with
    | none => exact ⟨_, rfl⟩
    | some c =>
      rw [Draft.move?, hc, Option.bind_some, Option.map_eq_none_iff, ← advances_eq h] at hm
      simp only
      cases ha : b.advances with
      | false => simp [ha] at hm
      | true =>
        simp only [ha, if_true, Draft.advanced?] at hm ⊢
        rw [advanced, h.cursor]
        split at hm
        · cases hm
        · next hle =>
          rw [if_neg hle]
          exact ⟨_, rfl⟩
  | excluded length =>
    rw [Draft.move?, Option.map_eq_none_iff, Draft.advanced?] at hm
    rw [apply, excluded, advanced, h.cursor]
    split at hm
    · cases hm
    · next hle =>
      rw [if_neg hle]
      exact ⟨_, rfl⟩

/-! ## Events that deliver nothing -/

theorem startNonterminal_eq {name : String} (hname : name ≠ "") (hs : b.scopes = []) :
    b.startNonterminal name = .accept { b with
      pending := (b.pending.allocElement name (.emptyAt b.cursor)).1
      stack := ⟨(b.pending.allocElement name (.emptyAt b.cursor)).2, []⟩ :: b.stack } [] := by
  unfold startNonterminal
  rw [if_neg hname]
  split
  · next hcons =>
    rw [hs] at hcons
    cases hcons
  · rfl

/-- A nonterminal opens in both. -/
theorem apply_start [MergeTarget τ] (h : b.Follows d)
    (hm : d.move? b.options.attributeCursor e = some (.start d')) :
    ∃ b', b.apply e = .accept b' [] ∧ b'.Follows d' ∧ b.Agrees b' ∧
      b'.claims = [] :: b.claims := by
  rcases Draft.move_cases hm with ⟨name, rfl, hname, hs, hd⟩ | ⟨_, _, _, _, _, hd⟩ |
    ⟨_, _, _, hd⟩ | ⟨_, _, _, _, _, _, _, hd⟩ | ⟨_, _, _, _, _, _, hd⟩ | ⟨_, _, _, _, hd⟩
  · cases hd
    obtain ⟨w, hw, hids, hrows⟩ := h.rows
    have hw' : ({ b.pending with names := (b.pending.names.intern name).1 } :
        Arena).Represents w := hw.congr rfl rfl fun _ _ => ⟨rfl, rfl⟩
    obtain ⟨hnew, hself, hothers⟩ := Arena.represents_alloc hw'
      { element := ⟨name, .emptyAt b.cursor, {}⟩ } rfl
    refine ⟨_, startNonterminal_eq hname (h.scopes.trans hs), ⟨h.scopes, h.cursor,
      fun hnil => (List.cons_ne_nil _ _ hnil).elim, _, hnew, ?_, ?_⟩, ⟨rfl, rfl, rfl, rfl⟩, rfl⟩
    · rw [List.map_cons, hids]
      rfl
    · refine .cons ⟨?_, ?_⟩ (forall₂_congr hrows hothers)
      · rw [← h.cursor]
        exact hself
      · rw [held]
        split <;> rfl
  · cases hd
  · cases hd
  · cases hd
  · cases hd
  · cases hd

theorem advanced_eq (h : b.Follows d) {length : Nat} (hd : d.advanced? length = some d') :
    ∃ b', b.advanced length = .ok b' ∧ b'.Follows d' ∧ b.Agrees b' ∧ b'.claims = b.claims := by
  rw [Draft.advanced?] at hd
  rw [advanced, h.cursor]
  split at hd
  · next hle =>
    cases hd
    rw [if_pos hle]
    exact ⟨_, rfl, ⟨h.scopes, rfl, h.outside, h.rows⟩, ⟨rfl, rfl, rfl, rfl⟩, rfl⟩
  · cases hd

theorem pushChar_eq (h : b.Follows d) (c : Char) : (b.pushChar c).Follows (d.pushChar c) ∧
    b.Agrees (b.pushChar c) ∧ (b.pushChar c).claims = b.claims := by
  rw [pushChar, Draft.pushChar, h.scopes]
  cases hs : d.scopes with
  | nil => exact ⟨h, .refl b, rfl⟩
  | cons s outer =>
    refine ⟨⟨rfl, h.cursor, fun hf => ?_, h.rows⟩, ⟨rfl, rfl, rfl, rfl⟩, rfl⟩
    rw [h.outside hf] at hs
    cases hs

/-- The content of the innermost nonterminal changes. -/
theorem Follows.update (h : b.Follows d) {n : OpenNode} {stack : List OpenNode} {outer : List Frame}
    (hstack : b.stack = n :: stack) (hf : d.frames = f :: outer) (u : Slot → Slot)
    (hu : ∀ s, (u s).links = s.links) (scopes : List AttributeScope) (g : Frame)
    (hg : g.kids = f.kids) (hue : ∀ s, s.element = f.element → (u s).element = g.element)
    (names : NamePool) :
    ({ b with scopes := scopes
              pending := { b.pending with names := names }.update n.id u } : Builder τ).Follows
      { d with scopes := scopes, frames := g :: outer } := by
  obtain ⟨n', stack', r, w, hstack', hw, hid, hids, helement, hkids, hrest⟩ := h.cons hf
  obtain ⟨rfl, rfl⟩ := List.cons.inj (hstack.symm.trans hstack')
  have hw₁ : ({ b.pending with names := names } : Arena).Represents (r :: w) :=
    hw.congr rfl rfl fun _ _ => ⟨rfl, rfl⟩
  have hother : ∀ x, n.id ≠ x →
      ({ b.pending with names := names }.update n.id u).element x = b.pending.element x := by
    intro x hx
    rw [Arena.element, Arena.slot?_update, if_neg hx]
    rfl
  have hnodup := hw.distinct
  simp only [Arena.Waiting.slots, List.flatMap_cons, List.cons_append, List.append_assoc,
    hid] at hnodup
  have hnotin := (List.nodup_cons.mp hnodup).1
  have hself : ({ b.pending with names := names }.update n.id u).element n.id = g.element := by
    obtain ⟨s, hs⟩ := Arena.slot?_isSome (hw₁.lt_size (Arena.mem_slots (List.mem_cons_self ..)
      (Or.inl hid.symm)))
    have hse : s.element = f.element := by
      have hs' : b.pending.slot? n.id = some s := hs
      rw [← helement, Arena.element, hs']
      rfl
    rw [Arena.element, Arena.slot?_update, if_pos rfl, hs]
    exact hue s hse
  refine ⟨rfl, h.cursor, fun hnil => (List.cons_ne_nil _ _ hnil).elim, r :: w, hw₁.update _ _ hu,
    ?_, .cons ⟨?_, ?_⟩ (forall₂_congr hrest fun x hx => hother x ?_)⟩
  · rw [List.map_cons, hid, hids]
    exact (congrArg (List.map (·.id)) hstack).symm
  · rw [hid]
    exact hself
  · rw [hg, ← hkids]
    refine Forest.map_congr fun x hx => hother x ?_
    rintro rfl
    exact hnotin (List.mem_append_left _ hx)
  · rintro rfl
    exact hnotin (List.mem_append_right _ (List.mem_append_left _ hx))

theorem startAttribute_eq {name : String} (hstack : b.stack ≠ []) :
    b.startAttribute name = .accept { b with scopes := { name := name } :: b.scopes } [] := by
  unfold startAttribute
  split
  · next hnil => exact absurd hnil hstack
  · rfl

theorem endAttribute_eq {n : OpenNode} {stack : List OpenNode} {s : AttributeScope}
    {scopes : List AttributeScope} (hstack : b.stack = n :: stack)
    (hs : b.scopes = s :: scopes) :
    b.endAttribute = .accept { b with
      scopes := scopes, pending := b.pending.setAttribute n.id s.name s.value } [] := by
  unfold endAttribute
  rw [hs, hstack]

/-- The cursor, a scope or an attribute changes in both. -/
theorem apply_stay [MergeTarget τ] (h : b.Follows d)
    (hm : d.move? b.options.attributeCursor e = some (.stay d')) :
    ∃ b', b.apply e = .accept b' [] ∧ b'.Follows d' ∧ b.Agrees b' ∧ b'.claims = b.claims := by
  rcases Draft.move_cases hm with ⟨_, _, _, _, hd⟩ | ⟨_, _, _, _, _, hd⟩ |
    ⟨name, rfl, hf, hd⟩ | ⟨s, scopes, f, outer, rfl, hs, hf, hd⟩ |
    ⟨codepoint, c, d₁, rfl, hc, hd₁, hd⟩ | ⟨length, d₁, rfl, hd₁, hd⟩
  · cases hd
  · cases hd
  · cases hd
    refine ⟨_, startAttribute_eq fun hnil => hf (h.stack_nil_iff.mp hnil),
      ⟨?_, h.cursor, fun hnil => absurd hnil hf, h.rows⟩, ⟨rfl, rfl, rfl, rfl⟩, rfl⟩
    rw [h.scopes]
  · cases hd
    obtain ⟨n, stack, _, _, hstack, -⟩ := h.cons hf
    refine ⟨_, endAttribute_eq hstack (h.scopes.trans hs), ?_, ⟨rfl, rfl, rfl, rfl⟩, rfl⟩
    refine h.update hstack hf (fun t => { t with element :=
      { t.element with attributes := t.element.attributes.set s.name s.value } }) (fun _ => rfl)
      scopes (f.setAttribute s) rfl (fun t ht => ?_) (b.pending.names.intern s.name).1
    rw [Frame.setAttribute, ← ht]
  · cases hd
    rw [apply, terminal, hc]
    simp only
    rw [← advances_eq h] at hd₁
    cases ha : b.advances with
    | false =>
      rw [ha] at hd₁
      cases hd₁
      exact ⟨_, rfl, pushChar_eq h c⟩
    | true =>
      rw [ha] at hd₁
      obtain ⟨b₁, hb₁, hfol, hagree, hclaims⟩ := advanced_eq h hd₁
      obtain ⟨hfol', hagree', hclaims'⟩ := pushChar_eq hfol c
      simp only [if_true, hb₁]
      exact ⟨_, rfl, hfol', hagree.trans hagree', hclaims'.trans hclaims⟩
  · cases hd
    obtain ⟨b₁, hb₁, hfol, hagree, hclaims⟩ := advanced_eq h hd₁
    rw [apply, excluded, hb₁]
    exact ⟨_, rfl, hfol, hagree, hclaims⟩

/-! ## Events that close a nonterminal -/

/-- A cut, if the notice is about one. -/
def cut? : Notice → Option Cut
  | .cut c => some c
  | _ => none

/-- The cuts that notices tell of. -/
def cutsOf (notices : List Notice) : List Cut := notices.filterMap cut?

theorem cutsOf_append (ns ms : List Notice) : cutsOf (ns ++ ms) = cutsOf ns ++ cutsOf ms :=
  List.filterMap_append

theorem cutsOf_cuts (cuts : List Cut) : cutsOf (cuts.map .cut) = cuts := by
  rw [cutsOf, List.filterMap_map]
  exact List.filterMap_some

theorem cutsOf_remark (b : Builder τ) (text : String) : cutsOf (b.remark text) = [] := by
  rw [remark]
  split <;> rfl

/-- The claims after the target made `host` for a closed child. -/
def handed (host : NodeId) : List (List NodeId) → List (List NodeId)
  | [] => []
  | c :: cs => (c ++ [host]) :: cs

/-- The answer `r` to the end of the frame `f`, which was delivered as `count` nodes with the
result `D`; `cs` are the claims of the nonterminals that stay open. -/
structure Delivers (b : Builder τ) (D : Delivery τ) (f : Frame) (d' : Draft) (count : Nat)
    (cs : List (List NodeId)) (r : Response (Builder τ)) : Prop where
  target : r.state.target = D.target
  options : r.state.options = b.options
  cuts : cutsOf r.notices = D.cuts
  refused : ∀ conflict, D.outcome = .error conflict →
    r.outcome = .error (.conflict conflict) ∧ r.state.Follows d' ∧ r.state.claims = cs ∧
      r.state.roots = b.roots ∧ r.state.merged = b.merged
  accepted : ∀ host, D.outcome = .ok host →
    r.outcome = .ok () ∧ r.state.Follows (d'.attach f) ∧ r.state.claims = handed host cs ∧
      r.state.roots = b.roots + (if d'.frames = [] then 1 else 0) ∧
      r.state.merged = b.merged + count

theorem endNonterminal_eq [MergeTarget τ] {n : OpenNode} {stack : List OpenNode}
    (hstack : b.stack = n :: stack) (hs : b.scopes = []) :
    b.endNonterminal (b.pending.element n.id).name =
      deliver { b with stack := stack, pending := b.pending.setStop n.id b.cursor } n := by
  unfold endNonterminal
  split
  · next hnil =>
    rw [hstack] at hnil
    cases hnil
  · next n' stack' hcons =>
    obtain ⟨rfl, rfl⟩ := List.cons.inj (hstack.symm.trans hcons)
    rw [if_neg (not_not_intro (nameOf_eq b n))]
    split
    · next hcons =>
      rw [hs] at hcons
      cases hcons
    · rfl

/-- The arena when a nonterminal has left the stack. -/
theorem apply_close [MergeTarget τ] (h : b.Follows d)
    (hm : d.move? b.options.attributeCursor e = some (.close f d')) :
    ∃ n stack r w,
      b.apply e = deliver { b with
        stack := stack, pending := b.pending.setStop n.id b.cursor } n ∧
      b.stack = n :: stack ∧ b.scopes = [] ∧ d'.scopes = [] ∧ b.cursor = d'.cursor ∧
      (b.pending.setStop n.id b.cursor).Represents (r :: w) ∧ r.1 = n.id ∧
      w.map (·.1) = stack.map (·.id) ∧
      (b.pending.setStop n.id b.cursor).element n.id = f.element ∧
      r.2.map (b.pending.setStop n.id b.cursor).element = held b.options f.kids ∧
      List.Forall₂ (fun r f => (b.pending.setStop n.id b.cursor).element r.1 = f.element ∧
        r.2.map (b.pending.setStop n.id b.cursor).element = held b.options f.kids) w d'.frames := by
  rcases Draft.move_cases hm with ⟨_, _, _, _, hd⟩ | ⟨g, outer, rfl, hf, hs, hd⟩ |
    ⟨_, _, _, hd⟩ | ⟨_, _, _, _, _, _, _, hd⟩ | ⟨_, _, _, _, _, _, hd⟩ | ⟨_, _, _, _, hd⟩
  · cases hd
  · cases hd
    obtain ⟨n, stack, r, w, hstack, hw, hid, hids, helement, hkids, hrest⟩ := h.cons hf
    have hended := h.update hstack hf (fun t => { t with element :=
      { t.element with span := { t.element.span with stop := b.cursor } } }) (fun _ => rfl)
      b.scopes (g.endAt d.cursor) rfl (fun t ht => by rw [Frame.endAt, ← ht, h.cursor])
      b.pending.names
    obtain ⟨n', stack', r', w', hstack', hw', hid', hids', helement', hkids', hrest'⟩ :=
      hended.cons rfl
    obtain ⟨rfl, rfl⟩ := List.cons.inj (hstack.symm.trans hstack')
    have happly := endNonterminal_eq hstack (h.scopes.trans hs)
    rw [helement] at happly
    exact ⟨n, stack, r', w', happly, hstack, h.scopes.trans hs, hs, h.cursor, hw', hid', hids',
      helement', hkids', hrest'⟩
  · cases hd
  · cases hd
  · cases hd
  · cases hd

/-- Deferred: a child waits below its parent. -/
theorem apply_close_waits [MergeTarget τ] (h : b.Follows d) (hdef : b.options.merge = .deferred)
    (hm : d.move? b.options.attributeCursor e = some (.close f d')) (hd' : d'.frames ≠ []) :
    ∃ b' c, b.apply e = .accept b' [] ∧ b'.Follows (d'.attach f) ∧ b.Agrees b' ∧
      b.claims = c :: b'.claims := by
  obtain ⟨n, stack, r, w, happly, hstack, hs, hs', hcursor, hw, hid, hids, helement, hkids, hrest⟩ :=
    apply_close h hm
  have hclaims := claims_cons hstack
  cases hframes : d'.frames with
  | nil => exact absurd hframes hd'
  | cons g outer =>
    rw [hframes] at hrest
    cases hrest with
    | @cons q _ w _ hq hrest =>
      cases stack with
      | nil => cases hids
      | cons p stack =>
        obtain ⟨hpid, hids⟩ := List.cons.inj hids
        have hpid : q.1 = p.id := hpid
        have hdeliver : deliver { b with
            stack := p :: stack, pending := b.pending.setStop n.id b.cursor } n =
            .accept { b with
              stack := p :: stack
              pending := (b.pending.setStop n.id b.cursor).append p.id n.id } [] := by
          unfold deliver
          rw [hdef]
        have hheld := held_deferred hdef
        have hrep := Arena.represents_append (g := r.2) (f := q.2) (c := r.1) (p := q.1) hw
        rw [hid, hpid] at hrep
        refine ⟨_, n.claimed, happly.trans hdeliver, ⟨?_, ?_, fun hnil => ?_, _, hrep, ?_, ?_⟩,
          ⟨rfl, rfl, rfl, rfl⟩, hclaims⟩
        · rw [Draft.attach_of_cons hframes]
          exact hs.trans hs'.symm
        · rw [Draft.attach_of_cons hframes]
          exact hcursor
        · rw [Draft.attach_of_cons hframes] at hnil
          cases hnil
        · rw [List.map_cons, hids]
          rfl
        · rw [Draft.attach_of_cons hframes]
          refine .cons ⟨?_, ?_⟩ (forall₂_congr hrest fun x _ => Arena.element_append _ _ _ x)
          · rw [Arena.element_append, ← hpid]
            exact hq.1
          · have hq₂ := hq.2
            rw [hheld] at hkids hq₂ ⊢
            rw [Forest.map_append, Frame.tree, ← hkids, ← hq₂, ← helement]
            simp only [Forest.map_node, Forest.map_nil]
            rw [Forest.map_congr fun x _ => Arena.element_append _ _ _ x, Arena.element_append,
              Forest.map_congr fun x _ => Arena.element_append _ _ _ x]

/-- The waiting tree of a node that has a row. -/
theorem tree?_eq {a : Arena} {r : NodeId × Forest NodeId} {w : Arena.Waiting}
    (hw : a.Represents (r :: w)) :
    a.tree? r.1 = some ⟨a.element r.1, r.2.map a.element⟩ := by
  have hmem : r ∈ r :: w := List.mem_cons_self ..
  obtain ⟨s, hs⟩ := Arena.slot?_isSome (hw.lt_size (Arena.mem_slots hmem (Or.inl rfl)))
  rw [Arena.tree?, hs, Arena.element, hs, hw.below_eq hmem]
  rfl

/-- The notices of a delivery that succeeded tell of its cuts. -/
theorem cutsOf_success (b : Builder τ) (cuts : List Cut) (text name : String) (span : Span) :
    cutsOf (cuts.map .cut ++ b.remark text ++ [.closed name span]) = cuts := by
  rw [cutsOf_append, cutsOf_append, cutsOf_cuts, cutsOf_remark, List.append_nil]
  exact List.append_nil cuts

/-- Deferred: a root is delivered with all that waited below it. -/
theorem apply_close_root [MergeTarget τ] (h : b.Follows d) (hdef : b.options.merge = .deferred)
    (hm : d.move? b.options.attributeCursor e = some (.close f d')) (hd' : d'.frames = []) :
    b.Delivers (MergeTarget.merge b.target ⟨f.element, f.kids⟩ b.options.balancing) f d'
      (1 + f.kids.size) [] (b.apply e) := by
  obtain ⟨n, stack, r, w, happly, -, hs, hs', hcursor, hw, hid, hids, helement, hkids, hrest⟩ :=
    apply_close h hm
  rw [hd'] at hrest
  cases hrest
  obtain rfl : stack = [] := List.map_eq_nil_iff.mp hids.symm
  have hempty (P : NodeId × Forest NodeId → Frame → Prop) : List.Forall₂ P [] d'.frames := by
    rw [hd']
    exact .nil
  have htree := tree?_eq hw
  rw [hkids, held_deferred hdef, hid, helement] at htree
  have hrelease := (Arena.represents_release hw).1
  rw [hid] at hrelease
  rw [happly]
  have hdeliver : deliver { b with
      stack := [], pending := b.pending.setStop n.id b.cursor } n =
      deliverTree { b with stack := [], pending := b.pending.setStop n.id b.cursor } n.id := by
    unfold deliver
    rw [hdef]
  rw [hdeliver, deliverTree]
  simp only [htree, Option.getD_some]
  generalize MergeTarget.merge b.target (Tree.mk f.element f.kids) b.options.balancing = D
  have hfol (target : τ) (roots merged : Nat) : Follows
      { b with stack := [], pending := (b.pending.setStop n.id b.cursor).release n.id,
               target := target, roots := roots, merged := merged } d' :=
    ⟨hs.trans hs'.symm, hcursor, fun _ => hs', [], hrelease, rfl, hempty _⟩
  cases hout : D.outcome with
  | error conflict =>
    refine ⟨rfl, rfl, ?_, fun c hc => ?_, fun host hok => ?_⟩
    · exact (cutsOf_append _ _).trans (by rw [cutsOf_cuts]; exact List.append_nil _)
    · cases hout.symm.trans hc
      exact ⟨rfl, hfol _ _ _, rfl, rfl, rfl⟩
    · cases hout.symm.trans hok
  | ok host =>
    refine ⟨rfl, rfl, cutsOf_success _ _ _ _ _, fun c hc => ?_, fun host hok => ?_⟩
    · cases hout.symm.trans hc
    · rw [Draft.attach_of_nil hd', if_pos hd']
      exact ⟨rfl, ⟨hs.trans hs'.symm, hcursor, fun _ => hs', [], hrelease, rfl, hempty _⟩, rfl, rfl,
        rfl⟩

/-- Incremental: every node is delivered with its claim. -/
theorem apply_close_inserts [MergeTarget τ] (h : b.Follows d)
    (hinc : b.options.merge = .incremental)
    (hm : d.move? b.options.attributeCursor e = some (.close f d')) :
    ∃ c cs, b.claims = c :: cs ∧
      b.Delivers (MergeTarget.insert b.target f.element c b.options.balancing) f d' 1 cs
        (b.apply e) := by
  obtain ⟨n, stack, r, w, happly, hstack, hs, hs', hcursor, hw, hid, hids, helement, hkids, hrest⟩ :=
    apply_close h hm
  refine ⟨_, _, claims_cons hstack, ?_⟩
  obtain ⟨hrelease, hsame⟩ := Arena.represents_release hw
  rw [hid] at hrelease hsame
  rw [happly]
  have hdeliver : deliver { b with
      stack := stack, pending := b.pending.setStop n.id b.cursor } n =
      deliverElement { b with stack := stack, pending := b.pending.setStop n.id b.cursor } n := by
    unfold deliver
    rw [hinc]
  rw [hdeliver, deliverElement]
  simp only [helement]
  generalize MergeTarget.insert b.target f.element n.claimed b.options.balancing = D
  have hrows := forall₂_congr hrest hsame
  have hfol (target : τ) (roots merged : Nat) : Follows
      { b with stack := stack, pending := (b.pending.setStop n.id b.cursor).release n.id,
               target := target, roots := roots, merged := merged } d' :=
    ⟨hs.trans hs'.symm, hcursor, fun _ => hs', w, hrelease, hids, hrows⟩
  cases hout : D.outcome with
  | error conflict =>
    refine ⟨rfl, rfl, ?_, fun c hc => ?_, fun host hok => ?_⟩
    · exact (cutsOf_append _ _).trans (by rw [cutsOf_cuts]; exact List.append_nil _)
    · cases hout.symm.trans hc
      exact ⟨rfl, hfol _ _ _, rfl, rfl, rfl⟩
    · cases hout.symm.trans hok
  | ok host =>
    cases stack with
    | nil =>
      obtain rfl : w = [] := List.map_eq_nil_iff.mp hids
      have hd' : d'.frames = [] := List.forall₂_nil_left_iff.mp hrows
      refine ⟨rfl, rfl, cutsOf_success _ _ _ _ _, fun c hc => ?_, fun host hok => ?_⟩
      · cases hout.symm.trans hc
      · rw [Draft.attach_of_nil hd', if_pos hd']
        exact ⟨rfl, ⟨hs.trans hs'.symm, hcursor, fun _ => hs', [], hrelease, rfl, hrows⟩, rfl, rfl,
          rfl⟩
    | cons p stack =>
      refine ⟨rfl, rfl, cutsOf_success _ _ _ _ _, fun c hc => ?_, fun host' hok => ?_⟩
      · cases hout.symm.trans hc
      · cases hout.symm.trans hok
        cases hframes : d'.frames with
        | nil =>
          rw [hframes] at hrows
          cases hrows
          cases hids
        | cons g outer =>
          rw [Draft.attach_of_cons hframes, if_neg (List.cons_ne_nil _ _)]
          refine ⟨rfl, ⟨hs.trans hs'.symm, hcursor, fun hnil => (List.cons_ne_nil _ _ hnil).elim, w,
            hrelease, ?_, ?_⟩, rfl, rfl, rfl⟩
          · rw [hids]
            rfl
          · -- in the arena nothing waits below the parent
            rw [hframes] at hrows
            cases hrows with
            | @cons q _ w _ hq hrest =>
              exact .cons ⟨hq.1, hq.2.trans ((held_incremental hinc).trans
                (held_incremental hinc).symm)⟩ hrest

end Builder

end Standoff
