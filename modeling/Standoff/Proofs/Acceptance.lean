import Standoff.Proofs.Phrases
import Standoff.Proofs.Strategies

/-! # Which streams a builder accepts

A builder whose target never fails accepts a stream and ends it if the stream spells a phrase and
does not move the cursor too far.  It refuses an event if nothing that follows could make a phrase
of the stream up to it.  Over a document the nonterminals must end within the text, too.

    complete succeeds   ↔   stream = events of a valid phrase, and reach ≤ maxCursor

* `Draft.closes_iff`: the streams that close a draft.
* `Builder.Follows.step`: a builder accepts what its draft takes, if its target never fails.
* `Builder.acceptance`: the equivalence above, where a run fails, and runs over documents. -/

namespace Standoff

/-- The streams of the grammar that do not move the cursor too far. -/
def Sentence (rule : AttributeCursor) (events : List Event) : Prop :=
  (∃ ph : Phrase, ph.Valid .outside ∧ events = ph.events) ∧ Event.reach rule [] events ≤ maxCursor

/-! ## Drafts as states of the machine -/

namespace Draft

open Opened Event

variable {rule : AttributeCursor} {d d' : Draft} {e : Event} {os : List Opened} {es : List Event}
  {limit : Nat}

/-- The names of the open attributes, the innermost first. -/
def scopeNames (d : Draft) : List String := d.scopes.map (·.name)

/-- The open scopes, the innermost first. -/
def stack (d : Draft) : List Opened :=
  d.scopes.map (fun s => attr s.name) ++ d.frames.map fun f => node f.element.name

/-- Attributes are open in nonterminals only, and the cursor has not gone too far. -/
structure Proper (d : Draft) : Prop where
  outside : d.frames = [] → d.scopes = []
  cursor : d.cursor ≤ maxCursor

theorem proper_empty : ({} : Draft).Proper := ⟨fun _ => rfl, Nat.zero_le _⟩

theorem stack_eq_nil_iff : d.stack = [] ↔ d.Closed := by
  rw [stack, List.append_eq_nil_iff, List.map_eq_nil_iff, List.map_eq_nil_iff, Closed, and_comm]

theorem stack_of_scopes (h : d.scopes = []) :
    d.stack = d.frames.map fun f => node f.element.name := by
  rw [stack, h]
  rfl

theorem placeOf_stack_ne_inAttribute : placeOf d.stack ≠ .inAttribute ↔ d.scopes = [] := by
  unfold stack
  cases d.scopes with
  | nil =>
    refine iff_of_true ?_ rfl
    cases d.frames <;> exact nofun
  | cons s scopes => exact iff_of_false (fun h => h rfl) (List.cons_ne_nil _ _)

theorem placeOf_stack_ne_outside (h : d.Proper) : placeOf d.stack ≠ .outside ↔ d.frames ≠ [] := by
  cases hs : d.scopes with
  | nil =>
    rw [stack_of_scopes hs]
    cases d.frames with
    | nil => exact iff_of_false (fun h => h rfl) (fun h => h rfl)
    | cons f outer => exact iff_of_true nofun (List.cons_ne_nil _ _)
  | cons s scopes =>
    refine iff_of_true ?_ fun hf => ?_
    · rw [stack, hs]
      exact nofun
    · rw [h.outside hf] at hs
      cases hs

theorem advance_terminal (rule : AttributeCursor) (d : Draft) (codepoint : Nat) :
    (terminal codepoint).advance rule d.scopeNames = if d.advances rule then 1 else 0 := by
  unfold advance advances scopeNames
  cases d.scopes <;> rfl

theorem stack_pushChar (d : Draft) (c : Char) : (d.pushChar c).stack = d.stack := by
  unfold pushChar
  split
  · rfl
  · next s outer hs =>
    unfold stack
    rw [hs]
    rfl

theorem scopeNames_pushChar (d : Draft) (c : Char) :
    (d.pushChar c).scopeNames = d.scopeNames := by
  unfold pushChar
  split
  · rfl
  · next s outer hs =>
    unfold scopeNames
    rw [hs]
    rfl

/-- A frame that closes leaves the names of the others. -/
theorem stack_attach (f : Frame) (d : Draft) : (d.attach f).stack = d.stack ∧
    (d.attach f).scopeNames = d.scopeNames := by
  unfold attach
  split
  · exact ⟨rfl, rfl⟩
  · next g outer hf =>
    unfold stack
    rw [hf]
    exact ⟨rfl, rfl⟩

theorem advanced?_eq {length : Nat} : d.advanced? length = some d' ↔
    d.cursor + length ≤ maxCursor ∧ d' = { d with cursor := d.cursor + length } := by
  unfold advanced?
  split
  · next h =>
    rw [Option.some.injEq]
    exact ⟨fun heq => ⟨h, heq.symm⟩, fun heq => heq.2.symm⟩
  · next h => exact iff_of_false nofun fun heq => h heq.1

/-- What a terminal does to the cursor. -/
theorem advanced_terminal (codepoint : Nat)
    (h : (if d.advances rule then d.advanced? 1 else some d) = some d') :
    d' = { d with cursor := d.cursor + (terminal codepoint).advance rule d.scopeNames } ∧
      (d.Proper → d'.cursor ≤ maxCursor) := by
  rw [advance_terminal]
  split at h
  · next hadv =>
    rw [if_pos hadv]
    obtain ⟨hle, rfl⟩ := advanced?_eq.mp h
    exact ⟨rfl, fun _ => hle⟩
  · next hadv =>
    rw [if_neg hadv]
    cases h
    exact ⟨rfl, Proper.cursor⟩

/-- A step moves the machine, the cursor and the open attributes. -/
theorem step?_stack (h : d.Proper) (hs : d.step? rule e = some d') :
    after? d.stack e = some d'.stack ∧ d'.cursor = d.cursor + e.advance rule d.scopeNames ∧
      d'.scopeNames = e.scopesAfter d.scopeNames ∧ d'.Proper := by
  obtain ⟨mv, hm, rfl⟩ := Option.map_eq_some_iff.mp hs
  obtain ⟨name, rfl, hname, hsc, rfl⟩ | ⟨f, outer, rfl, hf, hsc, rfl⟩ | ⟨name, rfl, hf, rfl⟩ |
    ⟨s, scopes, f, outer, rfl, hsc, hf, rfl⟩ | ⟨codepoint, c, d₁, rfl, hc, hd₁, rfl⟩ |
    ⟨length, d₁, rfl, hd₁, rfl⟩ := move_cases hm
  · refine ⟨?_, rfl, rfl, nofun, h.cursor⟩
    have hplace := placeOf_stack_ne_inAttribute.mpr hsc
    refine (if_pos ⟨hplace, hname⟩).trans ?_
    simp only [settle, stack, hsc]
    rfl
  · have hstack : d.stack = node f.element.name :: ({ d with frames := outer } : Draft).stack := by
      rw [stack_of_scopes hsc, stack_of_scopes (d := { d with frames := outer }) hsc, hf]
      rfl
    obtain ⟨hattach, hnames⟩ := stack_attach (f.endAt d.cursor) { d with frames := outer }
    refine ⟨?_, Builder.cursor_attach _ _, hnames, fun _ => ?_, ?_⟩
    · rw [hstack, settle, hattach]
      exact if_pos rfl
    · rw [settle, attach]
      split <;> exact hsc
    · rw [settle, Builder.cursor_attach]
      exact h.cursor
  · refine ⟨(if_pos ((placeOf_stack_ne_outside h).mpr hf)).trans rfl, rfl, rfl,
      fun hnil => absurd hnil hf, h.cursor⟩
  · refine ⟨?_, rfl, ?_, fun hnil => absurd hnil (List.cons_ne_nil _ _), h.cursor⟩
    · rw [stack, hsc, hf]
      rfl
    · simp only [settle, scopeNames, hsc]
      rfl
  · have hxml : Text.isXmlChar codepoint = true := by
      unfold Text.contentChar? at hc
      split at hc
      · assumption
      · cases hc
    obtain ⟨rfl, hcursor⟩ := advanced_terminal codepoint hd₁
    obtain ⟨hframes, hpos, -⟩ := pushChar_frames
      { d with cursor := d.cursor + (terminal codepoint).advance rule d.scopeNames } c
    refine ⟨?_, hpos, scopeNames_pushChar _ _, fun hnil => ?_, ?_⟩
    · rw [settle, stack_pushChar]
      exact if_pos hxml
    · rw [settle, hframes] at hnil
      have hnames := scopeNames_pushChar
        { d with cursor := d.cursor + (terminal codepoint).advance rule d.scopeNames } c
      exact List.map_eq_nil_iff.mp (hnames.trans (congrArg (List.map _) (h.outside hnil)))
    · rw [settle, hpos]
      exact hcursor h
  · obtain ⟨hle, rfl⟩ := advanced?_eq.mp hd₁
    exact ⟨rfl, rfl, rfl, h.outside, hle⟩

/-- The machine and the cursor decide whether there is a step. -/
theorem exists_step? (h : d.Proper) (hs : after? d.stack e = some os)
    (hle : d.cursor + e.advance rule d.scopeNames ≤ maxCursor) :
    ∃ d', d.step? rule e = some d' := by
  suffices ∃ mv, d.move? rule e = some mv by
    obtain ⟨mv, hm⟩ := this
    exact ⟨_, step?_of_move hm⟩
  cases e with
  | startNonterminal name =>
    have hin : placeOf d.stack ≠ .inAttribute ∧ name ≠ "" := by
      by_contra hno
      exact absurd ((if_neg hno).symm.trans hs) nofun
    rw [move?, placeOf_stack_ne_inAttribute.mp hin.1]
    exact ⟨_, if_neg hin.2⟩
  | endNonterminal name =>
    cases hsc : d.scopes with
    | cons s scopes =>
      rw [stack, hsc] at hs
      cases hs
    | nil =>
      rw [stack_of_scopes hsc] at hs
      cases hf : d.frames with
      | nil =>
        rw [hf] at hs
        cases hs
      | cons f outer =>
        rw [hf] at hs
        have hname : f.element.name = name := by
          by_contra hno
          exact absurd ((if_neg hno).symm.trans hs) nofun
        rw [move?, hf, hsc]
        exact ⟨_, if_pos hname⟩
  | startAttribute name =>
    have hin : placeOf d.stack ≠ .outside := by
      by_contra hno
      exact absurd ((if_neg (not_not_intro hno)).symm.trans hs) nofun
    cases hf : d.frames with
    | nil => exact absurd hf ((placeOf_stack_ne_outside h).mp hin)
    | cons f outer =>
      rw [move?, hf]
      exact ⟨_, rfl⟩
  | endAttribute =>
    cases hsc : d.scopes with
    | nil =>
      rw [stack_of_scopes hsc] at hs
      cases hf : d.frames with
      | nil => rw [hf] at hs; cases hs
      | cons f outer => rw [hf] at hs; cases hs
    | cons s scopes =>
      cases hf : d.frames with
      | nil =>
        rw [h.outside hf] at hsc
        cases hsc
      | cons f outer =>
        rw [move?, hsc, hf]
        exact ⟨_, rfl⟩
  | terminal codepoint =>
    have hchar : Text.isXmlChar codepoint = true := by
      by_contra hno
      exact absurd ((if_neg hno).symm.trans hs) nofun
    rw [advance_terminal] at hle
    rw [move?, Text.contentChar?, if_pos hchar, Option.bind_some]
    split
    · next hadv =>
      rw [if_pos hadv] at hle
      rw [advanced?_eq.mpr ⟨hle, rfl⟩]
      exact ⟨_, rfl⟩
    · exact ⟨_, rfl⟩
  | excluded length =>
    have hle : d.cursor + length ≤ maxCursor := hle
    rw [move?, advanced?_eq.mpr ⟨hle, rfl⟩]
    exact ⟨_, rfl⟩

/-! ## Streams that close a draft -/

/-- A stream closes a draft if it completes the open scopes and does not go too far. -/
theorem closes_iff (rule : AttributeCursor) (h : d.Proper) (es : List Event) :
    (∃ d', d.run? rule es = some d' ∧ d'.Closed) ↔
      Completes d.stack es ∧ d.cursor + reach rule d.scopeNames es ≤ maxCursor := by
  induction es generalizing d with
  | nil =>
    rw [completes_nil, stack_eq_nil_iff]
    constructor
    · rintro ⟨d', heq, hclosed⟩
      cases heq
      exact ⟨hclosed, h.cursor⟩
    · rintro ⟨hclosed, -⟩
      exact ⟨d, rfl, hclosed⟩
  | cons e es ih =>
    rw [completes_cons, reach, ← Nat.add_assoc]
    constructor
    · rintro ⟨d', hrun, hclosed⟩
      obtain ⟨d₁, hstep, hrest⟩ := Option.bind_eq_some_iff.mp hrun
      obtain ⟨hstack, hcursor, hnames, hproper⟩ := step?_stack h hstep
      obtain ⟨hcompletes, hreach⟩ := (ih hproper).mp ⟨d', hrest, hclosed⟩
      rw [hcursor, hnames] at hreach
      exact ⟨⟨_, hstack, hcompletes⟩, hreach⟩
    · rintro ⟨⟨os, hos, hcompletes⟩, hreach⟩
      obtain ⟨d₁, hstep⟩ := exists_step? h hos (Nat.le_trans (Nat.le_add_right _ _) hreach)
      obtain ⟨hstack, hcursor, hnames, hproper⟩ := step?_stack h hstep
      obtain rfl : os = d₁.stack := Option.some.inj (hos.symm.trans hstack)
      rw [← hcursor, ← hnames] at hreach
      rw [run?_cons hstep]
      exact (ih hproper).mpr ⟨hcompletes, hreach⟩

/-- The streams that close the empty draft. -/
theorem sentence_iff : Sentence rule es ↔ ∃ d, run? rule {} es = some d ∧ d.Closed := by
  rw [closes_iff rule proper_empty, Nat.zero_add]
  rfl

/-- What a run leaves is proper, and tells how far the stream has gone. -/
theorem Proper.run (h : d.Proper) (hrun : d.run? rule es = some d') : d'.Proper ∧
    d'.cursor = d.cursor + reach rule d.scopeNames es := by
  induction es generalizing d with
  | nil =>
    cases hrun
    exact ⟨h, rfl⟩
  | cons e es ih =>
    obtain ⟨d₁, hstep, hrest⟩ := Option.bind_eq_some_iff.mp hrun
    obtain ⟨-, hcursor, hnames, hproper⟩ := step?_stack h hstep
    obtain ⟨hproper', hcursor'⟩ := ih hproper hrest
    rw [hcursor, hnames] at hcursor'
    exact ⟨hproper', by rw [hcursor', reach, Nat.add_assoc]⟩

/-- A stream that has been taken so far is the beginning of a sentence. -/
theorem sentence_of_run (hrun : run? rule {} es = some d) :
    Sentence rule (es ++ d.stack.map closing) := by
  have hproper := (proper_empty.run hrun).1
  obtain ⟨d', hrest, hclosed⟩ := (closes_iff rule hproper (d.stack.map closing)).mpr
    ⟨completes_closing _, by rw [reach_closing]; exact hproper.cursor⟩
  exact sentence_iff.mpr ⟨d', by rw [run?_append, hrun]; exact hrest, hclosed⟩

/-- No sentence goes on after an event that is refused. -/
theorem not_sentence_of_step (hrun : run? rule {} es = some d) (hstep : d.step? rule e = none)
    (rest : List Event) : ¬ Sentence rule (es ++ e :: rest) := by
  intro h
  obtain ⟨d', hrun', -⟩ := sentence_iff.mp h
  rw [run?_append, hrun, Option.bind_some, run?, hstep] at hrun'
  cases hrun'

/-! ## Where nonterminals end -/

/-- Where trees fit into a text, every nonterminal ends in it. -/
theorem Fits.ends (hproper : d.Proper) (hrun : d.run? rule es = some d') (h : d'.Fits limit)
    {pre post : List Event} {name : String} (heq : es = pre ++ endNonterminal name :: post) :
    d.cursor + reach rule d.scopeNames pre ≤ limit := by
  subst heq
  rw [run?_append] at hrun
  obtain ⟨d₁, hpre, hrest⟩ := Option.bind_eq_some_iff.mp hrun
  rw [← (hproper.run hpre).2]
  refine (h.of_run hrest).frames fun hnil => ?_
  obtain ⟨d₂, hstep, -⟩ := Option.bind_eq_some_iff.mp hrest
  obtain ⟨mv, hm, -⟩ := Option.map_eq_some_iff.mp hstep
  rw [move?, hnil] at hm
  cases hm

/-- Where every nonterminal ends in a text, the trees that have closed fit into it. -/
theorem fits_of_ends (hproper : d.Proper) (hrun : d.run? rule es = some d') (hclosed : d'.Closed)
    (hroots : ∀ r ∈ d.roots.labels, r.span.stop ≤ limit)
    (hends : ∀ pre name post, es = pre ++ endNonterminal name :: post →
      d.cursor + reach rule d.scopeNames pre ≤ limit) : d'.Fits limit := by
  induction es generalizing d with
  | nil =>
    cases hrun
    exact ⟨fun hne => absurd hclosed.1 hne, hroots⟩
  | cons e es ih =>
    obtain ⟨d₁, hstep, hrest⟩ := Option.bind_eq_some_iff.mp hrun
    obtain ⟨-, hcursor, hnames, hproper'⟩ := step?_stack hproper hstep
    refine ih hproper' hrest ?_ fun pre name post heq => ?_
    · obtain ⟨mv, hm, rfl⟩ := Option.map_eq_some_iff.mp hstep
      cases mv with
      | start d₁ =>
        obtain ⟨name, -, -, -, rfl⟩ := start_cases hm
        exact hroots
      | stay d₁ =>
        rw [settle, (stay_cases hm).2.1]
        exact hroots
      | close f d₁ =>
        obtain ⟨g, outer, rfl, hf, -, rfl, rfl⟩ := close_cases hm
        have hcursor : d.cursor ≤ limit := hends [] _ es rfl
        rw [settle, attach]
        split
        · intro r hr
          rw [Forest.labels_append, List.mem_append] at hr
          rcases hr with hr | hr
          · exact hroots r hr
          · obtain rfl := List.mem_singleton.mp hr
            exact hcursor
        · exact hroots
    · have hpre := hends (e :: pre) name post (by rw [heq]; rfl)
      rw [hcursor, hnames, Nat.add_assoc]
      exact hpre

end Draft

/-! ## Builders whose target never fails -/

/-- The target takes whatever it is given. -/
structure MergeTarget.NeverFails (τ : Type) [MergeTarget τ] : Prop where
  merge : ∀ (target : τ) (t : Tree Element) (balancing : Balancing),
    ∃ id, (MergeTarget.merge target t balancing).outcome = .ok id
  insert : ∀ (target : τ) (e : Element) (claimed : List NodeId) (balancing : Balancing),
    ∃ id, (MergeTarget.insert target e claimed balancing).outcome = .ok id

/-- A target that counts what it is given. -/
structure Tally where
  count : Nat := 0

instance : MergeTarget Tally where
  merge t _ _ := { target := ⟨t.count + 1⟩, outcome := .ok (t.count + 1) }
  insert t _ _ _ := { target := ⟨t.count + 1⟩, outcome := .ok (t.count + 1) }

theorem Tally.neverFails : MergeTarget.NeverFails Tally :=
  ⟨fun _ _ _ => ⟨_, rfl⟩, fun _ _ _ _ => ⟨_, rfl⟩⟩

/-- A run that fails does so at an event before which all were accepted. -/
theorem drive_error {σ : Type} {handler : Handler σ} {state : σ} {events : List Event}
    {error : AnnotateError} (h : (drive handler state events).outcome = .error error) :
    ∃ pre e post, events = pre ++ e :: post ∧ (drive handler state pre).outcome = .ok () ∧
      (handler (drive handler state pre).state e).outcome = .error error := by
  induction events generalizing state with
  | nil => cases h
  | cons e events ih =>
    cases hout : (handler state e).outcome with
    | error error' =>
      refine ⟨[], e, events, rfl, rfl, ?_⟩
      rw [drive, hout] at h
      exact h
    | ok u =>
      rw [(drive_cons hout events).1] at h
      obtain ⟨pre, e', post, rfl, hpre, herror⟩ := ih h
      refine ⟨e :: pre, e', post, rfl, ?_, ?_⟩
      · rw [(drive_cons hout pre).1]
        exact hpre
      · rw [(drive_cons hout pre).2]
        exact herror

namespace Builder

open MergeTarget

section Unfailing

variable {τ : Type} [MergeTarget τ] {b : Builder τ} {d d' : Draft} {e : Event}
  {events : List Event} {target : τ} {options : Options}

/-- What a draft refuses its builder refuses. -/
theorem Follows.refuses (h : b.Follows d) (hs : d.step? b.options.attributeCursor e = none) :
    ∃ error, (b.handle e).outcome = .error error := by
  obtain ⟨error, happly⟩ := apply_refused h (Draft.step?_eq_none_iff.mp hs)
  refine ⟨error, ?_⟩
  show (b.apply e).outcome = _
  rw [happly]
  rfl

/-- What a draft takes its builder accepts. -/
theorem Follows.step (hτ : NeverFails τ) (h : b.Follows d)
    (hs : d.step? b.options.attributeCursor e = some d') :
    (b.handle e).outcome = .ok () ∧ (b.handle e).state.Follows d' ∧
      (b.handle e).state.options = b.options := by
  show (b.apply e).outcome = .ok () ∧ (b.apply e).state.Follows d' ∧
    (b.apply e).state.options = b.options
  obtain ⟨mv, hm, rfl⟩ := Option.map_eq_some_iff.mp hs
  cases mv with
  | start d' =>
    obtain ⟨b', happly, hfol, hagree, -⟩ := apply_start h hm
    rw [happly]
    exact ⟨rfl, hfol, hagree.options⟩
  | stay d' =>
    obtain ⟨b', happly, hfol, hagree, -⟩ := apply_stay h hm
    rw [happly]
    exact ⟨rfl, hfol, hagree.options⟩
  | close f d' =>
    cases hmerge : b.options.merge with
    | incremental =>
      obtain ⟨c, cs, -, hd⟩ := apply_close_inserts h hmerge hm
      obtain ⟨host, hhost⟩ := hτ.insert b.target f.element c b.options.balancing
      obtain ⟨hok, hfol, -⟩ := hd.accepted host hhost
      exact ⟨hok, hfol, hd.options⟩
    | deferred =>
      by_cases hframes : d'.frames = []
      · have hd := apply_close_root h hmerge hm hframes
        obtain ⟨host, hhost⟩ := hτ.merge b.target ⟨f.element, f.kids⟩ b.options.balancing
        obtain ⟨hok, hfol, -⟩ := hd.accepted host hhost
        exact ⟨hok, hfol, hd.options⟩
      · obtain ⟨b', c, happly, hfol, hagree, -⟩ := apply_close_waits h hmerge hm hframes
        rw [happly]
        exact ⟨rfl, hfol, hagree.options⟩

/-- A builder accepts the streams that its draft takes. -/
theorem Follows.accepts (hτ : NeverFails τ) (h : b.Follows d) (events : List Event) :
    ((drive handle b events).outcome = .ok () ↔
        ∃ d', d.run? b.options.attributeCursor events = some d') ∧
      ∀ d', d.run? b.options.attributeCursor events = some d' →
        (drive handle b events).state.Follows d' ∧
          (drive handle b events).state.options = b.options := by
  induction events generalizing b d with
  | nil =>
    refine ⟨iff_of_true rfl ⟨d, rfl⟩, fun d' hrun => ?_⟩
    cases hrun
    exact ⟨h, rfl⟩
  | cons e events ih =>
    cases hstep : d.step? b.options.attributeCursor e with
    | none =>
      obtain ⟨error, herror⟩ := h.refuses hstep
      have hrun : d.run? b.options.attributeCursor (e :: events) = none := by
        rw [Draft.run?, hstep]
        rfl
      rw [hrun]
      refine ⟨iff_of_false (fun hok => ?_) ?_, fun d' hd' => ?_⟩
      · rw [drive_head hok] at herror
        cases herror
      · rintro ⟨d', hd'⟩
        cases hd'
      · cases hd'
    | some d₁ =>
      obtain ⟨hok, hfol, hoptions⟩ := h.step hτ hstep
      rw [Draft.run?_cons hstep, (drive_cons hok events).1, (drive_cons hok events).2, ← hoptions]
      exact ih hfol

/-- A complete run succeeds on the sentences of the grammar. -/
theorem complete_iff_sentence (hτ : NeverFails τ) :
    (∃ r, (start target options).complete events = .ok r) ↔
      Sentence options.attributeCursor events := by
  have hstart : (start target options).Follows {} := follows_start target options
  obtain ⟨hiff, hfollows⟩ := hstart.accepts hτ events
  rw [Draft.sentence_iff]
  constructor
  · rintro ⟨⟨report, target'⟩, hok⟩
    obtain ⟨hout, hfin, -⟩ := complete_iff.mp hok
    obtain ⟨d, hrun⟩ := hiff.mp hout
    exact ⟨d, hrun, ((finish_iff (hfollows d hrun).1).mp hfin).1⟩
  · rintro ⟨d, hrun, hclosed⟩
    exact ⟨_, complete_iff.mpr
      ⟨hiff.mpr ⟨d, hrun⟩, (finish_iff (hfollows d hrun).1).mpr ⟨hclosed, rfl⟩, rfl⟩⟩

/-- A run fails at the first event after which the stream cannot become a sentence. -/
theorem drive_fails_at (hτ : NeverFails τ) {error : AnnotateError}
    (h : (drive handle (start target options) events).outcome = .error error) :
    ∃ pre e post, events = pre ++ e :: post ∧
      (drive handle (start target options) pre).outcome = .ok () ∧
      ((drive handle (start target options) pre).state.handle e).outcome = .error error ∧
      (∃ rest, Sentence options.attributeCursor (pre ++ rest)) ∧
      ∀ rest, ¬ Sentence options.attributeCursor (pre ++ e :: rest) := by
  obtain ⟨pre, e, post, rfl, hpre, herror⟩ := drive_error h
  have hstart : (start target options).Follows {} := follows_start target options
  obtain ⟨hiff, hfollows⟩ := hstart.accepts hτ pre
  obtain ⟨d, hrun⟩ := hiff.mp hpre
  obtain ⟨hfol, hoptions⟩ := hfollows d hrun
  refine ⟨pre, e, post, rfl, hpre, herror, ⟨_, Draft.sentence_of_run hrun⟩,
    Draft.not_sentence_of_step hrun ?_⟩
  cases hstep : d.step? options.attributeCursor e with
  | none => rfl
  | some d' =>
    rw [(hfol.step hτ (by rw [hoptions]; exact hstep)).1] at herror
    cases herror

end Unfailing

/-! ## Builders over a document -/

section Documents

variable {host : Document} {options : Options} {events : List Event}

/-- Where cutting is allowed, sentences succeed if their nonterminals end in the text. -/
theorem complete_iff_ends (h : host.WellFormed) (hinner : options.balancing = .inner) :
    (∃ r, (start host options).complete events = .ok r) ↔
      Sentence options.attributeCursor events ∧
        ∀ pre name post, events = pre ++ .endNonterminal name :: post →
          Event.reach options.attributeCursor [] pre ≤ host.text.length := by
  rw [Draft.sentence_iff]
  constructor
  · rintro ⟨⟨report, doc⟩, hok⟩
    obtain ⟨d, hrun, hdone⟩ := complete_ok h hok
    refine ⟨⟨d, hrun, hdone.closed⟩, fun pre name post heq => ?_⟩
    have hend := hdone.fits.ends Draft.proper_empty hrun heq
    rwa [Nat.zero_add] at hend
  · rintro ⟨⟨d, hrun, hclosed⟩, hends⟩
    have hfits := Draft.fits_of_ends Draft.proper_empty hrun hclosed nofun
      fun pre name post heq => by
        rw [Nat.zero_add]
        exact hends pre name post heq
    obtain ⟨report, doc, hok⟩ := complete_inner h hinner hrun hclosed hfits
    exact ⟨_, hok⟩

/-- A builder over a target that never fails accepts exactly the sentences of the grammar, and
refuses the first event after which a stream cannot become one.  Over a document where cutting is
allowed, the nonterminals must end in the text, too. -/
theorem acceptance :
    (∀ (τ : Type) [MergeTarget τ] (target : τ) (options : Options) (events : List Event),
      NeverFails τ →
      ((∃ r, (start target options).complete events = .ok r) ↔
        Sentence options.attributeCursor events) ∧
      ∀ error, (drive handle (start target options) events).outcome = .error error →
        ∃ pre e post, events = pre ++ e :: post ∧
          (drive handle (start target options) pre).outcome = .ok () ∧
          ((drive handle (start target options) pre).state.handle e).outcome = .error error ∧
          (∃ rest, Sentence options.attributeCursor (pre ++ rest)) ∧
          ∀ rest, ¬ Sentence options.attributeCursor (pre ++ e :: rest)) ∧
    ∀ (host : Document) (options : Options) (events : List Event), host.WellFormed →
      options.balancing = .inner →
      ((∃ r, (start host options).complete events = .ok r) ↔
        Sentence options.attributeCursor events ∧
          ∀ pre name post, events = pre ++ .endNonterminal name :: post →
            Event.reach options.attributeCursor [] pre ≤ host.text.length) :=
  ⟨fun _ _ _ _ _ hτ => ⟨complete_iff_sentence hτ, fun _ herror => drive_fails_at hτ herror⟩,
    fun _ _ _ h hinner => complete_iff_ends h hinner⟩

/-- A stream with nested attributes, and one that ends an attribute with a nonterminal. -/
theorem acceptance_nested :
    let events : List Event := [.startNonterminal "p", .startAttribute "a", .terminal 120,
      .startAttribute "b:c", .terminal 121, .endAttribute, .endAttribute, .excluded 2,
      .endNonterminal "p"]
    let broken : List Event := [.startNonterminal "p", .startAttribute "a", .endNonterminal "p"]
    NeverFails Tally ∧ Sentence .unqualified events ∧
      (∃ r, (start ({} : Tally) { attributeCursor := .unqualified }).complete events = .ok r) ∧
      (∃ error, (drive handle (start ({} : Tally) {}) broken).outcome = .error error ∧
        ∃ pre e post, broken = pre ++ e :: post ∧
          ((drive handle (start ({} : Tally) {}) pre).state.handle e).outcome = .error error ∧
          ∀ rest, ¬ Sentence .hold (pre ++ e :: rest)) ∧
      (Document.ofText "abc").WellFormed ∧
      ∃ r, (start (Document.ofText "abc") { attributeCursor := .unqualified }).complete events =
        .ok r := by
  intro events broken
  have hsentence : Sentence .unqualified events :=
    ⟨⟨.nonterminal "p" (.attr "a" (.terminal 120 (.attr "b:c" (.terminal 121 .nil) .nil))
      (.excluded 2 .nil)) .nil, by decide, by decide⟩, by decide⟩
  have hfail : (drive handle (start ({} : Tally) {}) broken).outcome =
      .error (.mismatch (.attributeOpenAtEnd "p") 0) := by decide +kernel
  refine ⟨Tally.neverFails, hsentence, ?_, ⟨_, hfail, ?_⟩, Document.wellFormed_ofText "abc", ?_⟩
  · exact ((acceptance.1 Tally {} { attributeCursor := .unqualified } events
      Tally.neverFails).1).mpr hsentence
  · obtain ⟨pre, e, post, heq, -, herror, -, hno⟩ :=
      (acceptance.1 Tally {} {} broken Tally.neverFails).2 _ hfail
    exact ⟨pre, e, post, heq, herror, hno⟩
  · refine (acceptance.2 (Document.ofText "abc") { attributeCursor := .unqualified } events
      (Document.wellFormed_ofText "abc") rfl).mpr ⟨hsentence, fun pre name post heq => ?_⟩
    have htotal : Event.reach .unqualified [] events = 3 := by decide
    rw [heq] at htotal
    exact Nat.le_trans (Event.reach_le_append _ _ pre _) (Nat.le_of_eq htotal)

end Documents

end Builder

end Standoff
