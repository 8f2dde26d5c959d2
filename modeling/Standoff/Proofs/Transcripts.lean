import Standoff.Proofs.Links
import Standoff.Proofs.Readings

/-! # What a target is asked

While a builder reads the stream of a phrase, the phrase alone says at which events its target is
asked for something, and for what; only the answers are up to the target.  For `p( q() r() )`:

    deferred      end of p: merge p(q, r)
    incremental   end of q: insert q,  end of r: insert r,  end of p: insert p over q and r

A node that the target refuses is not claimed, and not counted.

* `Observed`: a target that writes down what it is asked.
* `Builder.transcript`: the events of a run, each with what the target is asked at it.
* `Phrase.script`: what the phrase says, for either strategy.
* `Builder.plays_script`: a run over the stream of a phrase is the one in its script. -/

namespace Standoff

/-! ## Targets that are observed -/

/-- What a target can be asked. -/
inductive Call where
  | merge (t : Tree Element) (balancing : Balancing)
  | insert (e : Element) (claimed : List NodeId) (balancing : Balancing)
deriving Repr, DecidableEq

/-- The node that the target made, or why it made none. -/
abbrev Answer := Except MergeConflict NodeId

/-- A target that writes down what it is asked, and what it answers. -/
structure Observed (τ : Type) where
  target : τ
  log : List (Call × Answer) := []

namespace Observed

variable {τ : Type}

/-- The delivery of the target itself, written down. -/
def note (o : Observed τ) (call : Call) (d : Delivery τ) : Delivery (Observed τ) :=
  d.map fun target => ⟨target, o.log ++ [(call, d.outcome)]⟩

instance [MergeTarget τ] : MergeTarget (Observed τ) where
  merge o t balancing := o.note (.merge t balancing) (MergeTarget.merge o.target t balancing)
  insert o e claimed balancing :=
    o.note (.insert e claimed balancing) (MergeTarget.insert o.target e claimed balancing)

theorem maps [MergeTarget τ] (o : Observed τ) : MergeTarget.Maps target o :=
  ⟨fun _ _ => rfl, fun _ _ _ => rfl⟩

end Observed

namespace Builder

section Transcript

variable {τ : Type} [MergeTarget τ]

/-- The builder with its target observed from now on. -/
def observed (b : Builder τ) : Builder (Observed τ) :=
  b.recast (fun target => ⟨target, []⟩) b.options.failOnError

/-- What the target is asked at an event, with its answers. -/
def asked (b : Builder τ) (e : Event) : List (Call × Answer) :=
  (b.observed.handle e).state.target.log

/-- The events of a run that goes on after refusals, each with what the target is asked at it. -/
def transcript : Builder τ → List Event → List (Event × List (Call × Answer))
  | _, [] => []
  | b, e :: rest => (e, b.asked e) :: transcript (b.handle e).state rest

/-- A builder does not notice that its target is observed. -/
theorem handle_observed (b : Builder τ) (e : Event) :
    (b.observed.handle e).map (recast Observed.target b.options.failOnError) = b.handle e :=
  (handle_recast (b.observed.target.maps) e).symm

theorem transcript_append (b : Builder τ) (events rest : List Event) :
    b.transcript (events ++ rest) =
      b.transcript events ++ (pursue handle b events).1.transcript rest := by
  induction events generalizing b with
  | nil => rfl
  | cons e events ih => exact congrArg (_ :: ·) (ih _)

end Transcript

end Builder

/-! ## Scripts -/

/-- What a target is asked while a row is read, and what comes of it. -/
structure Script (τ : Type) where
  /-- The target at the end. -/
  target : τ
  /-- The nodes that it made for the nonterminals of the row, in order. -/
  ids : List NodeId := []
  /-- Number of nodes that were handed over. -/
  merged : Nat := 0
  /-- The events of the row, each with what the target is asked at it. -/
  lines : List (Event × List (Call × Answer))
deriving DecidableEq

namespace Script

variable {τ : Type}

/-- Events at which the target is asked nothing. -/
def quiet (target : τ) (events : List Event) : Script τ :=
  { target := target, lines := events.map fun e => (e, []) }

/-- Two scripts of one row, one after the other. -/
def andThen (s t : Script τ) : Script τ where
  target := t.target
  ids := s.ids ++ t.ids
  merged := s.merged + t.merged
  lines := s.lines ++ t.lines

/-- The script of a nonterminal around the one of its content: at the end the target is asked for
`count` nodes, with the result `d`. -/
def close (s : Script τ) (name : String) (call : Call) (count : Nat) (d : Delivery τ) :
    Script τ where
  target := d.target
  ids := d.outcome.toOption.toList
  merged := s.merged + if d.outcome.isOk then count else 0
  lines := (.startNonterminal name, []) :: (s.lines ++ [(.endNonterminal name, [(call, d.outcome)])])

end Script

namespace Phrase

variable {τ : Type} [MergeTarget τ]

/-- The element of a nonterminal that starts at `pos`. -/
def element (rule : AttributeCursor) (pos : Nat) (name : String) (content : Phrase) : Element :=
  ⟨name, ⟨pos, pos + content.width rule none⟩, settled content.commits⟩

/-- Deferred: the target gets a nonterminal at its end, as the tree of all nonterminals in it. -/
def mergeScript (options : Options) (pos : Nat) (target : τ) (name : String) (content : Phrase) :
    Script τ :=
  let t : Tree Element := ⟨content.element options.attributeCursor pos name,
    content.forest options.attributeCursor pos⟩
  (Script.quiet target content.events).close name (.merge t options.balancing)
    (1 + t.children.size) (MergeTarget.merge target t options.balancing)

/-- Incremental: the target gets a nonterminal at its end, over the nodes that it made for those
directly in it; `inner` is the script of the content. -/
def insertScript (options : Options) (pos : Nat) (name : String) (content : Phrase)
    (inner : Script τ) : Script τ :=
  let e := content.element options.attributeCursor pos name
  inner.close name (.insert e inner.ids options.balancing) 1
    (MergeTarget.insert inner.target e inner.ids options.balancing)

/-- What a target is asked while a row is read from `pos` on.  If delivery is deferred this is a row
outside all nonterminals. -/
def script (options : Options) (pos : Nat) (target : τ) : Phrase → Script τ
  | nil => .quiet target []
  | terminal codepoint rest =>
    (Script.quiet target [.terminal codepoint]).andThen (rest.script options (pos + 1) target)
  | excluded length rest =>
    (Script.quiet target [.excluded length]).andThen (rest.script options (pos + length) target)
  | nonterminal name content rest =>
    let s := match options.merge with
      | .deferred => content.mergeScript options pos target name
      | .incremental => content.insertScript options pos name (content.script options pos target)
    s.andThen (rest.script options (pos + content.width options.attributeCursor none) s.target)
  | attr name content rest =>
    (Script.quiet target (.startAttribute name :: (content.events ++ [.endAttribute]))).andThen
      (rest.script options (pos + content.width options.attributeCursor (some name)) target)

end Phrase

/-! ## Streams of phrases -/

/-- The event neither opens nor closes a nonterminal. -/
def Event.staysInRow : Event → Bool
  | startNonterminal _ => false
  | endNonterminal _ => false
  | _ => true

namespace Phrase

/-- In an attribute no nonterminal opens or closes. -/
theorem events_inAttribute {ph : Phrase} (hph : ph.Valid .inAttribute) :
    ∀ e ∈ ph.events, e.staysInRow = true := by
  induction ph with
  | nil => exact List.forall_mem_nil _
  | terminal codepoint rest ih =>
    exact List.forall_mem_cons.mpr ⟨rfl, ih hph.2⟩
  | excluded length rest ih =>
    exact List.forall_mem_cons.mpr ⟨rfl, ih hph⟩
  | nonterminal name content rest => exact absurd rfl hph.1
  | attr name content rest ihc ihr =>
    refine List.forall_mem_cons.mpr ⟨rfl, ?_⟩
    refine List.forall_mem_append.mpr ⟨ihc hph.2.1, ?_⟩
    exact List.forall_mem_cons.mpr ⟨rfl, ihr hph.2.2⟩

/-- How far the stream of a phrase reaches. -/
theorem reach_events (rule : AttributeCursor) {ph : Phrase} {place : Place} (hph : ph.Valid place)
    {scopes : List String} (hscopes : place ≠ .inAttribute → scopes = []) (es : List Event) :
    Event.reach rule scopes (ph.events ++ es) =
      ph.width rule scopes.head? + Event.reach rule scopes es := by
  induction ph generalizing place scopes es with
  | nil => exact (Nat.zero_add _).symm
  | terminal codepoint rest ih =>
    rw [Phrase.events, List.cons_append, Event.reach, width, Nat.add_assoc]
    exact congrArg _ (ih hph.2 hscopes es)
  | excluded length rest ih =>
    rw [Phrase.events, List.cons_append, Event.reach, width, Nat.add_assoc]
    exact congrArg _ (ih hph hscopes es)
  | nonterminal name content rest ihc ihr =>
    obtain ⟨hplace, -, hcontent, hrest⟩ := hph
    obtain rfl := hscopes hplace
    rw [Phrase.events, List.cons_append, List.append_assoc, List.cons_append, Event.reach, width]
    show 0 + Event.reach rule [] _ = _
    rw [Nat.zero_add, ihc hcontent (fun _ => rfl), Event.reach]
    show _ + (0 + Event.reach rule [] _) = _
    rw [Nat.zero_add, ihr hrest hscopes, Nat.add_assoc]
    rfl
  | attr name content rest ihc ihr =>
    obtain ⟨-, hcontent, hrest⟩ := hph
    rw [Phrase.events, List.cons_append, List.append_assoc, List.cons_append, Event.reach, width]
    show 0 + Event.reach rule (name :: scopes) _ = _
    rw [Nat.zero_add, ihc hcontent (fun hne => absurd rfl hne), Event.reach]
    show _ + (0 + Event.reach rule scopes _) = _
    rw [Nat.zero_add, ihr hrest hscopes, Nat.add_assoc]
    rfl

end Phrase

namespace Builder

open MergeTarget

variable {τ : Type} [MergeTarget τ] {b : Builder τ} {d d' : Draft} {e : Event} {f : Frame}
  {events rest : List Event}

/-! ## What the target is asked at an event -/

omit [MergeTarget τ] in
theorem Follows.observed (h : b.Follows d) : b.observed.Follows d := h.recast _ _

/-- Only a nonterminal that closes is given to the target, and not if it is to wait. -/
theorem asked_nothing (h : b.Follows d)
    (hno : ∀ f d', d.move? b.options.attributeCursor e = some (.close f d') →
      b.options.merge = .deferred ∧ d'.frames ≠ []) : b.asked e = [] := by
  show (b.observed.apply e).state.target.log = []
  cases h.observed.takes e with
  | refused error hs hr => rw [hr]; rfl
  | quiet d' b' hs hr hfol hagree =>
    rw [hr]
    exact congrArg Observed.log hagree.target
  | root f d' hm _ hd' => exact absurd hd' (hno f d' hm).2
  | node f d' c cs hm hinc => exact absurd (hinc.symm.trans (hno f d' hm).1) (by decide)

theorem asked_root (h : b.Follows d) (hdef : b.options.merge = .deferred)
    (hm : d.move? b.options.attributeCursor e = some (.close f d')) (hd' : d'.frames = []) :
    b.asked e = [(.merge ⟨f.element, f.kids⟩ b.options.balancing,
      (MergeTarget.merge b.target ⟨f.element, f.kids⟩ b.options.balancing).outcome)] :=
  congrArg Observed.log (apply_close_root h.observed hdef hm hd').target

theorem asked_node (h : b.Follows d) (hinc : b.options.merge = .incremental)
    (hm : d.move? b.options.attributeCursor e = some (.close f d')) {c : List NodeId}
    {cs : List (List NodeId)} (hclaims : b.claims = c :: cs) :
    b.asked e = [(.insert f.element c b.options.balancing,
      (MergeTarget.insert b.target f.element c b.options.balancing).outcome)] := by
  obtain ⟨c', cs', hclaims', hd⟩ := apply_close_inserts h.observed hinc hm
  obtain ⟨rfl, rfl⟩ := List.cons.inj (hclaims.symm.trans hclaims')
  exact congrArg Observed.log hd.target

/-- A tree that the target gets is the one that all links of the waiting nodes show. -/
theorem asked_shown (h : b.Follows d) (hlinked : b.Linked) {t : Tree Element}
    {balancing : Balancing} {answer : Answer} (hmem : (.merge t balancing, answer) ∈ b.asked e) :
    ∃ n shape, b.stack = [n] ∧ (b.pending.setStop n.id b.cursor).Shows n.id shape ∧
      t = ⟨(b.pending.setStop n.id b.cursor).element n.id,
        shape.map (b.pending.setStop n.id b.cursor).element⟩ := by
  obtain ⟨f, d', hm, hroot⟩ : ∃ f d', d.move? b.options.attributeCursor e = some (.close f d') ∧
      (b.options.merge = .deferred → d'.frames = []) := by
    by_contra hno
    push Not at hno
    rw [asked_nothing h hno] at hmem
    cases hmem
  cases hmerge : b.options.merge with
  | incremental =>
    obtain ⟨c, cs, hclaims, -⟩ := apply_close_inserts h hmerge hm
    rw [asked_node h hmerge hm hclaims] at hmem
    cases List.mem_singleton.mp hmem
  | deferred =>
    rw [asked_root h hmerge hm (hroot hmerge)] at hmem
    cases List.mem_singleton.mp hmem
    exact h.root_shown hlinked hmerge hm (hroot hmerge)

/-! ## Runs that follow a script -/

/-- The claims when the target has made `ids` for nonterminals of the innermost row. -/
def handedAll (ids : List NodeId) (cs : List (List NodeId)) : List (List NodeId) :=
  ids.foldl (fun cs host => handed host cs) cs

omit [MergeTarget τ] in
theorem handedAll_cons (ids c : List NodeId) (cs : List (List NodeId)) :
    handedAll ids (c :: cs) = (c ++ ids) :: cs := by
  induction ids generalizing c with
  | nil => rw [List.append_nil]; rfl
  | cons host ids ih =>
    rw [List.append_cons]
    exact ih (c ++ [host])

/-- A run over the events of a row does what the script says. -/
structure Plays (b : Builder τ) (events : List Event) (s : Script τ) : Prop where
  options : (pursue handle b events).1.options = b.options
  /-- The row ends where it has begun. -/
  stack : (pursue handle b events).1.stack = [] ↔ b.stack = []
  lines : b.transcript events = s.lines
  target : (pursue handle b events).1.target = s.target
  merged : (pursue handle b events).1.merged = b.merged + s.merged
  /-- What the target makes for nonterminals outside all others are roots. -/
  roots : (pursue handle b events).1.roots = b.roots + if b.stack = [] then s.ids.length else 0
  /-- What it makes for the others is claimed for the one around them. -/
  claims : b.options.merge = .incremental →
    (pursue handle b events).1.claims = handedAll s.ids b.claims

theorem plays_nil (b : Builder τ) : b.Plays [] (.quiet b.target []) :=
  ⟨rfl, Iff.rfl, rfl, rfl, rfl, by split <;> rfl, fun _ => rfl⟩

theorem Plays.andThen {s t : Script τ} (h : b.Plays events s)
    (ht : (pursue Builder.handle b events).1.Plays rest t) :
    b.Plays (events ++ rest) (s.andThen t) := by
  refine ⟨?_, ?_, ?_, ?_, ?_, ?_, fun hinc => ?_⟩
  · rw [pursue_append]
    exact ht.options.trans h.options
  · rw [pursue_append]
    exact ht.stack.trans h.stack
  · rw [transcript_append, h.lines, ht.lines]
    rfl
  · rw [pursue_append]
    exact ht.target
  · rw [pursue_append, ht.merged, h.merged, Nat.add_assoc]
    rfl
  · rw [pursue_append, ht.roots, h.roots, if_congr h.stack rfl rfl, Nat.add_assoc]
    congr 1
    split
    · exact List.length_append.symm
    · rfl
  · rw [pursue_append, ht.claims (h.options ▸ hinc), h.claims hinc]
    exact List.foldl_append.symm

omit [MergeTarget τ] in
theorem stack_nil_iff_claims : b.stack = [] ↔ b.claims = [] := List.map_eq_nil_iff.symm

/-- An event that neither opens nor closes a nonterminal. -/
theorem plays_stay (h : b.Follows d)
    (hm : d.move? b.options.attributeCursor e = some (.stay d')) :
    b.Plays [e] (.quiet b.target [e]) := by
  obtain ⟨b', happly, -, hagree, hclaims⟩ := apply_stay h hm
  have hstate : (pursue handle b [e]).1 = b' := by
    show (b.apply e).state = b'
    rw [happly]
    rfl
  refine ⟨?_, ?_, ?_, ?_, ?_, ?_, fun _ => ?_⟩
  · rw [hstate, hagree.options]
  · rw [hstate, stack_nil_iff_claims, stack_nil_iff_claims, hclaims]
  · rw [transcript, asked_nothing h fun f d' hm' => by cases hm.symm.trans hm']
    rfl
  · rw [hstate, hagree.target]
    rfl
  · rw [hstate, hagree.merged]
    rfl
  · rw [hstate, hagree.roots]
    split <;> rfl
  · rw [hstate, hclaims]
    rfl

/-- Events that neither open nor close nonterminals. -/
theorem plays_stays (h : b.Follows d)
    (hrun : d.run? b.options.attributeCursor events = some d')
    (hstays : ∀ e ∈ events, e.staysInRow = true) :
    b.Plays events (.quiet b.target events) := by
  induction events generalizing b d with
  | nil => exact plays_nil b
  | cons e events ih =>
    obtain ⟨d₁, hstep, hrest⟩ := Option.bind_eq_some_iff.mp hrun
    obtain ⟨mv, hm, rfl⟩ := Option.map_eq_some_iff.mp hstep
    have he := hstays e List.mem_cons_self
    cases mv with
    | start d₁ =>
      obtain ⟨name, rfl, -⟩ := Draft.start_cases hm
      exact absurd he Bool.false_ne_true
    | close f d₁ =>
      obtain ⟨g, outer, rfl, -⟩ := Draft.close_cases hm
      exact absurd he Bool.false_ne_true
    | stay d₁ =>
      have hone := plays_stay h hm
      obtain ⟨b', happly, hfol, hagree, -⟩ := apply_stay h hm
      have hstate : (b.handle e).state = b' := by
        show (b.apply e).state = b'
        rw [happly]
        rfl
      rw [← hagree.options] at hrest
      have hrest' := ih hfol hrest fun x hx => hstays x (List.mem_cons_of_mem _ hx)
      rw [hagree.target, ← hstate] at hrest'
      exact hone.andThen hrest'

/-! ## Nonterminals that wait -/

/-- The roots that have closed do not get fewer, and a closed root is one more. -/
theorem roots_le_step {rule : AttributeCursor} (hs : d.step? rule e = some d') :
    d.roots.labels.length ≤ d'.roots.labels.length ∧
      ∀ f d₁, d.move? rule e = some (.close f d₁) → d₁.frames = [] →
        d.roots.labels.length < d'.roots.labels.length := by
  obtain ⟨mv, hm, rfl⟩ := Option.map_eq_some_iff.mp hs
  cases mv with
  | start d' =>
    obtain ⟨name, -, -, -, rfl⟩ := Draft.start_cases hm
    exact ⟨Nat.le_refl _, fun f d₁ hm' => by cases hm.symm.trans hm'⟩
  | stay d' =>
    rw [Draft.settle, (Draft.stay_cases hm).2.1]
    exact ⟨Nat.le_refl _, fun f d₁ hm' => by cases hm.symm.trans hm'⟩
  | close f d' =>
    obtain ⟨g, outer, -, -, -, -, rfl⟩ := Draft.close_cases hm
    rw [Draft.settle, Draft.attach]
    cases outer with
    | cons g' outer =>
      refine ⟨Nat.le_refl _, fun f' d₁ hm' hd₁ => ?_⟩
      cases hm.symm.trans hm'
      exact absurd hd₁ (List.cons_ne_nil _ _)
    | nil =>
      have hlt : d.roots.labels.length < (d.roots ++ f.tree).labels.length := by
        rw [Forest.labels_append, List.length_append]
        exact Nat.lt_add_of_pos_right Nat.one_pos
      exact ⟨Nat.le_of_lt hlt, fun _ _ _ _ => hlt⟩

theorem roots_le_run {rule : AttributeCursor} (hrun : d.run? rule events = some d') :
    d.roots.labels.length ≤ d'.roots.labels.length := by
  induction events generalizing d with
  | nil =>
    cases hrun
    exact Nat.le_refl _
  | cons e events ih =>
    obtain ⟨d₁, hstep, hrest⟩ := Option.bind_eq_some_iff.mp hrun
    exact Nat.le_trans (roots_le_step hstep).1 (ih hrest)

/-- Deferred: where no root closes the target is asked nothing. -/
theorem waits_run (h : b.Follows d) (hdef : b.options.merge = .deferred)
    (hrun : d.run? b.options.attributeCursor events = some d')
    (hroots : d'.roots.labels.length ≤ d.roots.labels.length) :
    b.transcript events = events.map (fun e => (e, [])) ∧
      b.Agrees (pursue handle b events).1 := by
  induction events generalizing b d with
  | nil => exact ⟨rfl, .refl b⟩
  | cons e events ih =>
    obtain ⟨d₁, hstep, hrest⟩ := Option.bind_eq_some_iff.mp hrun
    obtain ⟨hle, hlt⟩ := roots_le_step hstep
    have hle' := roots_le_run hrest
    have hinner (f : Frame) (d₂ : Draft)
        (hm : d.move? b.options.attributeCursor e = some (.close f d₂)) : d₂.frames ≠ [] :=
      fun hnil => Nat.lt_irrefl _
        (Nat.lt_of_lt_of_le (hlt f d₂ hm hnil) (Nat.le_trans hle' hroots))
    have hasked := asked_nothing h fun f d₂ hm => ⟨hdef, hinner f d₂ hm⟩
    obtain ⟨b', hstate, hfol, hagree⟩ : ∃ b', (b.handle e).state = b' ∧ b'.Follows d₁ ∧
        b.Agrees b' := by
      cases h.takes e with
      | refused error hs hr => cases hs.symm.trans hstep
      | quiet d₂ b' hs hr hfol hagree =>
        cases hs.symm.trans hstep
        exact ⟨b', congrArg Response.state hr, hfol, hagree⟩
      | root f d₂ hm _ hd₂ => exact absurd hd₂ (hinner f d₂ hm)
      | node f d₂ c cs hm hinc => exact absurd (hdef.symm.trans hinc) (by decide)
    rw [← hagree.options] at hrest
    obtain ⟨hlines, hagree'⟩ := ih hfol (hagree.options ▸ hdef) hrest
      (Nat.le_trans hroots hle)
    subst hstate
    refine ⟨?_, hagree.trans hagree'⟩
    rw [transcript, hasked, hlines]
    rfl

/-! ## Nonterminals that close -/

/-- A builder follows its draft over a stream that the draft takes, whatever the target answers. -/
theorem Follows.run (h : b.Follows d) (hrun : d.run? b.options.attributeCursor events = some d') :
    (Standoff.pursue Builder.handle b events).1.Follows d' := by
  have hafter : events.foldl (Draft.after b.options.attributeCursor) d = d' := by
    generalize b.options.attributeCursor = rule at hrun
    clear h
    induction events generalizing d with
    | nil => exact Option.some.inj hrun
    | cons e events ih =>
      obtain ⟨d₁, hstep, hrest⟩ := Option.bind_eq_some_iff.mp hrun
      rw [List.foldl_cons, Draft.after, hstep]
      exact ih hrest
  exact hafter ▸ (h.pursue events).1

omit [MergeTarget τ] in
theorem attach_frames_nil_iff : (d.attach f).frames = [] ↔ d.frames = [] := by
  unfold Draft.attach
  split
  · exact Iff.rfl
  · next g outer hf => exact iff_of_false (List.cons_ne_nil _ _) (hf ▸ List.cons_ne_nil _ _)

/-- A nonterminal has opened. -/
theorem follows_opened {frames : List Frame} {pos : Nat} {roots : Forest Element} {name : String}
    (h : b.Follows ⟨frames, [], pos, roots⟩) (hname : name ≠ "") :
    (b.handle (.startNonterminal name)).state.Follows
        ⟨.opened name pos :: frames, [], pos, roots⟩ ∧
      b.Agrees (b.handle (.startNonterminal name)).state ∧
      (b.handle (.startNonterminal name)).state.claims = [] :: b.claims := by
  have hm : Draft.move? b.options.attributeCursor ⟨frames, [], pos, roots⟩
      (.startNonterminal name) = some (.start ⟨.opened name pos :: frames, [], pos, roots⟩) := if_neg hname
  obtain ⟨b₁, happly, hfol, hagree, hclaims⟩ := apply_start h hm
  have hstate : (b.handle (.startNonterminal name)).state = b₁ := congrArg Response.state happly
  rw [hstate]
  exact ⟨hfol, hagree, hclaims⟩

/-- A nonterminal around events that follow a script, where the target is asked once at its end. -/
theorem plays_close {frames : List Frame} {pos stop : Nat} {roots : Forest Element} {name : String}
    {g : Frame} {s : Script τ} {call : Call} {count : Nat} {D : Delivery τ}
    (h : b.Follows ⟨frames, [], pos, roots⟩) (hname : name ≠ "")
    (hinner : (b.handle (.startNonterminal name)).state.Plays events s)
    (hasked : (pursue handle (b.handle (.startNonterminal name)).state events).1.asked
      (.endNonterminal name) = [(call, D.outcome)])
    (hdelivers : (pursue handle (b.handle (.startNonterminal name)).state events).1.Delivers D g
      ⟨frames, [], stop, roots⟩ count b.claims
      ((pursue handle (b.handle (.startNonterminal name)).state events).1.apply
        (.endNonterminal name)))
    (hrow : frames = [] ∨ b.options.merge = .incremental) :
    b.Plays (.startNonterminal name :: (events ++ [.endNonterminal name]))
      (s.close name call count D) := by
  obtain ⟨-, hagree, hclaims⟩ := follows_opened h hname
  have hlast : (pursue handle b (.startNonterminal name :: (events ++ [.endNonterminal name]))).1 =
      ((pursue handle (b.handle (.startNonterminal name)).state events).1.apply
        (.endNonterminal name)).state := by
    rw [pursue, pursue_append]
    rfl
  have hstart : b.asked (.startNonterminal name) = [] :=
    asked_nothing h fun f d' hm => by
      rw [Draft.move?, if_neg hname] at hm
      cases hm
  have hlines : b.transcript (.startNonterminal name :: (events ++ [.endNonterminal name])) =
      (s.close name call count D).lines := by
    rw [transcript, transcript_append, hinner.lines, transcript, hasked, hstart]
    rfl
  generalize (b.handle (.startNonterminal name)).state = b₁ at hinner hdelivers hlast hagree hclaims
  generalize (pursue handle b₁ events).1.apply (.endNonterminal name) = r at hdelivers hlast
  have hstack₁ : b₁.stack ≠ [] := fun hnil =>
    List.cons_ne_nil _ _ (hclaims.symm.trans (stack_nil_iff_claims.mp hnil))
  have hoptions : (pursue handle b₁ events).1.options = b.options :=
    hinner.options.trans hagree.options
  have hfol := hdelivers.follows (hrow.imp_right (by rw [hoptions]; exact id))
  obtain ⟨hmerged, hroots, hclaims'⟩ :
      r.state.merged = b.merged + (s.close name call count D).merged ∧ r.state.roots =
        b.roots + (if frames = [] then (s.close name call count D).ids.length else 0) ∧
      r.state.claims = handedAll (s.close name call count D).ids b.claims := by
    have hroots₁ : (pursue handle b₁ events).1.roots = b.roots := by
      rw [hinner.roots, if_neg hstack₁, hagree.roots, Nat.add_zero]
    have hmerged₁ : (pursue handle b₁ events).1.merged = b.merged + s.merged := by
      rw [hinner.merged, hagree.merged]
    rw [Script.close]
    cases hout : D.outcome with
    | ok host =>
      obtain ⟨-, -, hclaims, hroots, hmerged⟩ := hdelivers.accepted host hout
      exact ⟨by rw [hmerged, hmerged₁, Nat.add_assoc]; rfl, by rw [hroots, hroots₁]; rfl, hclaims⟩
    | error conflict =>
      obtain ⟨-, -, hclaims, hroots, hmerged⟩ := hdelivers.refused conflict hout
      refine ⟨by rw [hmerged, hmerged₁]; rfl, ?_, hclaims⟩
      rw [hroots, hroots₁]
      exact (congrArg (b.roots + ·) (ite_self 0)).symm
  refine ⟨?_, ?_, hlines, ?_, ?_, ?_, fun _ => ?_⟩
  · rw [hlast, hdelivers.options, hoptions]
  · rw [hlast, hfol.stack_nil_iff, attach_frames_nil_iff, h.stack_nil_iff]
  · rw [hlast]
    exact hdelivers.target
  · rw [hlast, hmerged]
  · rw [hlast, hroots, if_congr h.stack_nil_iff rfl rfl]
  · rw [hlast, hclaims']

/-! ## Phrases -/

section Phrases

open Draft

variable {rule : AttributeCursor} {frames : List Frame} {pos : Nat} {roots : Forest Element}
  {name : String} {content ph : Phrase}

/-- The frame of a nonterminal that was read, at its end. -/
theorem endAt_read (rule : AttributeCursor) (pos : Nat) (name : String) (content : Phrase) :
    ((Frame.opened name pos).read rule pos content).endAt (pos + content.width rule none) =
      ⟨content.element rule pos name, content.forest rule pos⟩ := by
  have htree := Frame.tree_read rule pos (pos + content.width rule none) name content
  obtain ⟨helement, hkids, -⟩ := Forest.node.inj htree
  exact congrArg₂ Frame.mk helement hkids

/-- A nonterminal is read. -/
theorem run?_nonterminal (hname : name ≠ "") (hcontent : content.Valid .inNode)
    (hle : pos + content.width rule none ≤ maxCursor) :
    run? rule ⟨frames, [], pos, roots⟩
        (.startNonterminal name :: (content.events ++ [.endNonterminal name])) =
      some ((⟨frames, [], pos + content.width rule none, roots⟩ : Draft).attach
        ⟨content.element rule pos name, content.forest rule pos⟩) := by
  rw [run?_cons (step?_start hname), run?_append, run?_inNode hcontent hle, Option.bind_some,
    run?_cons step?_end, endAt_read]
  rfl

/-- What closes in a row leaves a row. -/
theorem attach_row (f : Frame) (frames : List Frame) (pos : Nat) (roots : Forest Element) :
    ∃ frames' roots', (⟨frames, [], pos, roots⟩ : Draft).attach f = ⟨frames', [], pos, roots'⟩ ∧
      (frames' = [] ↔ frames = []) := by
  cases frames with
  | nil => exact ⟨_, _, rfl, Iff.rfl⟩
  | cons g outer =>
    exact ⟨_, _, rfl, iff_of_false (List.cons_ne_nil _ _) (List.cons_ne_nil _ _)⟩

/-- An attribute is read. -/
theorem run?_attr {f : Frame} {outer : List Frame} (hcontent : content.Valid .inAttribute)
    (hle : pos + content.width rule (some name) ≤ maxCursor) :
    run? rule ⟨f :: outer, [], pos, roots⟩
        (.startAttribute name :: (content.events ++ [.endAttribute])) =
      some ⟨(f.commit content.commits).commit [(name, String.ofList content.value)] :: outer, [],
        pos + content.width rule (some name), roots⟩ := by
  have hstart : step? rule ⟨f :: outer, [], pos, roots⟩ (.startAttribute name) =
      some ⟨f :: outer, [⟨name, ""⟩], pos, roots⟩ := rfl
  have hinner : run? rule ⟨f :: outer, [⟨name, ""⟩], pos, roots⟩ content.events = some _ :=
    run?_inAttribute (s := ⟨name, ""⟩) hcontent hle
  rw [run?_cons hstart, run?_append, hinner, Option.bind_some, String.empty_append,
    run?_cons step?_endAttribute]
  rfl

/-- At the end of a nonterminal the builder holds what was read. -/
theorem follows_content (h : b.Follows ⟨frames, [], pos, roots⟩) (hname : name ≠ "")
    (hcontent : content.Valid .inNode)
    (hle : pos + content.width b.options.attributeCursor none ≤ maxCursor) :
    ∃ d, (pursue handle (b.handle (.startNonterminal name)).state content.events).1.Follows d ∧
      d.move? b.options.attributeCursor (.endNonterminal name) =
        some (.close
          ⟨content.element b.options.attributeCursor pos name,
            content.forest b.options.attributeCursor pos⟩
          ⟨frames, [], pos + content.width b.options.attributeCursor none, roots⟩) := by
  have hrun : run? b.options.attributeCursor ⟨frames, [], pos, roots⟩
      (.startNonterminal name :: content.events) = some _ :=
    (run?_cons (step?_start hname) _).trans (run?_inNode hcontent hle)
  refine ⟨_, h.run hrun, (if_pos rfl).trans (congrArg (fun g => some (Move.close g _)) ?_)⟩
  exact endAt_read b.options.attributeCursor pos name content

/-- Deferred: the content of a nonterminal waits. -/
theorem plays_content {f : Frame} (h : b.Follows ⟨f :: frames, [], pos, roots⟩)
    (hdef : b.options.merge = .deferred) (hcontent : content.Valid .inNode)
    (hle : pos + content.width b.options.attributeCursor none ≤ maxCursor) :
    b.Plays content.events (.quiet b.target content.events) := by
  have hrun : run? b.options.attributeCursor ⟨f :: frames, [], pos, roots⟩ content.events =
      some _ := run?_inNode hcontent hle
  obtain ⟨hlines, hagree⟩ := waits_run h hdef hrun (Nat.le_refl _)
  have hopen : b.stack ≠ [] := fun hnil => List.cons_ne_nil _ _ (h.stack_nil_iff.mp hnil)
  refine ⟨hagree.options, ?_, hlines, hagree.target, hagree.merged, ?_, fun hinc => ?_⟩
  · refine iff_of_false (fun hnil => ?_) hopen
    exact List.cons_ne_nil _ _ ((h.run hrun).stack_nil_iff.mp hnil)
  · rw [hagree.roots, if_neg hopen, Nat.add_zero]
  · exact absurd (hdef.symm.trans hinc) (by decide)

/-- A terminal of a row. -/
theorem plays_terminal (h : b.Follows ⟨frames, [], pos, roots⟩) {codepoint : Nat}
    (hchar : Text.isXmlChar codepoint = true) (hle : pos + 1 ≤ maxCursor) :
    b.Plays [.terminal codepoint] (.quiet b.target [.terminal codepoint]) ∧
      (pursue handle b [.terminal codepoint]).1.Follows ⟨frames, [], pos + 1, roots⟩ := by
  have hrun : run? b.options.attributeCursor ⟨frames, [], pos, roots⟩ [.terminal codepoint] =
      some ⟨frames, [], pos + 1, roots⟩ := run?_cons (step?_terminal hchar hle) []
  exact ⟨plays_stays h hrun (List.forall_mem_singleton.mpr rfl), h.run hrun⟩

theorem plays_excluded (h : b.Follows ⟨frames, [], pos, roots⟩) {length : Nat}
    (hle : pos + length ≤ maxCursor) :
    b.Plays [.excluded length] (.quiet b.target [.excluded length]) ∧
      (pursue handle b [.excluded length]).1.Follows ⟨frames, [], pos + length, roots⟩ := by
  have hrun : run? b.options.attributeCursor ⟨frames, [], pos, roots⟩ [.excluded length] =
      some ⟨frames, [], pos + length, roots⟩ := run?_cons (step?_excluded hle) []
  exact ⟨plays_stays h hrun (List.forall_mem_singleton.mpr rfl), h.run hrun⟩

theorem plays_attr {f : Frame} {outer : List Frame} (h : b.Follows ⟨f :: outer, [], pos, roots⟩)
    (hcontent : content.Valid .inAttribute)
    (hle : pos + content.width b.options.attributeCursor (some name) ≤ maxCursor) :
    b.Plays (.startAttribute name :: (content.events ++ [.endAttribute]))
        (.quiet b.target (.startAttribute name :: (content.events ++ [.endAttribute]))) ∧
      (pursue handle b (.startAttribute name :: (content.events ++ [.endAttribute]))).1.Follows
        ⟨(f.commit content.commits).commit [(name, String.ofList content.value)] :: outer, [],
          pos + content.width b.options.attributeCursor (some name), roots⟩ := by
  have hrun : run? b.options.attributeCursor ⟨f :: outer, [], pos, roots⟩
      (.startAttribute name :: (content.events ++ [.endAttribute])) = some _ :=
    run?_attr hcontent hle
  refine ⟨plays_stays h hrun ?_, h.run hrun⟩
  refine List.forall_mem_cons.mpr ⟨rfl, ?_⟩
  exact List.forall_mem_append.mpr ⟨Phrase.events_inAttribute hcontent,
    List.forall_mem_singleton.mpr rfl⟩

/-- Deferred: a root goes to the target. -/
theorem plays_root (h : b.Follows ⟨[], [], pos, roots⟩) (hdef : b.options.merge = .deferred)
    (hname : name ≠ "") (hcontent : content.Valid .inNode)
    (hle : pos + content.width b.options.attributeCursor none ≤ maxCursor) :
    b.Plays (.startNonterminal name :: (content.events ++ [.endNonterminal name]))
      (content.mergeScript b.options pos b.target name) := by
  obtain ⟨hfol₁, hagree, -⟩ := follows_opened h hname
  have hinner := plays_content hfol₁ (hagree.options ▸ hdef) hcontent (hagree.options ▸ hle)
  rw [hagree.target] at hinner
  obtain ⟨d₂, hfol₂, hm⟩ := follows_content h hname hcontent hle
  have hoptions := hinner.options.trans hagree.options
  rw [← hoptions] at hm
  have hdef₂ := hdef
  rw [← hoptions] at hdef₂
  have hclaims : b.claims = [] := stack_nil_iff_claims.mp (h.stack_nil_iff.mpr rfl)
  have hasked := asked_root hfol₂ hdef₂ hm rfl
  have hdelivers := apply_close_root hfol₂ hdef₂ hm rfl
  rw [hinner.target, hoptions] at hasked hdelivers
  rw [← hclaims] at hdelivers
  exact plays_close h hname hinner hasked hdelivers (.inl rfl)

/-- Incremental: a nonterminal goes to the target over the nodes made for those in it. -/
theorem plays_node (h : b.Follows ⟨frames, [], pos, roots⟩)
    (hinc : b.options.merge = .incremental) (hname : name ≠ "") (hcontent : content.Valid .inNode)
    (hle : pos + content.width b.options.attributeCursor none ≤ maxCursor) {s : Script τ}
    (hinner : (b.handle (.startNonterminal name)).state.Plays content.events s) :
    b.Plays (.startNonterminal name :: (content.events ++ [.endNonterminal name]))
      (content.insertScript b.options pos name s) := by
  obtain ⟨-, hagree, hclaims⟩ := follows_opened h hname
  obtain ⟨d₂, hfol₂, hm⟩ := follows_content h hname hcontent hle
  have hoptions := hinner.options.trans hagree.options
  rw [← hoptions] at hm
  have hinc₂ := hinc
  rw [← hoptions] at hinc₂
  have hclaims₂ := hinner.claims (hagree.options ▸ hinc)
  rw [hclaims, handedAll_cons, List.nil_append] at hclaims₂
  have hasked := asked_node hfol₂ hinc₂ hm hclaims₂
  obtain ⟨c, cs, hcs, hdelivers⟩ := apply_close_inserts hfol₂ hinc₂ hm
  obtain ⟨rfl, rfl⟩ := List.cons.inj (hclaims₂.symm.trans hcs)
  rw [hinner.target, hoptions] at hasked hdelivers
  exact plays_close h hname hinner hasked hdelivers (.inr hinc)

/-- A run over a row follows its script; if delivery is deferred, over one outside all
nonterminals. -/
theorem plays_row {place : Place} (h : b.Follows ⟨frames, [], pos, roots⟩)
    (hrow : frames = [] ∨ b.options.merge = .incremental) (hph : ph.Valid place)
    (hplace : place ≠ .inAttribute) (hframes : frames = [] → place = .outside)
    (hle : pos + ph.width b.options.attributeCursor none ≤ maxCursor) :
    b.Plays ph.events (ph.script b.options pos b.target) := by
  induction ph generalizing b pos roots frames place with
  | nil => exact plays_nil b
  | terminal codepoint rest ih =>
    rw [Phrase.width, ← Nat.add_assoc] at hle
    obtain ⟨hone, hfol⟩ := plays_terminal h hph.1 (Nat.le_trans (Nat.le_add_right _ _) hle)
    have hrest := ih hfol (hone.options ▸ hrow) hph.2 hplace hframes (hone.options ▸ hle)
    rw [hone.options, hone.target] at hrest
    exact hone.andThen hrest
  | excluded length rest ih =>
    rw [Phrase.width, ← Nat.add_assoc] at hle
    obtain ⟨hone, hfol⟩ := plays_excluded h (Nat.le_trans (Nat.le_add_right _ _) hle)
    have hrest := ih hfol (hone.options ▸ hrow) hph hplace hframes (hone.options ▸ hle)
    rw [hone.options, hone.target] at hrest
    exact hone.andThen hrest
  | nonterminal name content rest ihc ihr =>
    obtain ⟨-, hname, hcontent, hrest⟩ := hph
    rw [Phrase.width, ← Nat.add_assoc] at hle
    have hle' := Nat.le_trans (Nat.le_add_right _ _) hle
    obtain ⟨s, hs, hitem⟩ : ∃ s, s = (match b.options.merge with
        | .deferred => content.mergeScript b.options pos b.target name
        | .incremental =>
          content.insertScript b.options pos name (content.script b.options pos b.target)) ∧
        b.Plays (.startNonterminal name :: (content.events ++ [.endNonterminal name])) s := by
      cases hmerge : b.options.merge with
      | deferred =>
        obtain rfl := hrow.resolve_right fun hinc => absurd (hmerge.symm.trans hinc) (by decide)
        exact ⟨_, rfl, plays_root h hmerge hname hcontent hle'⟩
      | incremental =>
        obtain ⟨hfol₁, hagree, -⟩ := follows_opened h hname
        have hinner := ihc hfol₁ (.inr (hagree.options ▸ hmerge)) hcontent (by decide)
          (fun hnil => absurd hnil (List.cons_ne_nil _ _)) (hagree.options ▸ hle')
        rw [hagree.options, hagree.target] at hinner
        exact ⟨_, rfl, plays_node h hmerge hname hcontent hle' hinner⟩
    obtain ⟨frames', roots', hattach, hframes'⟩ :=
      attach_row ⟨content.element b.options.attributeCursor pos name,
        content.forest b.options.attributeCursor pos⟩ frames
        (pos + content.width b.options.attributeCursor none) roots
    have hfol := h.run (run?_nonterminal hname hcontent hle')
    rw [hattach] at hfol
    have hrest := ihr hfol (hrow.imp hframes'.mpr (hitem.options ▸ ·)) hrest hplace
      (fun hnil => hframes (hframes'.mp hnil)) (hitem.options ▸ hle)
    rw [hitem.options, hitem.target] at hrest
    have hevents : (Phrase.nonterminal name content rest).events =
        .startNonterminal name :: (content.events ++ [.endNonterminal name]) ++ rest.events := by
      simp [Phrase.events]
    rw [hevents, Phrase.script, ← hs]
    exact hitem.andThen hrest
  | attr name content rest _ ih =>
    obtain ⟨hin, hcontent, hrest⟩ := hph
    rw [Phrase.width, ← Nat.add_assoc] at hle
    cases frames with
    | nil => exact absurd (hframes rfl) hin
    | cons f outer =>
      obtain ⟨hone, hfol⟩ := plays_attr h hcontent (Nat.le_trans (Nat.le_add_right _ _) hle)
      have hinc : b.options.merge = .incremental := hrow.resolve_left (List.cons_ne_nil _ _)
      have hrest := ih hfol (.inr (hone.options ▸ hinc)) hrest hplace
        (fun hnil => absurd hnil (List.cons_ne_nil _ _)) (hone.options ▸ hle)
      rw [hone.options, hone.target] at hrest
      have hevents : (Phrase.attr name content rest).events =
          .startAttribute name :: (content.events ++ [.endAttribute]) ++ rest.events := by
        simp [Phrase.events]
      rw [hevents]
      exact hone.andThen hrest

/-- A run over a stream of the grammar asks its target, event by event, for what the script of the
phrase says, whatever the target answers; what it counts are the roots and nodes that the target has
taken.  The script reckons with the cursor that the builder has, and a tree that the target gets is
the one that all links of the waiting nodes show. -/
theorem plays_script (ph : Phrase) (hph : ph.Valid .outside) (τ : Type) [MergeTarget τ] (target : τ)
    (options : Options) (hreach : Event.reach options.attributeCursor [] ph.events ≤ maxCursor) :
    let b₀ := start target options
    let b := (pursue handle b₀ ph.events).1
    let s := ph.script options 0 target
    b₀.transcript ph.events = s.lines ∧ b.target = s.target ∧
      b.finish = .ok ⟨ph.width options.attributeCursor none, s.ids.length, s.merged⟩ ∧
      (∀ before, before <+: ph.events →
        (pursue handle b₀ before).1.cursor = Event.reach options.attributeCursor [] before) ∧
      ∀ before e t balancing answer,
        let b' := (pursue handle b₀ before).1
        (.merge t balancing, answer) ∈ b'.asked e →
          ∃ n shape, b'.stack = [n] ∧
            let waiting := b'.pending.setStop n.id b'.cursor
            waiting.Shows n.id shape ∧ t = ⟨waiting.element n.id, shape.map waiting.element⟩ := by
  intro b₀ b s
  have hwidth : ph.width options.attributeCursor none ≤ maxCursor := by
    have hevents := Phrase.reach_events options.attributeCursor hph (fun _ => rfl) []
    rw [List.append_nil] at hevents
    rwa [hevents] at hreach
  have hstart : b₀.Follows ⟨[], [], 0, .nil⟩ := follows_start target options
  have hplays : b₀.Plays ph.events s :=
    plays_row hstart (.inl rfl) hph (by decide) (fun _ => rfl) (by rwa [Nat.zero_add])
  have hrun : run? options.attributeCursor ⟨[], [], 0, .nil⟩ ph.events =
      some ⟨[], [], 0 + ph.width options.attributeCursor none, _⟩ :=
    run?_outside hph (by rwa [Nat.zero_add])
  have hfol := hstart.run hrun
  refine ⟨hplays.lines, hplays.target, ?_, fun before hbefore => ?_,
    fun before e t balancing answer hmem => ?_⟩
  · refine (finish_iff hfol).mpr ⟨⟨rfl, rfl⟩, ?_⟩
    have hcursor : b.cursor = ph.width options.attributeCursor none :=
      hfol.cursor.trans (Nat.zero_add _)
    have hroots : b.roots = s.ids.length := hplays.roots.trans (Nat.zero_add _)
    have hmerged : b.merged = s.merged := hplays.merged.trans (Nat.zero_add _)
    rw [report, hcursor, hroots, hmerged]
  · obtain ⟨after, heq⟩ := hbefore
    rw [← heq, run?_append] at hrun
    obtain ⟨d, hd, -⟩ := Option.bind_eq_some_iff.mp hrun
    rw [(hstart.run hd).cursor, (proper_empty.run hd).2]
    exact Nat.zero_add _
  · exact asked_shown (hstart.pursue before).1 ((linked_start target options).pursue before) hmem

end Phrases

/-- A target that numbers what it is asked for, and refuses elements of the name `x`. -/
structure Picky where
  count : Nat := 0
deriving DecidableEq

/-- The answer to being asked for an element. -/
def Picky.answer (p : Picky) (e : Element) : Delivery Picky where
  target := ⟨p.count + 1⟩
  outcome := if e.name = "x" then .error ⟨e.name, e.span, .inverted⟩ else .ok p.count

instance : MergeTarget Picky where
  merge p t _ := p.answer t.label
  insert p e _ _ := p.answer e

/-- A refused nonterminal between others, one of them in it: its parent claims the others only. -/
theorem plays_script_picky :
    let ph : Phrase := .nonterminal "p" (.attr "a" (.terminal 121 .nil)
      (.nonterminal "q" (.terminal 97 .nil) (.nonterminal "x" (.nonterminal "q" .nil .nil)
        (.nonterminal "q" (.excluded 2 .nil) .nil)))) (.nonterminal "x" .nil .nil)
    let asks (merge : MergeStrategy) :=
      ((start ({} : Picky) { merge }).transcript ph.events).filter fun line => !line.2.isEmpty
    let kids : Forest Element := .node ⟨"q", ⟨0, 1⟩, {}⟩ .nil (.node ⟨"x", ⟨1, 1⟩, {}⟩
      (.node ⟨"q", ⟨1, 1⟩, {}⟩ .nil .nil) (.node ⟨"q", ⟨1, 3⟩, {}⟩ .nil .nil))
    ph.Valid .outside ∧ Event.reach .hold [] ph.events ≤ maxCursor ∧
      asks .deferred = [
        (.endNonterminal "p",
          [(.merge ⟨⟨"p", ⟨0, 3⟩, .setAll [("a", "y")] {}⟩, kids⟩ .inner, .ok 0)]),
        (.endNonterminal "x", [(.merge ⟨⟨"x", ⟨3, 3⟩, {}⟩, .nil⟩ .inner,
          .error ⟨"x", ⟨3, 3⟩, .inverted⟩)])] ∧
      asks .incremental = [
        (.endNonterminal "q", [(.insert ⟨"q", ⟨0, 1⟩, {}⟩ [] .inner, .ok 0)]),
        (.endNonterminal "q", [(.insert ⟨"q", ⟨1, 1⟩, {}⟩ [] .inner, .ok 1)]),
        (.endNonterminal "x", [(.insert ⟨"x", ⟨1, 1⟩, {}⟩ [1] .inner,
          .error ⟨"x", ⟨1, 1⟩, .inverted⟩)]),
        (.endNonterminal "q", [(.insert ⟨"q", ⟨1, 3⟩, {}⟩ [] .inner, .ok 3)]),
        (.endNonterminal "p",
          [(.insert ⟨"p", ⟨0, 3⟩, .setAll [("a", "y")] {}⟩ [0, 3] .inner, .ok 4)]),
        (.endNonterminal "x", [(.insert ⟨"x", ⟨3, 3⟩, {}⟩ [] .inner,
          .error ⟨"x", ⟨3, 3⟩, .inverted⟩)])] ∧
      (pursue handle (start ({} : Picky) { merge := .deferred }) ph.events).1.finish =
        .ok ⟨3, 1, 5⟩ ∧
      (pursue handle (start ({} : Picky) { merge := .incremental }) ph.events).1.finish =
        .ok ⟨3, 1, 4⟩ := by
  intro ph asks kids
  have hph : ph.Valid .outside := by decide
  have hreach : Event.reach .hold [] ph.events ≤ maxCursor := by decide
  obtain ⟨hdef, -, hdefEnd, -⟩ := plays_script ph hph Picky {} { merge := .deferred } hreach
  obtain ⟨hinc, -, hincEnd, -⟩ := plays_script ph hph Picky {} { merge := .incremental } hreach
  refine ⟨hph, hreach, ?_, ?_, hdefEnd.trans (by decide +kernel), hincEnd.trans (by decide +kernel)⟩
  · exact (congrArg (List.filter _) hdef).trans (by decide +kernel)
  · exact (congrArg (List.filter _) hinc).trans (by decide +kernel)

end Builder

end Standoff
