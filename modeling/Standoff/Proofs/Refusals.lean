import Standoff.Proofs.Acceptance
import Standoff.Proofs.Recasts

/-! # Events that are refused

A builder checks an event before it changes anything, so most refusals leave it as it is.  Only the
target can refuse a node that has left the stack, and then the node is gone with all that waited
below it.  What the builder knows apart from its target does not depend on the answers:

    b follows d   →   b after e follows d after e        whatever the target answers

* `Builder.Takes`, `Builder.Follows.takes`: everything that an event can do to a builder.
* `Draft.after`, `Builder.Follows.handle`: the implication above.
* `Builder.Refusal`, `Builder.apply_refusal`: everything that a refusal can be.
* `Builder.refusals`: refusals in every state that a builder can reach. -/

namespace Standoff

/-- A run over a stream is one over its first part and then one over the other. -/
theorem pursue_append {σ : Type} (handler : Handler σ) (state : σ) (events rest : List Event) :
    pursue handler state (events ++ rest) =
      ((pursue handler (pursue handler state events).1 rest).1,
        (pursue handler state events).2 ++
          (pursue handler (pursue handler state events).1 rest).2) := by
  induction events generalizing state with
  | nil => rfl
  | cons e events ih =>
    rw [List.cons_append, pursue, pursue, ih]
    simp only [List.append_assoc]

/-! ## Drafts whatever the target answers -/

/-- The draft after an event: as before if the event is refused. -/
def Draft.after (rule : AttributeCursor) (d : Draft) (e : Event) : Draft := (d.step? rule e).getD d

namespace Builder

variable {τ : Type} {b b' : Builder τ} {d d' : Draft} {e : Event} {f : Frame}

/-- Where nothing waits below the frames, a builder cannot tell if a closed one is attached. -/
theorem Follows.attach (h : b.Follows d) (hd : d.frames = [] ∨ b.options.merge = .incremental)
    (f : Frame) : b.Follows (d.attach f) := by
  cases hframes : d.frames with
  | nil =>
    rw [Draft.attach_of_nil hframes]
    exact ⟨h.scopes, h.cursor, h.outside, h.rows⟩
  | cons g outer =>
    have hinc : b.options.merge = .incremental :=
      hd.resolve_left fun hnil => List.cons_ne_nil _ _ (hframes.symm.trans hnil)
    obtain ⟨w, hw, hids, hrows⟩ := h.rows
    rw [hframes] at hrows
    rw [Draft.attach_of_cons hframes]
    refine ⟨h.scopes, h.cursor, fun hnil => absurd hnil (List.cons_ne_nil _ _), w, hw, hids, ?_⟩
    cases hrows with
    | cons hr hrest =>
      refine .cons ⟨hr.1, ?_⟩ hrest
      rw [hr.2, held_incremental hinc, held_incremental hinc]

section Events

variable [MergeTarget τ]

/-- What an event can do to a builder that follows a draft, and the answer to it. -/
inductive Takes (b : Builder τ) (d : Draft) (e : Event) (r : Response (Builder τ)) : Prop where
  /-- The builder refuses it, and stays as it is. -/
  | refused (error : AnnotateError) (hs : d.step? b.options.attributeCursor e = none)
      (hr : r = .refuse b error)
  /-- It is accepted, and nothing goes to the target. -/
  | quiet (d' : Draft) (b' : Builder τ) (hs : d.step? b.options.attributeCursor e = some d')
      (hr : r = .accept b' []) (hfol : b'.Follows d') (hagree : b.Agrees b')
  /-- It closes a root, which goes to the target with all below it. -/
  | root (f : Frame) (d' : Draft) (hm : d.move? b.options.attributeCursor e = some (.close f d'))
      (hdef : b.options.merge = .deferred) (hd' : d'.frames = [])
      (h : b.Delivers (MergeTarget.merge b.target ⟨f.element, f.kids⟩ b.options.balancing) f d'
        (1 + f.kids.size) [] r)
  /-- It closes a nonterminal, which goes to the target over its children. -/
  | node (f : Frame) (d' : Draft) (c : List NodeId) (cs : List (List NodeId))
      (hm : d.move? b.options.attributeCursor e = some (.close f d'))
      (hinc : b.options.merge = .incremental) (hclaims : b.claims = c :: cs)
      (h : b.Delivers (MergeTarget.insert b.target f.element c b.options.balancing) f d' 1 cs r)

theorem Follows.takes (h : b.Follows d) (e : Event) : b.Takes d e (b.apply e) := by
  cases hm : d.move? b.options.attributeCursor e with
  | none =>
    obtain ⟨error, happly⟩ := apply_refused h hm
    exact .refused error (Draft.step?_eq_none_iff.mpr hm) happly
  | some mv =>
    have hs := Draft.step?_of_move hm
    cases mv with
    | start d' =>
      obtain ⟨b', happly, hfol, hagree, -⟩ := apply_start h hm
      exact .quiet d' b' hs happly hfol hagree
    | stay d' =>
      obtain ⟨b', happly, hfol, hagree, -⟩ := apply_stay h hm
      exact .quiet d' b' hs happly hfol hagree
    | close f d' =>
      cases hmerge : b.options.merge with
      | incremental =>
        obtain ⟨c, cs, hclaims, hd⟩ := apply_close_inserts h hmerge hm
        exact .node f d' c cs hm hmerge hclaims hd
      | deferred =>
        by_cases hd' : d'.frames = []
        · exact .root f d' hm hmerge hd' (apply_close_root h hmerge hm hd')
        · obtain ⟨b', c, happly, hfol, hagree, -⟩ := apply_close_waits h hmerge hm hd'
          exact .quiet (d'.attach f) b' hs happly hfol hagree

omit [MergeTarget τ] in
/-- Whatever the target answers, the builder follows the draft in which the frame is attached. -/
theorem Delivers.follows {D : Delivery τ} {count : Nat} {cs : List (List NodeId)}
    {r : Response (Builder τ)} (h : b.Delivers D f d' count cs r)
    (hd' : d'.frames = [] ∨ b.options.merge = .incremental) : r.state.Follows (d'.attach f) := by
  cases hout : D.outcome with
  | ok host => exact (h.accepted host hout).2.1
  | error conflict =>
    exact (h.refused conflict hout).2.1.attach (hd'.imp_right (h.options ▸ ·)) f

/-- A builder goes on following its draft, whatever its target answers. -/
theorem Follows.handle (h : b.Follows d) (e : Event) :
    (b.handle e).state.Follows (d.after b.options.attributeCursor e) ∧
      (b.handle e).state.options = b.options := by
  show (b.apply e).state.Follows _ ∧ (b.apply e).state.options = b.options
  cases h.takes e with
  | refused error hs hr =>
    rw [hr, Draft.after, hs]
    exact ⟨h, rfl⟩
  | quiet d' b' hs hr hfol hagree =>
    rw [hr, Draft.after, hs]
    exact ⟨hfol, hagree.options⟩
  | root f d' hm hdef hd' hd =>
    rw [Draft.after, Draft.step?_of_move hm]
    exact ⟨hd.follows (.inl hd'), hd.options⟩
  | node f d' c cs hm hinc hclaims hd =>
    rw [Draft.after, Draft.step?_of_move hm]
    exact ⟨hd.follows (.inr hinc), hd.options⟩

/-- In every state that a builder reaches it follows a draft. -/
theorem Follows.pursue (h : b.Follows d) (events : List Event) :
    (pursue Builder.handle b events).1.Follows
        (events.foldl (Draft.after b.options.attributeCursor) d) ∧
      (pursue Builder.handle b events).1.options = b.options := by
  induction events generalizing b d with
  | nil => exact ⟨h, rfl⟩
  | cons e events ih =>
    obtain ⟨hfol, hoptions⟩ := h.handle e
    obtain ⟨hfol', hoptions'⟩ := ih hfol
    rw [hoptions] at hfol'
    exact ⟨hfol', hoptions'.trans hoptions⟩

end Events

end Builder

/-! ## Refusals -/

namespace MergeTarget

/-- A delivery that the target refuses leaves it as it was. -/
structure Steady {τ : Type} [MergeTarget τ] (target : τ) : Prop where
  merge : ∀ t balancing conflict,
    (MergeTarget.merge target t balancing).outcome = .error conflict →
      (MergeTarget.merge target t balancing).target = target
  insert : ∀ e claimed balancing conflict,
    (MergeTarget.insert target e claimed balancing).outcome = .error conflict →
      (MergeTarget.insert target e claimed balancing).target = target

end MergeTarget

open MergeTarget

theorem Document.deliver_refused {doc : Document} {attempt : Except MergeConflict Addition}
    {conflict : MergeConflict} (h : (doc.deliver attempt).outcome = .error conflict) :
    (doc.deliver attempt).target = doc := by
  cases attempt with
  | error _ => rfl
  | ok a => cases h

theorem Document.steady (doc : Document) : Steady doc :=
  ⟨fun _ _ _ => Document.deliver_refused, fun _ _ _ _ => Document.deliver_refused⟩

theorem Live.steady {w : Live} (h : w.document.WellFormed) : Steady w where
  merge t balancing conflict hout :=
    congrArg mk (Document.atomic_of_deliver (h.merge_inPlace t balancing) conflict hout)
  insert e claimed balancing conflict hout :=
    congrArg mk (Document.atomic_of_deliver
      (Document.insert_inPlace w.document e claimed balancing).symm conflict hout)

namespace Builder

section Refusals

variable {τ : Type} {b : Builder τ} {e : Event} {error : AnnotateError} {n : OpenNode}

/-- An event that was refused with an error, and the answer to it. -/
inductive Refusal (b : Builder τ) (e : Event) (error : AnnotateError) (r : Response (Builder τ)) :
    Prop where
  /-- The builder refuses it, and stays as it is. -/
  | ignored (hkind : ∀ conflict, error ≠ .conflict conflict) (hr : r = .refuse b error)
  /-- The target refuses the node that it closes, and the node is gone. -/
  | dropped (conflict : MergeConflict) (n : OpenNode) (outer : List OpenNode)
      (herror : error = .conflict conflict) (hstack : b.stack = n :: outer)
      (he : e = .endNonterminal (b.nameOf n))
      (hr : r.state =
        { b with stack := outer, pending := (b.pending.setStop n.id b.cursor).release n.id })

variable [MergeTarget τ]

theorem deliverTree_refused (hsteady : Steady b.target) {id : NodeId}
    (h : (b.deliverTree id).outcome = .error error) : ∃ conflict, error = .conflict conflict ∧
      (b.deliverTree id).state = { b with pending := b.pending.release id } := by
  unfold deliverTree at h ⊢
  dsimp only at h ⊢
  cases hout : (MergeTarget.merge b.target ((b.pending.tree? id).getD ⟨default, .nil⟩)
      b.options.balancing).outcome with
  | ok host =>
    rw [hout] at h
    cases h
  | error conflict =>
    rw [hout] at h
    rw [hsteady.merge _ _ conflict hout]
    cases h
    exact ⟨conflict, rfl, rfl⟩

theorem deliverElement_refused (hsteady : Steady b.target)
    (h : (b.deliverElement n).outcome = .error error) : ∃ conflict, error = .conflict conflict ∧
      (b.deliverElement n).state = { b with pending := b.pending.release n.id } := by
  unfold deliverElement at h ⊢
  dsimp only at h ⊢
  cases hout : (MergeTarget.insert b.target (b.pending.element n.id) n.claimed
      b.options.balancing).outcome with
  | ok host =>
    rw [hout] at h
    cases h
  | error conflict =>
    rw [hout] at h
    rw [hsteady.insert _ _ _ conflict hout]
    cases h
    exact ⟨conflict, rfl, rfl⟩

theorem deliver_refused (hsteady : Steady b.target)
    (h : (deliver b n).outcome = .error error) : ∃ conflict, error = .conflict conflict ∧
      (deliver b n).state = { b with pending := b.pending.release n.id } := by
  unfold deliver at h ⊢
  cases hmerge : b.options.merge with
  | incremental =>
    simp only [hmerge] at h ⊢
    exact deliverElement_refused hsteady h
  | deferred =>
    cases hstack : b.stack with
    | cons parent outer =>
      simp only [hmerge, hstack] at h
      cases h
    | nil =>
      simp only [hmerge, hstack] at h ⊢
      rw [← hstack]
      exact deliverTree_refused hsteady h

/-- What a refusal can be, where attributes are open in nonterminals only. -/
theorem apply_refusal (hsteady : Steady b.target) (hopen : b.scopes ≠ [] → b.stack ≠ [])
    (h : (b.apply e).outcome = .error error) : b.Refusal e error (b.apply e) := by
  have hdoes := b.apply_does e
  generalize b.apply e = r at h hdoes ⊢
  cases hdoes with
  | refuses e error' hkind _ =>
    cases h
    exact .ignored hkind rfl
  | overflows e length _ _ =>
    cases h
    exact .ignored (fun _ h => AnnotateError.noConfusion h) rfl
  | strays s scopes hscopes hstack =>
    exact absurd hstack (hopen (hscopes ▸ List.cons_ne_nil _ _))
  | closes n outer hstack _ =>
    obtain ⟨conflict, rfl, hstate⟩ := deliver_refused
      (b := { b with stack := outer, pending := b.pending.setStop n.id b.cursor }) hsteady h
    exact .dropped conflict n outer rfl hstack rfl hstate
  | _ => cases h

end Refusals

end Builder

/-! ## What goes with a node that is dropped -/

namespace Arena

variable {a : Arena} {r : NodeId × Forest NodeId} {w : Waiting}

/-- `a'` is `a` after the node `id` was given back, and with it all that waited below it. -/
structure GivesBack (a : Arena) (id : NodeId) (a' : Arena) : Prop where
  free : a'.free = id :: (a.descendants id).reverse ++ a.free
  /-- All of them were in use, and each is given back once. -/
  distinct : (id :: (a.descendants id).reverse ++ a.free).Nodup
  others : ∀ x, x ≠ id → x ∉ a.descendants id → a'.slot? x = a.slot? x
  slotCount : a'.slotCount = a.slotCount
  names : a'.names = a.names

theorem names_release (a : Arena) (id : NodeId) : (a.release id).names = a.names := by
  have hfold (xs : List NodeId) (a : Arena) : (xs.foldl releaseSlot a).names = a.names := by
    induction xs generalizing a with
    | nil => rfl
    | cons x xs ih => exact (ih (a.releaseSlot x)).trans rfl
  exact hfold _ a

theorem Represents.descendants_eq (h : a.Represents w) (hr : r ∈ w) :
    a.descendants r.1 = r.2.preorder := by
  rw [descendants, h.below_eq hr]

/-- The first row is given back, whatever its first slot holds. -/
theorem Represents.givesBack (h : a.Represents (r :: w)) (u : Slot → Slot)
    (hu : ∀ s, (u s).links = s.links) : a.GivesBack r.1 ((a.update r.1 u).release r.1) := by
  have hmem : r ∈ r :: w := List.mem_cons_self
  have hdesc := h.descendants_eq hmem
  have hdesc' := (h.update r.1 u hu).descendants_eq hmem
  obtain ⟨hfree, hsize, hslot⟩ := foldl_releaseSlot (a.update r.1 u) (r.2.preorder ++ [r.1])
  rw [← hdesc'] at hfree hsize hslot
  rw [List.reverse_append, List.reverse_singleton, List.singleton_append] at hfree
  refine ⟨hdesc ▸ hdesc' ▸ hfree, ?_, fun x hne hx => ?_, hsize.trans (size_update _ _ _),
    names_release _ _⟩
  · have hnodup := h.distinct
    simp only [Waiting.slots, List.flatMap_cons, List.append_assoc] at hnodup
    have hrow := hnodup.sublist ((List.sublist_append_right _ a.free).append_left _)
    rw [hdesc]
    exact (((List.reverse_perm _).cons _).append_right _).nodup_iff.mpr hrow
  · refine (hslot x fun hmem => ?_).trans ((slot?_update _ _ _ x).trans (if_neg hne.symm))
    rw [hdesc', ← hdesc, List.mem_append, List.mem_singleton] at hmem
    exact hmem.elim hx hne

/-- What is given back of the first row is in no other row. -/
theorem Represents.apart (h : a.Represents (r :: w)) {x : NodeId} (hx : x ∈ w.slots) :
    x ≠ r.1 ∧ x ∉ a.descendants r.1 := by
  have hnodup := (List.nodup_append.mp h.distinct).1
  simp only [Waiting.slots, List.flatMap_cons] at hnodup
  have hdisjoint := (List.nodup_append.mp hnodup).2.2
  rw [h.descendants_eq List.mem_cons_self]
  exact ⟨fun heq => hdisjoint _ List.mem_cons_self _ hx heq.symm,
    fun hmem => hdisjoint _ (List.mem_cons_of_mem _ hmem) _ hx rfl⟩

end Arena

/-! ## Refusals in every state -/

namespace Builder

section States

variable {τ : Type} [MergeTarget τ] {b : Builder τ} {d : Draft}

/-- What holds of the refusals in a state. -/
structure Orderly (b : Builder τ) : Prop where
  /-- A refusal that does not come from the target leaves the builder and the target as they were;
  only the line of the trace tells of the event. -/
  ignores : ∀ e error, (b.handle e).outcome = .error error →
    (∀ conflict, error ≠ .conflict conflict) →
      (b.handle e).state = b ∧ (b.handle e).notices = b.traced e
  /-- One that does comes at the end of the innermost nonterminal.  This node leaves the stack, and
  the arena gets it back with all that waits below it; everything else stays. -/
  drops : ∀ e conflict, (b.handle e).outcome = .error (.conflict conflict) →
    ∃ n outer, b.stack = n :: outer ∧ e = .endNonterminal (b.nameOf n) ∧
      (b.handle e).state = { b with stack := outer, pending := (b.handle e).state.pending } ∧
      b.pending.GivesBack n.id (b.handle e).state.pending ∧
      ∀ m ∈ outer, m.id ≠ n.id ∧ m.id ∉ b.pending.descendants n.id
  /-- The end of an attribute is not refused for want of a nonterminal. -/
  owned : ∀ name cursor,
    (b.handle .endAttribute).outcome ≠ .error (.mismatch (.attributeOutsideNode name) cursor)
  /-- An open attribute is one of an open nonterminal. -/
  nested : b.scopes ≠ [] → b.stack ≠ []

omit [MergeTarget τ] in
theorem Follows.nested (h : b.Follows d) (hs : b.scopes ≠ []) : b.stack ≠ [] := fun hstack =>
  hs (h.scopes.trans (h.outside (h.stack_nil_iff.mp hstack)))

theorem handle_ignored {e : Event} {error : AnnotateError} (h : b.apply e = .refuse b error) :
    (b.handle e).state = b ∧ (b.handle e).notices = b.traced e := by
  rw [handle, h]
  exact ⟨rfl, List.append_nil _⟩

theorem Follows.orderly (h : b.Follows d) (hsteady : Steady b.target) : b.Orderly where
  ignores e error hout hkind := by
    cases apply_refusal hsteady h.nested hout with
    | ignored _ hr => exact handle_ignored hr
    | dropped conflict _ _ herror => exact absurd herror (hkind conflict)
  drops e conflict hout := by
    cases apply_refusal hsteady h.nested hout with
    | ignored hkind => exact absurd rfl (hkind conflict)
    | dropped _ n outer _ hstack he hr =>
      obtain ⟨w, hw, hids, -⟩ := h.rows
      rw [hstack] at hids
      obtain ⟨r, w, rfl, hid, hids⟩ := List.map_eq_cons_iff.mp hids
      have hid : r.1 = n.id := hid
      have hstate : (b.handle e).state = _ := hr
      refine ⟨n, outer, hstack, he, by rw [hstate], ?_, fun m hm => ?_⟩
      · rw [hstate, ← hid]
        exact hw.givesBack _ fun _ => rfl
      · obtain ⟨q, hq, hqid⟩ := List.mem_map.mp (hids ▸ List.mem_map_of_mem hm : m.id ∈ w.map (·.1))
        rw [← hid]
        exact hw.apart (Arena.mem_slots hq (.inl hqid.symm))
  owned name cursor hout := by
    cases hscopes : b.scopes with
    | nil =>
      rw [show (b.handle .endAttribute).outcome = b.endAttribute.outcome from rfl, endAttribute,
        hscopes] at hout
      cases hout
    | cons s scopes =>
      obtain ⟨n, stack, hstack⟩ := List.exists_cons_of_ne_nil
        (h.nested (hscopes ▸ List.cons_ne_nil _ _))
      rw [show (b.handle .endAttribute).outcome = b.endAttribute.outcome from rfl,
        endAttribute_eq hstack hscopes] at hout
      cases hout
  nested := h.nested

end States

/-- In every state that a builder over a document reaches, and in every state that it reaches over a
document that is changed in place: an event that the builder itself refuses changes nothing, so that
the run goes on as if it had not been sent; an event that the document refuses costs the node that
it closes, with all that waits below it, and nothing else; and no attribute is without a
nonterminal. -/
theorem refusals {host : Document} (h : host.WellFormed) (options : Options)
    (events : List Event) :
    let b := (pursue handle (start host options) events).1
    b.Orderly ∧ (pursue handle (start (Live.mk host) options) events).1.Orderly ∧
      ∀ e error, (b.handle e).outcome = .error error → (∀ conflict, error ≠ .conflict conflict) →
        ∀ rest,
          (pursue handle (start host options) (events ++ e :: rest)).1 =
            (pursue handle (start host options) (events ++ rest)).1 ∧
          ∃ before after,
            (pursue handle (start host options) (events ++ e :: rest)).2 =
              before ++ b.traced e ++ after ∧
            (pursue handle (start host options) (events ++ rest)).2 = before ++ after := by
  intro b
  have hdoc := ((follows_start host options).pursue events).1
  have hlive := ((follows_start (Live.mk host) options).pursue events).1
  have horderly : b.Orderly := hdoc.orderly (Document.steady _)
  refine ⟨horderly, hlive.orderly (Live.steady (Live.pursue_eq h options events).2),
    fun e error hout hkind rest => ?_⟩
  obtain ⟨hstate, hnotices⟩ := horderly.ignores e error hout hkind
  rw [pursue_append, pursue_append, pursue, hstate, hnotices]
  refine ⟨rfl, (pursue handle (start host options) events).2, (pursue handle b rest).2, ?_, rfl⟩
  rw [List.append_assoc]

/-- A root with a node below it that crosses an element of the host: an end that does not match
changes nothing, and the one that does costs the root with the node below it. -/
theorem refusals_crossing :
    let host := Session.apply (Document.ofText "abcd") [.addSpan "a" ⟨0, 3⟩]
    let events : List Event := [.excluded 2, .startNonterminal "p", .startNonterminal "q",
      .endNonterminal "q", .excluded 2]
    let b := (pursue handle (start host { balancing := .strict }) events).1
    host.WellFormed ∧
      (b.handle (.endNonterminal "q")).outcome = .error (.mismatch (.nameMismatch "p" "q") 4) ∧
      (b.handle (.endNonterminal "q")).state = b ∧
      (b.handle (.endNonterminal "p")).outcome =
        .error (.conflict ⟨"p", ⟨2, 4⟩, .crossing "a" ⟨0, 3⟩⟩) ∧
      b.pending.GivesBack 0 (b.handle (.endNonterminal "p")).state.pending ∧
      b.pending.descendants 0 = [1] := by
  intro host events b
  have h : host.WellFormed :=
    (Session.wellFormed_apply (Document.wellFormed_ofText "abcd") (by decide +kernel)).1
  have horderly : b.Orderly := (refusals h { balancing := .strict } events).1
  have hwrong : (b.handle (.endNonterminal "q")).outcome =
      .error (.mismatch (.nameMismatch "p" "q") 4) := by decide +kernel
  have hconflict : (b.handle (.endNonterminal "p")).outcome =
      .error (.conflict ⟨"p", ⟨2, 4⟩, .crossing "a" ⟨0, 3⟩⟩) := by decide +kernel
  have hids : b.stack.map (·.id) = [0] := by decide +kernel
  obtain ⟨n, outer, hstack, -, -, hback, -⟩ := horderly.drops _ _ hconflict
  rw [hstack] at hids
  obtain ⟨hid, -⟩ := List.cons.inj hids
  have hid : n.id = 0 := hid
  obtain ⟨hsame, -⟩ := horderly.ignores _ _ hwrong fun _ h => AnnotateError.noConfusion h
  exact ⟨h, hwrong, hsame, hconflict, hid ▸ hback, by decide +kernel⟩

end Builder

end Standoff
