import Standoff.Proofs.Histories

/-!
# The waiting nodes of a builder

A builder keeps the nodes that are not delivered yet in an arena.  They leave it in four ways: with
a tree that the target takes or refuses, and as an element that it takes or refuses while nodes
around it are still open.  In each case the slots are given back once, when nothing links to them:

    event              arena of waiting nodes
    a start            one node more
    the end of a node  linked below the open one if delivery is deferred, otherwise given back
                       with all below it, whatever the target says
    others             content only

* `Builder.effects`: what a run does to the arena.  `Builder.Tends.step`: it is admissible.
* `Builder.pending_slots`: the slots after any events.
-/

namespace Standoff

namespace Builder

variable {τ : Type} {b b' : Builder τ} {ops more : List Arena.Operation} {s s' : Family}

/-- What an event asks to be done to the waiting nodes. -/
def duties (b : Builder τ) : Event → List Arena.Operation
  | .startNonterminal name => [.allocElement name (.emptyAt b.cursor)]
  | .endNonterminal _ =>
    match b.stack with
    | [] => []
    | n :: outer =>
      [.setStop n.id b.cursor,
        match b.options.merge, outer with
        | .deferred, parent :: _ => .append parent.id n.id
        | _, _ => .release n.id]
  | .endAttribute =>
    match b.stack, b.scopes with
    | n :: _, s :: _ => [.setAttribute n.id s.name s.value]
    | _, _ => []
  | _ => []

/-- What is done.  An event that the builder refuses does nothing; one that the target refuses has
closed its node all the same. -/
def effect [MergeTarget τ] (b : Builder τ) (e : Event) : List Arena.Operation :=
  match (b.handle e).outcome with
  | .ok () | .error (.conflict _) => b.duties e
  | .error _ => []

/-- What a run does to the waiting nodes. -/
def effects [MergeTarget τ] : Builder τ → List Event → List Arena.Operation
  | _, [] => []
  | b, e :: events => b.effect e ++ effects (b.handle e).state events

/-- The waiting nodes have a history, at the end of which the open ones are loose. -/
structure Tends (b : Builder τ) (ops : List Arena.Operation) (s : Family) : Prop where
  admissible : Arena.History.Admissible ops
  run : Arena.History.run ops = (b.pending, s)
  distinct : (b.stack.map (·.id)).Nodup
  loose : ∀ x, x ∈ b.stack.map (·.id) ↔ x ∈ s.live ∧ s.parent x = none
  flat : b.options.merge = .incremental → ∀ x, s.parent x = none

theorem tends_start (target : τ) (options : Options) : (start target options).Tends [] {} where
  admissible := trivial
  run := rfl
  distinct := .nil
  loose _ := ⟨fun h => (List.not_mem_nil h).elim, fun h => (List.not_mem_nil h.1).elim⟩
  flat _ _ := rfl

namespace Tends

variable (h : b.Tends ops s)
include h

theorem keeps : b.pending.Keeps s := by
  have hkeeps := Arena.History.keeps_run h.admissible
  rwa [h.run] at hkeeps

/-- The history goes on. -/
theorem next (hmore : Arena.History.AdmissibleFrom (b.pending, s) more)
    (hrun : more.foldl Arena.Operation.apply (b.pending, s) = (b'.pending, s'))
    (hdistinct : (b'.stack.map (·.id)).Nodup)
    (hloose : ∀ x, x ∈ b'.stack.map (·.id) ↔ x ∈ s'.live ∧ s'.parent x = none)
    (hflat : b'.options.merge = .incremental → ∀ x, s'.parent x = none) :
    b'.Tends (ops ++ more) s' where
  admissible := Arena.History.admissible_append.mpr ⟨h.admissible, by rwa [h.run]⟩
  run := by rw [Arena.History.run_append, h.run, hrun]
  distinct := hdistinct
  loose := hloose
  flat := hflat

/-- What changes neither the nodes nor the stack. -/
theorem congr (hpending : b'.pending = b.pending)
    (hstack : b'.stack.map (·.id) = b.stack.map (·.id)) (hoptions : b'.options = b.options) :
    b'.Tends (ops ++ []) s :=
  h.next trivial (by rw [hpending]; rfl) (hstack ▸ h.distinct) (hstack ▸ h.loose)
    fun hinc => h.flat (hoptions ▸ hinc)

theorem pushChar (c : Char) : (b.pushChar c).Tends (ops ++ []) s := by
  unfold Builder.pushChar
  split <;> exact h.congr rfl rfl rfl

/-- A nonterminal starts. -/
theorem opens {name : String} {span : Span}
    (hpending : b'.pending = (b.pending.allocElement name span).1)
    (hstack : b'.stack.map (·.id) =
      (b.pending.allocElement name span).2 :: b.stack.map (·.id))
    (hoptions : b'.options = b.options) :
    b'.Tends (ops ++ [.allocElement name span])
      (s.alloc (b.pending.allocElement name span).2) := by
  have hnew : (b.pending.allocElement name span).2 ∉ s.live :=
    (h.keeps.names (b.pending.names.intern name).1).alloc_fresh _
  have hparent := h.keeps.sound.loose_of_out hnew
  refine h.next ⟨trivial, trivial⟩ (by rw [hpending]; rfl) ?_ (fun x => ?_)
    fun hinc => h.flat (hoptions ▸ hinc)
  · rw [hstack]
    exact List.nodup_cons.mpr ⟨fun hmem => hnew ((h.loose _).mp hmem).1, h.distinct⟩
  · rw [hstack, List.mem_cons, h.loose]
    show _ ↔ x ∈ _ :: s.live ∧ s.parent x = none
    rw [List.mem_cons]
    constructor
    · rintro (rfl | ⟨hlive, hnone⟩)
      · exact ⟨.inl rfl, hparent⟩
      · exact ⟨.inr hlive, hnone⟩
    · rintro ⟨rfl | hlive, hnone⟩
      · exact .inl rfl
      · exact .inr ⟨hlive, hnone⟩

/-- A node that has left the stack is given back with all below it. -/
theorem releases {n : OpenNode} {outer : List OpenNode} (hn : b.stack = n :: outer)
    (hpending : b'.pending = (b.pending.setStop n.id b.cursor).release n.id)
    (hstack : b'.stack.map (·.id) = outer.map (·.id)) (hoptions : b'.options = b.options) :
    b'.Tends (ops ++ [.setStop n.id b.cursor, .release n.id]) (s.release n.id) := by
  have hdistinct := h.distinct
  have hloose := h.loose
  rw [hn, List.map_cons] at hdistinct hloose
  obtain ⟨hout, hdistinct⟩ := List.nodup_cons.mp hdistinct
  obtain ⟨hlive, hparent⟩ := (hloose n.id).mp (List.mem_cons_self ..)
  have hsound := h.keeps.sound
  refine h.next ⟨trivial, ⟨hlive, hparent⟩, trivial⟩ (by rw [hpending]; rfl) (hstack ▸ hdistinct)
    (fun x => ?_) fun hinc x => ?_
  · show _ ↔ x ∈ s.live.filter _ ∧ (if x ∈ s.clan n.id then none else s.parent x) = none
    rw [hstack, List.mem_filter]
    constructor
    · intro hx
      obtain ⟨hxlive, hxparent⟩ := (hloose x).mp (List.mem_cons_of_mem _ hx)
      have hclan : x ∉ s.clan n.id := fun hmem => by
        have heq := hsound.clan_apart hparent hxparent hmem (List.mem_cons_self ..)
        exact hout (heq ▸ hx)
      simp [hclan, hxlive, hxparent]
    · rintro ⟨⟨hxlive, hclan⟩, hxparent⟩
      have hclan : x ∉ s.clan n.id := by simpa using hclan
      rw [if_neg hclan] at hxparent
      rcases List.mem_cons.mp ((hloose x).mpr ⟨hxlive, hxparent⟩) with rfl | hx
      · exact absurd (List.mem_cons_self ..) hclan
      · exact hx
  · show (if x ∈ s.clan n.id then none else s.parent x) = none
    rw [h.flat (hoptions ▸ hinc) x, ite_self]

/-- A node that has left the stack goes below the one that it was opened in. -/
theorem links {n parent : OpenNode} {outer : List OpenNode} (hn : b.stack = n :: parent :: outer)
    (hdef : b.options.merge = .deferred)
    (hpending : b'.pending = (b.pending.setStop n.id b.cursor).append parent.id n.id)
    (hstack : b'.stack.map (·.id) = parent.id :: outer.map (·.id))
    (hoptions : b'.options = b.options) :
    b'.Tends (ops ++ [.setStop n.id b.cursor, .append parent.id n.id])
      (s.append parent.id n.id) := by
  have hdistinct := h.distinct
  have hloose := h.loose
  rw [hn, List.map_cons] at hdistinct hloose
  obtain ⟨hout, hdistinct⟩ := List.nodup_cons.mp hdistinct
  obtain ⟨hlive, hnone⟩ := (hloose n.id).mp (List.mem_cons_self ..)
  obtain ⟨hplive, hpnone⟩ := (hloose parent.id).mp (by simp)
  have hsound := h.keeps.sound
  have hfits : s.Fits parent.id n.id := by
    refine ⟨hplive, hlive, hnone, fun hmem => hout ?_⟩
    rw [hsound.clan_apart hnone hpnone hmem (List.mem_cons_self ..)]
    exact List.mem_cons_self ..
  refine h.next ⟨trivial, hfits, trivial⟩ (by rw [hpending]; rfl) (hstack ▸ hdistinct)
    (fun x => ?_) fun hinc => ?_
  · show _ ↔ x ∈ s.live ∧ Function.update s.parent n.id (some parent.id) x = none
    rw [hstack]
    by_cases hx : x = n.id
    · subst hx
      simpa using hout
    · rw [Function.update_of_ne hx, ← hloose x, List.map_cons, List.mem_cons (a := x) (b := n.id)]
      simp [hx]
  · rw [hoptions, hdef] at hinc
    cases hinc

end Tends

/-! ## Events -/

section Events

variable [MergeTarget τ]

theorem effect_cases (b : Builder τ) (e : Event) : b.effect e = [] ∨ b.effect e = b.duties e := by
  unfold effect
  split
  · exact .inr rfl
  · exact .inr rfl
  · exact .inl rfl

theorem effect_of_refused {e : Event} {r : Response (Builder τ)} (hr : b.apply e = r)
    {error : AnnotateError} (hout : r.outcome = .error error)
    (hkind : ∀ conflict, error ≠ .conflict conflict) : b.effect e = [] := by
  subst hr
  rw [effect, show (b.handle e).outcome = .error error from hout]
  cases error with
  | conflict c => exact absurd rfl (hkind c)
  | _ => rfl

theorem effect_of_taken {e : Event} {r : Response (Builder τ)} (hr : b.apply e = r)
    (hout : ∀ error, r.outcome = .error error → ∃ conflict, error = .conflict conflict) :
    b.effect e = b.duties e := by
  subst hr
  show (match (b.apply e).outcome with
    | .ok () | .error (.conflict _) => b.duties e
    | .error _ => []) = _
  cases hcases : (b.apply e).outcome with
  | ok _ => rfl
  | error error =>
    obtain ⟨c, rfl⟩ := hout error hcases
    rfl

/-- A node that is delivered is linked below the open one, or given back, and only the target can
refuse it. -/
theorem deliver_pending (b : Builder τ) (n : OpenNode) :
    (b.deliver n).state.pending =
        (match b.options.merge, b.stack with
          | .deferred, parent :: _ => b.pending.append parent.id n.id
          | _, _ => b.pending.release n.id) ∧
      (b.deliver n).state.stack.map (·.id) = b.stack.map (·.id) ∧
      (b.deliver n).state.options = b.options ∧
      ∀ error, (b.deliver n).outcome = .error error → ∃ conflict, error = .conflict conflict := by
  obtain ⟨target, options, pending, stack, scopes, cursor, roots, merged⟩ := b
  unfold deliver
  cases hmerge : options.merge with
  | incremental =>
    simp only
    unfold deliverElement
    dsimp only
    split
    · exact ⟨rfl, rfl, rfl, fun _ h => by cases h; exact ⟨_, rfl⟩⟩
    · cases stack <;> exact ⟨rfl, rfl, rfl, fun _ h => nomatch h⟩
  | deferred =>
    cases stack with
    | nil =>
      simp only
      unfold deliverTree
      dsimp only
      split
      · exact ⟨rfl, rfl, rfl, fun _ h => by cases h; exact ⟨_, rfl⟩⟩
      · exact ⟨rfl, rfl, rfl, fun _ h => nomatch h⟩
    | cons parent outer =>
      simp only
      exact ⟨rfl, rfl, rfl, fun _ h => nomatch h⟩

/-- What an event does to the waiting nodes is admissible. -/
theorem Tends.step (h : b.Tends ops s) (e : Event) :
    ∃ s', (b.handle e).state.Tends (ops ++ b.effect e) s' := by
  show ∃ s', (b.apply e).state.Tends (ops ++ b.effect e) s'
  have hdoes := b.apply_does e
  generalize hr : b.apply e = r at hdoes ⊢
  cases hdoes with
  | refuses _ error hkind =>
    rw [effect_of_refused hr rfl hkind]
    exact ⟨s, h.congr rfl rfl rfl⟩
  | overflows | strays =>
    rw [effect_of_refused hr rfl fun _ h => AnnotateError.noConfusion h]
    exact ⟨s, h.congr rfl rfl rfl⟩
  | opensAttribute | skips =>
    rw [effect_of_taken hr fun _ hout => nomatch hout]
    exact ⟨s, h.congr rfl rfl rfl⟩
  | holds _ c =>
    rw [effect_of_taken hr fun _ hout => nomatch hout]
    exact ⟨s, h.pushChar c⟩
  | counts _ c =>
    rw [effect_of_taken hr fun _ hout => nomatch hout]
    have hmoved : ({ b with cursor := b.cursor + 1 } : Builder τ).Tends ops s :=
      ⟨h.admissible, h.run, h.distinct, h.loose, h.flat⟩
    exact ⟨s, hmoved.pushChar c⟩
  | opens name =>
    rw [effect_of_taken hr fun _ hout => nomatch hout]
    exact ⟨_, h.opens rfl rfl rfl⟩
  | closesAttribute n outer a scopes hstack hscopes =>
    rw [effect_of_taken hr fun _ hout => nomatch hout]
    have hduties : b.duties .endAttribute = [.setAttribute n.id a.name a.value] := by
      rw [duties, hstack, hscopes]
    rw [hduties]
    exact ⟨s, h.next ⟨trivial, trivial⟩ rfl h.distinct h.loose h.flat⟩
  | closes n outer hstack =>
    obtain ⟨hpending, hids, hoptions, hconflict⟩ := deliver_pending
      { b with stack := outer, pending := b.pending.setStop n.id b.cursor } n
    rw [effect_of_taken hr hconflict, duties, hstack]
    cases hmerge : b.options.merge with
    | incremental =>
      simp only [hmerge] at hpending
      exact ⟨_, h.releases hstack hpending hids hoptions⟩
    | deferred =>
      cases outer with
      | nil =>
        simp only [hmerge] at hpending
        exact ⟨_, h.releases hstack hpending hids hoptions⟩
      | cons parent outer =>
        simp only [hmerge] at hpending
        exact ⟨_, h.links hstack hmerge hpending hids hoptions⟩

/-- What a run does to the waiting nodes is admissible. -/
theorem Tends.pursue (h : b.Tends ops s) (events : List Event) :
    ∃ s', (pursue Builder.handle b events).1.Tends (ops ++ b.effects events) s' := by
  induction events generalizing b ops s with
  | nil => exact ⟨s, by rwa [effects, List.append_nil]⟩
  | cons e events ih =>
    obtain ⟨s', hstep⟩ := h.step e
    rw [effects, ← List.append_assoc]
    exact ih hstep

/-! ## Slots -/

omit [MergeTarget τ] in
/-- An event asks for one thing at most. -/
theorem duties_cases (b : Builder τ) (e : Event) : b.duties e = [] ∨
    (∃ name, b.duties e = [.allocElement name (.emptyAt b.cursor)]) ∨
    (∃ id key value, b.duties e = [.setAttribute id key value]) ∨
    (∃ n p, b.duties e = [.setStop n b.cursor, .append p n]) ∨
    ∃ n outer, b.stack = n :: outer ∧
      b.duties e = [.setStop n.id b.cursor, .release n.id] := by
  cases e with
  | startNonterminal name => exact .inr (.inl ⟨name, rfl⟩)
  | endNonterminal name =>
    unfold duties
    cases hstack : b.stack with
    | nil => exact .inl rfl
    | cons n outer =>
      cases b.options.merge with
      | incremental => exact .inr (.inr (.inr (.inr ⟨n, outer, rfl, rfl⟩)))
      | deferred =>
        cases outer with
        | nil => exact .inr (.inr (.inr (.inr ⟨n, [], rfl, rfl⟩)))
        | cons parent outer => exact .inr (.inr (.inr (.inl ⟨n.id, parent.id, rfl⟩)))
  | endAttribute =>
    unfold duties
    cases b.stack with
    | nil => exact .inl rfl
    | cons n outer =>
      cases b.scopes with
      | nil => exact .inl rfl
      | cons a scopes => exact .inr (.inr (.inl ⟨n.id, a.name, a.value, rfl⟩))
  | startAttribute _ | terminal _ | excluded _ => exact .inl rfl

namespace Tends

variable (h : b.Tends ops s) (e : Event)
include h

/-- The slots after an event: as before, or one less is free, or there is a new one and none is
free, or the innermost open node has been given back with all below it. -/
theorem slots_step :
    let a := b.pending
    let a' := (b.handle e).state.pending
    (a'.slotCount = a.slotCount ∧ ∀ x ∈ a'.free, x ∈ a.free) ∨
    (a.slotCount ≤ a'.slotCount ∧ a'.free = []) ∨
    (a'.slotCount = a.slotCount ∧ ∃ n outer, b.stack = n :: outer ∧
      (a.links n.id).parent = none ∧ ∀ x ∈ a'.free, x ∈ s.clan n.id ∨ x ∈ a.free) := by
  intro a a'
  obtain ⟨s', hstep⟩ := h.step e
  have hpending : ((b.effect e).foldl Arena.Operation.apply (a, s)).1 = a' := by
    have hrun := hstep.run
    rw [Arena.History.run_append, h.run] at hrun
    rw [hrun]
  clear_value a'
  rcases b.effect_cases e with heffect | heffect <;> rw [heffect] at hpending
  · obtain rfl : a = a' := hpending
    exact .inl ⟨rfl, fun x hx => hx⟩
  · rcases b.duties_cases e with hduties | ⟨name, hduties⟩ | ⟨id, key, value, hduties⟩ |
      ⟨n, p, hduties⟩ | ⟨n, outer, hstack, hduties⟩ <;> rw [hduties] at hpending
    · obtain rfl : a = a' := hpending
      exact .inl ⟨rfl, fun x hx => hx⟩
    · obtain rfl : (a.allocElement name (.emptyAt b.cursor)).1 = a' := hpending
      rcases Arena.frame_alloc { a with names := (a.names.intern name).1 }
        { element := ⟨name, .emptyAt b.cursor, {}⟩ } with hslots | hslots
      · exact .inl hslots
      · exact .inr (.inl hslots)
    · obtain rfl : a.setAttribute id key value = a' := hpending
      exact .inl ⟨Arena.size_update _ _ _, fun x hx => hx⟩
    · obtain rfl : (a.setStop n b.cursor).append p n = a' := hpending
      obtain ⟨hfree, hsize⟩ := Arena.frame_insertBefore (a.setStop n b.cursor) p none n
      have hfree : ((a.setStop n b.cursor).append p n).free = a.free := hfree
      exact .inl ⟨hsize.trans (Arena.size_update _ _ _), fun x hx => hfree ▸ hx⟩
    · obtain rfl : (a.setStop n.id b.cursor).release n.id = a' := hpending
      obtain ⟨hlive, hparent⟩ := (h.loose n.id).mp (by simp [hstack])
      have hkeeps : (a.setStop n.id b.cursor).Keeps s := h.keeps.update n.id _ fun _ => rfl
      obtain ⟨hsize, hfree⟩ := Arena.frame_release (a.setStop n.id b.cursor) n.id
      rw [← hkeeps.clan_eq hlive] at hfree
      refine .inr (.inr ⟨hsize.trans (Arena.size_update _ _ _), n, outer, hstack, ?_,
        fun x hx => ?_⟩)
      · rw [h.keeps.links n.id hlive]
        exact hparent
      · exact List.mem_append.mp (hfree.mem_iff.mp hx)

end Tends

/-! ## Counts -/

namespace Tends

variable (h : b.Tends ops s)
include h

omit [MergeTarget τ] in
/-- The slots that are not free are those at or below the open nodes, each once. -/
theorem slots : ((b.stack.flatMap fun n => n.id :: b.pending.descendants n.id) ++
    b.pending.free).Perm (List.range b.pending.slotCount) := by
  have hclans : (b.stack.flatMap fun n => n.id :: b.pending.descendants n.id) =
      (b.stack.map (·.id)).flatMap s.clan := by
    rw [List.flatMap_map]
    refine List.flatMap_congr fun n hn => ?_
    exact (h.keeps.clan_eq ((h.loose n.id).mp (List.mem_map_of_mem hn)).1).symm
  rw [hclans]
  exact ((h.keeps.sound.flatMap_clan h.distinct h.loose).append_right _).trans h.keeps.cover

omit [MergeTarget τ] in
/-- If delivery is incremental nothing is below an open node. -/
theorem descendants_eq_nil (hinc : b.options.merge = .incremental) {n : OpenNode}
    (hn : n ∈ b.stack) : b.pending.descendants n.id = [] := by
  have hlive := ((h.loose n.id).mp (List.mem_map_of_mem hn)).1
  refine List.eq_nil_iff_forall_not_mem.mpr fun x hx => ?_
  have hclan : x ∈ s.clan n.id := h.keeps.clan_eq hlive ▸ List.mem_cons_of_mem _ hx
  obtain rfl := h.keeps.sound.clan_apart (h.flat hinc n.id) (h.flat hinc x) hclan
    (List.mem_cons_self ..)
  have hnodup := (h.keeps.sound.below_spec n.id).2.2.1
  rw [h.keeps.clan_eq hlive] at hnodup
  exact (List.nodup_cons.mp hnodup).1 hx

end Tends

/-- No more slots than nodes that have waited at the same time, and no fewer. -/
theorem slotCount_peak (target : τ) (options : Options) (events : List Event) :
    let after (events : List Event) := (pursue Builder.handle (start target options) events).1
    (∀ before, before <+: events →
      (after before).pending.liveCount ≤ (after events).pending.slotCount) ∧
    ∃ before, before <+: events ∧
      (after before).pending.liveCount = (after events).pending.slotCount := by
  intro after
  induction events using List.reverseRecOn with
  | nil =>
    refine ⟨fun before hbefore => ?_, [], List.prefix_rfl, rfl⟩
    obtain rfl := List.prefix_nil.mp hbefore
    exact Nat.le_refl _
  | append_singleton events e ih =>
    obtain ⟨hle, peak, hpeak, heq⟩ := ih
    obtain ⟨s, h⟩ := (tends_start target options).pursue events
    have hafter : after (events ++ [e]) = ((after events).handle e).state := by
      simp only [after, pursue_append, pursue]
    have hown : (after (events ++ [e])).pending.liveCount ≤
        (after (events ++ [e])).pending.slotCount := Nat.sub_le _ _
    have hmono (hsize : (after events).pending.slotCount ≤
        (after (events ++ [e])).pending.slotCount) (before : List Event)
        (hbefore : before <+: events ++ [e]) : (after before).pending.liveCount ≤
          (after (events ++ [e])).pending.slotCount := by
      rcases List.prefix_concat_iff.mp hbefore with rfl | hbefore
      · exact hown
      · exact (hle before hbefore).trans hsize
    rw [hafter] at hmono ⊢
    have hold : peak <+: events ++ [e] := hpeak.trans (List.prefix_append ..)
    rcases h.slots_step e with ⟨hsize, -⟩ | ⟨hsize, hfree⟩ | ⟨hsize, -⟩
    · exact ⟨hmono hsize.ge, peak, hold, heq.trans hsize.symm⟩
    · refine ⟨hmono hsize, events ++ [e], List.prefix_rfl, ?_⟩
      rw [hafter]
      exact (congrArg (_ - List.length ·) hfree).trans (Nat.sub_zero _)
    · exact ⟨hmono hsize.ge, peak, hold, heq.trans hsize.symm⟩

/-- After any events, refused ones among them and whatever the target has said: the slots in use are
the open nodes and, if delivery is deferred, what waits below them; all that was done to the arena
was admissible, so that only nodes in use with no parent were given back; a slot is freed only with
the innermost open node; there are as many slots as have been in use at the same time; and nothing
is left when nothing is open. -/
theorem pending_slots (target : τ) (options : Options) (events : List Event) :
    let after (events : List Event) := (pursue Builder.handle (start target options) events).1
    let b := after events
    ((b.stack.flatMap fun n => n.id :: b.pending.descendants n.id) ++ b.pending.free).Perm
        (List.range b.pending.slotCount) ∧
      (options.merge = .incremental → ∀ n ∈ b.stack, b.pending.descendants n.id = []) ∧
      (Arena.History.Admissible (effects (start target options) events) ∧
        (Arena.History.run (effects (start target options) events)).1 = b.pending) ∧
      (∀ e x, x ∈ (b.handle e).state.pending.free → x ∉ b.pending.free →
        ∃ n outer, b.stack = n :: outer ∧ (b.pending.links n.id).parent = none ∧
          x ∈ n.id :: b.pending.descendants n.id) ∧
      ((∀ before, before <+: events → (after before).pending.liveCount ≤ b.pending.slotCount) ∧
        ∃ before, before <+: events ∧ (after before).pending.liveCount = b.pending.slotCount) ∧
      (options.merge = .incremental → b.pending.liveCount = b.depth) ∧
      (b.stack = [] → b.pending.liveCount = 0) := by
  intro after b
  obtain ⟨s, h⟩ : ∃ s, b.Tends _ s := (tends_start target options).pursue events
  have hoptions : b.options = options := ((follows_start target options).pursue events).2
  have hslots := h.slots
  have hlive : b.pending.liveCount =
      (b.stack.flatMap fun n => n.id :: b.pending.descendants n.id).length := by
    have hlen := hslots.length_eq
    rw [List.length_append, List.length_range, Arena.slotCount] at hlen
    rw [Arena.liveCount]
    omega
  have hflat (hinc : options.merge = .incremental) :
      ∀ n ∈ b.stack, b.pending.descendants n.id = [] :=
    fun n hn => h.descendants_eq_nil (hoptions ▸ hinc) hn
  refine ⟨hslots, hflat, ⟨h.admissible, congrArg Prod.fst h.run⟩, fun e x hx hnot => ?_,
    slotCount_peak target options events, fun hinc => ?_, fun hnil => ?_⟩
  · rcases h.slots_step e with ⟨-, hfree⟩ | ⟨-, hfree⟩ | ⟨-, n, outer, hstack, hparent, hfree⟩
    · exact absurd (hfree x hx) hnot
    · rw [hfree] at hx
      exact absurd hx List.not_mem_nil
    · have hclan := (hfree x hx).resolve_right hnot
      rw [h.keeps.clan_eq ((h.loose n.id).mp (by simp [hstack])).1] at hclan
      exact ⟨n, outer, hstack, hparent, hclan⟩
  · rw [hlive, List.flatMap_congr fun n hn => congrArg (n.id :: ·) (hflat hinc n hn),
      List.length_flatMap]
    simp [depth]
  · rw [hlive, hnil]
    rfl

end Events

end Builder

end Standoff
