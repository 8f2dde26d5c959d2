import Standoff.Proofs.Balancing
import Standoff.Proofs.Runs

/-! # Strict and cutting builders in lockstep

A strict builder and a cutting one take the same events to the same document as long as the
cutting one cuts nothing, and the strict one refuses the first event at which the other cuts.  The
numbers of the document tell: delivering a node takes one, and so does every cut.

    strict accepts   ↔   cutting accepts, and takes as many numbers as it delivers nodes

* `Builder.Alike`: the two builders agree.
* `Builder.Alike.run_iff`: the equivalence above, for a whole run. -/

namespace Standoff

namespace Builder

open Document

variable {b b' b₂ : Builder Document} {d d' : Draft} {e : Event} {f : Frame} {events : List Event}
  {count : Nat} {cs : List (List NodeId)} {attempt attempt₂ : Except MergeConflict Addition}

/-- Between the two builders the document took as many numbers as nodes were delivered. -/
def Tight (b b' : Builder Document) : Prop :=
  b'.target.next + b.merged = b.target.next + b'.merged

/-- Between the two builders the document took at least as many numbers as nodes were delivered. -/
def Spends (b b' : Builder Document) : Prop :=
  b.target.next + b'.merged ≤ b'.target.next + b.merged

theorem Spends.of_agrees (h : b.Agrees b') : Spends b b' := by
  unfold Spends
  exact Nat.le_of_eq (by rw [h.target, h.merged])

theorem Tight.of_agrees (h : b.Agrees b') : Tight b b' := by
  unfold Tight
  rw [h.target, h.merged]

/-- Two stretches that are tight as a whole are tight each. -/
theorem tight_trans {b'' : Builder Document} (h₁ : Spends b b') (h₂ : Spends b' b'') :
    Tight b b'' ↔ Tight b b' ∧ Tight b' b'' := by
  unfold Spends Tight at *
  simp only [NodeId] at *
  omega

theorem Spends.trans {b'' : Builder Document} (h₁ : Spends b b') (h₂ : Spends b' b'') :
    Spends b b'' := by
  unfold Spends at *
  simp only [NodeId] at *
  omega

/-! ## Growth of the document -/

/-- A delivery to a document is accepted if the document grows. -/
theorem Delivers.ok_iff {r : Response (Builder Document)}
    (h : b.Delivers (b.target.deliver attempt) f d' count cs r) :
    r.outcome = .ok () ↔ ∃ a, attempt = .ok a := by
  cases attempt with
  | error conflict =>
    rw [(h.refused conflict rfl).1]
    exact iff_of_false nofun nofun
  | ok a =>
    rw [(h.accepted a.id rfl).1]
    exact iff_of_true rfl ⟨a, rfl⟩

theorem Sound.spends (h : Sound b d) (hok : (b.apply e).outcome = .ok ()) :
    Spends b (b.apply e).state ∧ ∃ d', Sound (b.apply e).state d' := by
  cases hm : d.move? b.options.attributeCursor e with
  | none =>
    obtain ⟨error, happly⟩ := apply_refused h.follows hm
    rw [happly] at hok
    cases hok
  | some mv =>
    cases mv with
    | start d' =>
      obtain ⟨b', happly, -, hagree, -⟩ := Builder.apply_start h.follows hm
      refine ⟨?_, d', (h.apply_start hm).1⟩
      rw [happly]
      exact .of_agrees hagree
    | stay d' =>
      obtain ⟨b', happly, -, hagree, -⟩ := Builder.apply_stay h.follows hm
      refine ⟨?_, d', (h.apply_stay hm).1⟩
      rw [happly]
      exact .of_agrees hagree
    | close f d' =>
      obtain ⟨d'', hsound, -⟩ := h.apply_close hm
      refine ⟨?_, d'', hsound⟩
      cases h.closes hm with
      | waits c state hdef hne hr hfol hagree hclaims =>
        rw [hr]
        exact .of_agrees hagree
      | root hdef hnil hd =>
        obtain ⟨a, ha⟩ := hd.ok_iff.mp hok
        have hnext := h.wellFormed.merge_next ha
        rw [ha] at hd
        obtain ⟨-, -, -, -, hmerged⟩ := hd.accepted a.id rfl
        have htarget : (b.apply e).state.target = a.document := hd.target
        unfold Spends
        rw [hmerged, htarget]
        simp only [NodeId] at *
        omega
      | node c cs hinc hclaims hwithin hd =>
        obtain ⟨a, ha⟩ := hd.ok_iff.mp hok
        have hnext := h.wellFormed.insert_next hwithin ha
        rw [ha] at hd
        obtain ⟨-, -, -, -, hmerged⟩ := hd.accepted a.id rfl
        have htarget : (b.apply e).state.target = a.document := hd.target
        unfold Spends
        rw [hmerged, htarget]
        simp only [NodeId] at *
        omega

theorem Sound.spends_run (h : Sound b d) (hok : (drive Builder.handle b events).outcome = .ok ()) :
    Spends b (drive Builder.handle b events).state := by
  induction events generalizing b d with
  | nil => exact Nat.le_refl _
  | cons e events ih =>
    have hhead : (b.handle e).outcome = .ok () := drive_head hok
    obtain ⟨hrun, hstate⟩ := drive_cons hhead events
    obtain ⟨hspends, d', hsound⟩ := h.spends hhead
    rw [hrun] at hok
    rw [hstate]
    exact hspends.trans (ih hsound hok)

/-! ## Lockstep -/

/-- A strict builder and a cutting one that have done the same. -/
structure Alike (b b₂ : Builder Document) (d : Draft) : Prop where
  sound : Sound b d
  sound₂ : Sound b₂ d
  target : b₂.target = b.target
  claims : b₂.claims = b.claims
  roots : b₂.roots = b.roots
  merged : b₂.merged = b.merged
  strict : b.options.balancing = .strict
  options : b₂.options = { b.options with balancing := .inner }

/-- Two events that deliver nothing. -/
theorem Alike.accepted {b₂' : Builder Document} (h : Alike b b₂ d)
    (happly : b.apply e = .accept b' []) (happly₂ : b₂.apply e = .accept b₂' [])
    (hsound : Sound (b.apply e).state d') (hsound₂ : Sound (b₂.apply e).state d')
    (hagree : b.Agrees b') (hagree₂ : b₂.Agrees b₂') (hclaims : b₂'.claims = b'.claims) :
    ((b.apply e).outcome = .ok () ↔
        (b₂.apply e).outcome = .ok () ∧ Tight b₂ (b₂.apply e).state) ∧
      ((b.apply e).outcome = .ok () → ∃ d', Alike (b.apply e).state (b₂.apply e).state d') := by
  rw [happly] at hsound ⊢
  rw [happly₂] at hsound₂ ⊢
  have halike : Alike b' b₂' d' :=
    { sound := hsound
      sound₂ := hsound₂
      target := by rw [hagree.target, hagree₂.target, h.target]
      claims := hclaims
      roots := by rw [hagree.roots, hagree₂.roots, h.roots]
      merged := by rw [hagree.merged, hagree₂.merged, h.merged]
      strict := by rw [hagree.options, h.strict]
      options := by rw [hagree.options, hagree₂.options, h.options] }
  exact ⟨iff_of_true rfl ⟨rfl, .of_agrees hagree₂⟩, fun _ => ⟨d', halike⟩⟩

/-- Two deliveries, of which the strict one succeeds exactly if the other cuts nothing. -/
theorem Alike.delivers (h : Alike b b₂ d)
    (hd : b.Delivers (b.target.deliver attempt) f d' count cs (b.apply e))
    (hd₂ : b₂.Delivers (b₂.target.deliver attempt₂) f d' count cs (b₂.apply e))
    (hiff : ∀ a, attempt = .ok a ↔ attempt₂ = .ok a ∧ a.document.next = b.target.next + count) :
    ((b.apply e).outcome = .ok () ↔
        (b₂.apply e).outcome = .ok () ∧ Tight b₂ (b₂.apply e).state) ∧
      ((b.apply e).outcome = .ok () → Sound (b.apply e).state (d'.attach f) →
        Sound (b₂.apply e).state (d'.attach f) →
          Alike (b.apply e).state (b₂.apply e).state (d'.attach f)) := by
  have htight {a : Addition} (ha : attempt₂ = .ok a) :
      Tight b₂ (b₂.apply e).state ↔ a.document.next = b.target.next + count := by
    rw [ha] at hd₂
    obtain ⟨-, -, -, -, hmerged⟩ := hd₂.accepted a.id rfl
    have htarget : (b₂.apply e).state.target = a.document := hd₂.target
    unfold Tight
    rw [hmerged, htarget, h.target]
    simp only [NodeId] at *
    omega
  constructor
  · rw [hd.ok_iff, hd₂.ok_iff]
    constructor
    · rintro ⟨a, ha⟩
      obtain ⟨ha₂, hnext⟩ := (hiff a).mp ha
      exact ⟨⟨a, ha₂⟩, (htight ha₂).mpr hnext⟩
    · rintro ⟨⟨a, ha₂⟩, hspent⟩
      exact ⟨a, (hiff a).mpr ⟨ha₂, (htight ha₂).mp hspent⟩⟩
  · intro hok hsound hsound₂
    obtain ⟨a, ha⟩ := hd.ok_iff.mp hok
    have ha₂ := ((hiff a).mp ha).1
    rw [ha] at hd
    rw [ha₂] at hd₂
    obtain ⟨-, -, hclaims, hroots, hmerged⟩ := hd.accepted a.id rfl
    obtain ⟨-, -, hclaims₂, hroots₂, hmerged₂⟩ := hd₂.accepted a.id rfl
    refine ⟨hsound, hsound₂, hd₂.target.trans hd.target.symm, ?_, ?_, ?_, ?_, ?_⟩
    · rw [hclaims, hclaims₂]
    · rw [hroots, hroots₂, h.roots]
    · rw [hmerged, hmerged₂, h.merged]
    · rw [hd.options, h.strict]
    · rw [hd.options, hd₂.options, h.options]

/-- The strict builder accepts what the other accepts without a cut. -/
theorem Alike.step (h : Alike b b₂ d) (e : Event) :
    ((b.apply e).outcome = .ok () ↔
        (b₂.apply e).outcome = .ok () ∧ Tight b₂ (b₂.apply e).state) ∧
      ((b.apply e).outcome = .ok () → ∃ d', Alike (b.apply e).state (b₂.apply e).state d') := by
  have hrule : b₂.options.attributeCursor = b.options.attributeCursor := by rw [h.options]
  have hmerge : b₂.options.merge = b.options.merge := by rw [h.options]
  have hinner : b₂.options.balancing = .inner := by rw [h.options]
  cases hm : d.move? b.options.attributeCursor e with
  | none =>
    obtain ⟨error, happly⟩ := apply_refused h.sound.follows hm
    obtain ⟨error₂, happly₂⟩ := apply_refused h.sound₂.follows (hrule ▸ hm)
    rw [happly, happly₂]
    exact ⟨iff_of_false nofun (fun hok => nomatch hok.1), nofun⟩
  | some mv =>
    cases mv with
    | start d' =>
      have hm₂ : d.move? b₂.options.attributeCursor e = some (.start d') := hrule ▸ hm
      obtain ⟨b', happly, -, hagree, hclaims⟩ := Builder.apply_start h.sound.follows hm
      obtain ⟨b₂', happly₂, -, hagree₂, hclaims₂⟩ := Builder.apply_start h.sound₂.follows hm₂
      exact h.accepted happly happly₂ (h.sound.apply_start hm).1 (h.sound₂.apply_start hm₂).1
        hagree hagree₂ (by rw [hclaims, hclaims₂, h.claims])
    | stay d' =>
      have hm₂ : d.move? b₂.options.attributeCursor e = some (.stay d') := hrule ▸ hm
      obtain ⟨b', happly, -, hagree, hclaims⟩ := Builder.apply_stay h.sound.follows hm
      obtain ⟨b₂', happly₂, -, hagree₂, hclaims₂⟩ := Builder.apply_stay h.sound₂.follows hm₂
      exact h.accepted happly happly₂ (h.sound.apply_stay hm).1 (h.sound₂.apply_stay hm₂).1
        hagree hagree₂ (by rw [hclaims, hclaims₂, h.claims])
    | close f d' =>
      have hm₂ : d.move? b₂.options.attributeCursor e = some (.close f d') := hrule ▸ hm
      obtain ⟨d'', hsound, hd'', -⟩ := h.sound.apply_close hm
      obtain ⟨d₂'', hsound₂, hd₂'', -⟩ := h.sound₂.apply_close hm₂
      have hcloses₂ := h.sound₂.closes hm₂
      have hpair (hiff : (b.apply e).outcome = .ok () ↔
            (b₂.apply e).outcome = .ok () ∧ Tight b₂ (b₂.apply e).state)
          (halike : (b.apply e).outcome = .ok () → Sound (b.apply e).state (d'.attach f) →
            Sound (b₂.apply e).state (d'.attach f) →
              Alike (b.apply e).state (b₂.apply e).state (d'.attach f)) :
          (b.apply e).outcome = .ok () → ∃ d', Alike (b.apply e).state (b₂.apply e).state d' :=
        fun hok => ⟨_, halike hok (hd'' hok ▸ hsound) (hd₂'' (hiff.mp hok).1 ▸ hsound₂)⟩
      cases h.sound.closes hm with
      | waits c state hdef hne hr hfol hagree hclaims =>
        cases hcloses₂ with
        | waits c₂ state₂ hdef₂ hne₂ hr₂ hfol₂ hagree₂ hclaims₂ =>
          have hok : (b.apply e).outcome = .ok () := by rw [hr]; rfl
          have hok₂ : (b₂.apply e).outcome = .ok () := by rw [hr₂]; rfl
          rw [hd'' hok] at hsound
          rw [hd₂'' hok₂] at hsound₂
          rw [h.claims, hclaims] at hclaims₂
          exact h.accepted hr hr₂ hsound hsound₂ hagree hagree₂ (List.cons.inj hclaims₂).2.symm
        | root hdef₂ hnil₂ hd₂ => exact absurd hnil₂ hne
        | node c₂ cs₂ hinc₂ hclaims₂ hwithin₂ hd₂ =>
          rw [hmerge, hdef] at hinc₂
          cases hinc₂
      | root hdef hnil hd =>
        cases hcloses₂ with
        | waits c₂ state₂ hdef₂ hne₂ hr₂ hfol₂ hagree₂ hclaims₂ => exact absurd hnil hne₂
        | root hdef₂ hnil₂ hd₂ =>
          rw [h.strict] at hd
          rw [hinner] at hd₂
          obtain ⟨hiff, halike⟩ := h.delivers hd hd₂ fun a => by
            rw [h.target]
            exact h.sound.wellFormed.merge_strict_iff
          exact ⟨hiff, hpair hiff halike⟩
        | node c₂ cs₂ hinc₂ hclaims₂ hwithin₂ hd₂ =>
          rw [hmerge, hdef] at hinc₂
          cases hinc₂
      | node c cs hinc hclaims hwithin hd =>
        cases hcloses₂ with
        | waits c₂ state₂ hdef₂ hne₂ hr₂ hfol₂ hagree₂ hclaims₂ =>
          rw [hmerge, hinc] at hdef₂
          cases hdef₂
        | root hdef₂ hnil₂ hd₂ =>
          rw [hmerge, hinc] at hdef₂
          cases hdef₂
        | node c₂ cs₂ hinc₂ hclaims₂ hwithin₂ hd₂ =>
          rw [h.claims, hclaims] at hclaims₂
          obtain ⟨rfl, rfl⟩ := List.cons.inj hclaims₂
          rw [h.strict] at hd
          rw [hinner] at hd₂
          obtain ⟨hiff, halike⟩ := h.delivers hd hd₂ fun a => by
            rw [h.target]
            exact h.sound.wellFormed.insert_strict_iff hwithin
          exact ⟨hiff, hpair hiff halike⟩

/-- A strict run succeeds exactly if the other one does and cuts nothing. -/
theorem Alike.run_iff (h : Alike b b₂ d) (events : List Event) :
    ((drive Builder.handle b events).outcome = .ok () ↔
        (drive Builder.handle b₂ events).outcome = .ok () ∧
          Tight b₂ (drive Builder.handle b₂ events).state) ∧
      ((drive Builder.handle b events).outcome = .ok () → ∃ d', Alike
        (drive Builder.handle b events).state (drive Builder.handle b₂ events).state d') := by
  induction events generalizing b b₂ d with
  | nil => exact ⟨iff_of_true rfl ⟨rfl, rfl⟩, fun _ => ⟨d, h⟩⟩
  | cons e events ih =>
    obtain ⟨hiff, halike⟩ := h.step e
    have hforward (hhead : (b.handle e).outcome = .ok ()) :
        (b₂.handle e).outcome = .ok () ∧ Tight b₂ (b₂.handle e).state ∧
          ∃ d', Alike (b.handle e).state (b₂.handle e).state d' := by
      obtain ⟨hhead₂, htight⟩ := hiff.mp hhead
      exact ⟨hhead₂, htight, halike hhead⟩
    constructor
    · constructor
      · intro hok
        have hhead := drive_head hok
        obtain ⟨hhead₂, htight, d', halike⟩ := hforward hhead
        obtain ⟨hrun₂, hstate₂⟩ := drive_cons hhead₂ events
        rw [(drive_cons hhead events).1] at hok
        obtain ⟨hok₂, htight'⟩ := (ih halike).1.mp hok
        rw [hrun₂, hstate₂]
        refine ⟨hok₂, (tight_trans (h.sound₂.spends hhead₂).1 ?_).mpr ⟨htight, htight'⟩⟩
        exact halike.sound₂.spends_run hok₂
      · rintro ⟨hok₂, htight⟩
        have hhead₂ := drive_head hok₂
        obtain ⟨hrun₂, hstate₂⟩ := drive_cons hhead₂ events
        rw [hrun₂] at hok₂
        rw [hstate₂] at htight
        obtain ⟨hspends, d₁, hsound₁⟩ := h.sound₂.spends hhead₂
        obtain ⟨hstep, hrest⟩ := (tight_trans hspends (hsound₁.spends_run hok₂)).mp htight
        have hhead : (b.handle e).outcome = .ok () := hiff.mpr ⟨hhead₂, hstep⟩
        obtain ⟨-, -, d', halike⟩ := hforward hhead
        rw [(drive_cons hhead events).1]
        exact (ih halike).1.mpr ⟨hok₂, hrest⟩
    · intro hok
      have hhead := drive_head hok
      obtain ⟨hhead₂, -, d', halike⟩ := hforward hhead
      obtain ⟨hrun, hstate⟩ := drive_cons hhead events
      rw [hrun] at hok
      rw [hstate, (drive_cons hhead₂ events).2]
      exact (ih halike).2 hok

end Builder

end Standoff
