import Standoff.Proofs.Deliveries
import Standoff.Proofs.Lockstep
import Standoff.Proofs.Sessions

/-! # Complete runs, and the two merge strategies

A complete run takes a whole stream and ends it.  What it leaves depends on the stream and on the
host only:

    run succeeds    ↔   no event is refused, everything has closed, the roots fit into the text
                        and, for a strict builder, nothing had to be cut
    elements left    =   the roots grafted into the host

* `Builder.complete`: a complete run.
* `Builder.complete_inner`, `Builder.complete_strict_iff`: the equivalence above.
* `Builder.strategies_agree`: whether nodes are delivered at once or with their roots. -/

namespace Standoff

/-! ## Complete runs -/

/-- What a builder that follows the draft reports at the end. -/
def Draft.report (d : Draft) : BuildReport := ⟨d.cursor, d.roots.labels.length, d.roots.size⟩

namespace Builder

section Complete

variable {τ : Type} {b : Builder τ} {d : Draft} {report : BuildReport} {target : τ}
  {events : List Event}

/-- A stream can end where everything has closed. -/
theorem finish_iff (h : b.Follows d) : b.finish = .ok report ↔ d.Closed ∧ report = b.report := by
  have hstack := h.stack_nil_iff
  rw [Draft.Closed, ← hstack, ← h.scopes]
  unfold finish
  split
  · next hs hsc =>
    rw [hs, hsc]
    constructor
    · intro hok
      cases hok
      exact ⟨⟨rfl, rfl⟩, rfl⟩
    · rintro ⟨-, rfl⟩
      rfl
  · next hno =>
    constructor
    · intro hok
      cases hok
    · rintro ⟨⟨hs, hsc⟩, -⟩
      exact absurd hsc (hno hs)

variable [MergeTarget τ]

/-- Takes events up to the first refusal and, if there is none, ends the stream. -/
def complete (b : Builder τ) (events : List Event) : Except AnnotateError (BuildReport × τ) :=
  match (drive handle b events).outcome with
  | .error e => .error e
  | .ok () =>
    (drive handle b events).state.finish.map fun report =>
      (report, (drive handle b events).state.target)

theorem complete_iff : b.complete events = .ok (report, target) ↔
    (drive handle b events).outcome = .ok () ∧
      (drive handle b events).state.finish = .ok report ∧
      target = (drive handle b events).state.target := by
  unfold complete
  split
  · next e hout =>
    rw [hout]
    exact iff_of_false nofun fun hok => nomatch hok.1
  · next hout =>
    rw [hout]
    cases (drive handle b events).state.finish with
    | error e => exact iff_of_false nofun fun hok => nomatch hok.2.1
    | ok r =>
      simp only [Except.map, Except.ok.injEq, Prod.mk.injEq, true_and]
      constructor
      · rintro ⟨rfl, rfl⟩
        exact ⟨rfl, rfl⟩
      · rintro ⟨rfl, rfl⟩
        exact ⟨rfl, rfl⟩

end Complete

section Runs

open Markup

variable {host doc : Document} {b : Builder Document} {d d' : Draft} {events : List Event}
  {options : Options} {report : BuildReport}

/-! ## Runs into a document -/

theorem Tracks.run (h : Tracks host b d) (hhost : host.WellFormed)
    (hok : (drive handle b events).outcome = .ok ()) :
    ∃ d', d.run? b.options.attributeCursor events = some d' ∧
      Tracks host (drive handle b events).state d' ∧
      (drive handle b events).state.options = b.options := by
  induction events generalizing b d with
  | nil => exact ⟨d, rfl, h, rfl⟩
  | cons e events ih =>
    have hhead : (b.handle e).outcome = .ok () := drive_head hok
    obtain ⟨d₁, hstep, htracks, hoptions⟩ := h.step hhost hhead
    have htracks : Tracks host (b.handle e).state d₁ := htracks
    have hoptions : (b.handle e).state.options = b.options := hoptions
    obtain ⟨hrun, hstate⟩ := drive_cons hhead events
    rw [hrun] at hok
    obtain ⟨d', hrest, htracks', hoptions'⟩ := ih htracks hok
    rw [hoptions] at hrest
    rw [hstate, Draft.run?_cons hstep]
    exact ⟨d', hrest, htracks', hoptions'.trans hoptions⟩

/-- Where cutting is allowed a stream is accepted if the draft takes it and all fits. -/
theorem Tracks.accepts_run (h : Tracks host b d) (hhost : host.WellFormed)
    (hinner : b.options.balancing = .inner)
    (hrun : d.run? b.options.attributeCursor events = some d')
    (hfits : d'.Fits host.text.length) : (drive handle b events).outcome = .ok () := by
  induction events generalizing b d with
  | nil => rfl
  | cons e events ih =>
    obtain ⟨d₁, hstep, hrest⟩ := Option.bind_eq_some_iff.mp hrun
    have hhead : (b.handle e).outcome = .ok () := h.accepts hinner hstep (hfits.of_run hrest)
    obtain ⟨d₁', hstep', htracks, hoptions⟩ := h.step hhost hhead
    obtain rfl : d₁ = d₁' := Option.some.inj (hstep.symm.trans hstep')
    have htracks : Tracks host (b.handle e).state d₁ := htracks
    have hoptions : (b.handle e).state.options = b.options := hoptions
    rw [(drive_cons hhead events).1]
    exact ih htracks (by rw [hoptions, hinner]) (by rw [hoptions]; exact hrest)

/-- The host with the roots of a draft, which have closed and fit into the text. -/
structure Completed (host : Document) (d : Draft) (report : BuildReport) (doc : Document) :
    Prop where
  closed : d.Closed
  fits : d.Fits host.text.length
  report : report = d.report
  wellFormed : doc.WellFormed
  text : doc.text = host.text
  elements : doc.markup.elements =
    (graft (blank d.roots) (host.markup.renumber fun _ => 0)).elements

theorem elements_renumber (ρ : NodeId → NodeId) (m : Markup) :
    (m.renumber ρ).elements = m.elements := by
  rw [elements, renumber, Forest.map_map]
  rfl

theorem complete_ok (h : host.WellFormed)
    (hok : (start host options).complete events = .ok (report, doc)) :
    ∃ d, Draft.run? options.attributeCursor {} events = some d ∧ Completed host d report doc := by
  obtain ⟨hout, hfin, rfl⟩ := complete_iff.mp hok
  obtain ⟨d, hrun, htracks, hoptions⟩ := (tracks_start h options).run h hout
  obtain ⟨hclosed, rfl⟩ := (finish_iff htracks.sound.follows).mp hfin
  have hclaims := htracks.counted
  have hmarkup := htracks.markup
  have hmerged := htracks.merged
  rw [hclosed.1] at hclaims
  rw [List.forall₂_nil_right_iff.mp hclaims, delivered, hclosed.1, raised_nil,
    Forest.append_nil] at hmarkup hmerged
  rw [size_blank] at hmerged
  refine ⟨d, hrun, hclosed, ⟨fun hne => absurd hclosed.1 hne, htracks.fits⟩, ?_,
    htracks.sound.wellFormed, htracks.text, ?_⟩
  · rw [Builder.report, Draft.report, htracks.sound.follows.cursor, htracks.roots, hmerged]
  · rw [← elements_renumber, hmarkup]

/-- Where cutting is allowed every stream that closes all it opens, and fits, succeeds. -/
theorem complete_inner (h : host.WellFormed) (hinner : options.balancing = .inner)
    (hrun : Draft.run? options.attributeCursor {} events = some d) (hclosed : d.Closed)
    (hfits : d.Fits host.text.length) :
    ∃ report doc, (start host options).complete events = .ok (report, doc) := by
  have hout := (tracks_start h options).accepts_run h hinner hrun hfits
  obtain ⟨d', hrun', htracks, -⟩ := (tracks_start h options).run h hout
  obtain rfl : d = d' := Option.some.inj (hrun.symm.trans hrun')
  exact ⟨_, _, complete_iff.mpr
    ⟨hout, (finish_iff htracks.sound.follows).mpr ⟨hclosed, rfl⟩, rfl⟩⟩

theorem Alike.report_eq {b₂ : Builder Document} (h : Alike b b₂ d) : b₂.report = b.report := by
  rw [Builder.report, Builder.report, h.sound.follows.cursor, h.sound₂.follows.cursor, h.roots,
    h.merged]

/-- Where it is not, nothing may be cut: every number taken is that of a node delivered. -/
theorem complete_strict_iff (h : host.WellFormed) (hstrict : options.balancing = .strict) :
    (start host options).complete events = .ok (report, doc) ↔
      (start host { options with balancing := .inner }).complete events = .ok (report, doc) ∧
        doc.next = host.next + report.merged := by
  have halike : Alike (start host options) (start host { options with balancing := .inner }) {} :=
    ⟨sound_start h _, sound_start h _, rfl, rfl, rfl, rfl, hstrict, rfl⟩
  obtain ⟨hiff, hsame⟩ := halike.run_iff events
  rw [complete_iff, complete_iff, hiff]
  constructor
  · rintro ⟨⟨hout, htight⟩, hfin, rfl⟩
    obtain ⟨d, halike⟩ := hsame (hiff.mpr ⟨hout, htight⟩)
    obtain ⟨hclosed, rfl⟩ := (finish_iff halike.sound.follows).mp hfin
    refine ⟨⟨hout, (finish_iff halike.sound₂.follows).mpr ⟨hclosed, halike.report_eq.symm⟩,
      halike.target.symm⟩, ?_⟩
    rw [← halike.report_eq, ← halike.target]
    exact htight
  · rintro ⟨⟨hout, hfin, rfl⟩, hnext⟩
    obtain ⟨d₂, -, htracks, -⟩ := (tracks_start h _).run h hout
    obtain ⟨-, hreport⟩ := (finish_iff htracks.sound.follows).mp hfin
    have htight : Tight (start host { options with balancing := .inner })
        (drive handle (start host { options with balancing := .inner }) events).state := by
      rw [hreport] at hnext
      exact hnext
    obtain ⟨d, halike⟩ := hsame (hiff.mpr ⟨hout, htight⟩)
    obtain ⟨hclosed, -⟩ := (finish_iff halike.sound₂.follows).mp hfin
    rw [hreport, halike.report_eq]
    exact ⟨⟨hout, htight⟩, (finish_iff halike.sound.follows).mpr ⟨hclosed, rfl⟩, halike.target⟩

/-! ## Merge strategies -/

/-- What the same stream leaves in the same host has the same size. -/
theorem Completed.next_eq {doc₂ : Document} (h : Completed host d report doc)
    {report₂ : BuildReport} (h₂ : Completed host d report₂ doc₂) : doc₂.next = doc.next := by
  have hsize : doc₂.elementCount = doc.elementCount := by
    rw [Document.elementCount, Document.elementCount, ← Forest.size_map (·.toElement),
      ← Forest.size_map (·.toElement) doc.markup]
    exact congrArg Forest.size (h₂.elements.trans h.elements.symm)
  rw [h.wellFormed.elementCount_eq, h₂.wellFormed.elementCount_eq] at hsize
  have hpos := h.wellFormed.pos
  have hpos₂ := h₂.wellFormed.pos
  simp only [NodeId] at *
  omega

/-- Where cutting is allowed the merge strategy does not matter. -/
theorem complete_inner_congr (options options' : Options) (h : host.WellFormed)
    (hinner : options'.balancing = .inner)
    (hrule : options'.attributeCursor = options.attributeCursor)
    (hok : (start host options).complete events = .ok (report, doc)) :
    ∃ d doc', (start host options').complete events = .ok (report, doc') ∧
      Completed host d report doc ∧ Completed host d report doc' := by
  obtain ⟨d, hrun, hdone⟩ := complete_ok h hok
  rw [← hrule] at hrun
  obtain ⟨report', doc', hok'⟩ := complete_inner h hinner hrun hdone.closed hdone.fits
  obtain ⟨d', hrun', hdone'⟩ := complete_ok h hok'
  obtain rfl : d = d' := Option.some.inj (hrun.symm.trans hrun')
  obtain rfl : report = report' := hdone.report.trans hdone'.report.symm
  exact ⟨d, doc', hok', hdone, hdone'⟩

/-- Nor does it where cutting is not allowed. -/
theorem complete_congr (options options' : Options) (h : host.WellFormed)
    (hbalancing : options'.balancing = options.balancing)
    (hrule : options'.attributeCursor = options.attributeCursor)
    (hok : (start host options).complete events = .ok (report, doc)) :
    ∃ d doc', (start host options').complete events = .ok (report, doc') ∧
      Completed host d report doc ∧ Completed host d report doc' := by
  cases hb : options.balancing with
  | inner => exact complete_inner_congr options options' h (hbalancing.trans hb) hrule hok
  | strict =>
    obtain ⟨hok, hnext⟩ := (complete_strict_iff h hb).mp hok
    obtain ⟨d, doc', hok', hdone, hdone'⟩ :=
      complete_inner_congr { options with balancing := .inner }
        { options' with balancing := .inner } h rfl hrule hok
    refine ⟨d, doc', (complete_strict_iff h (hbalancing.trans hb)).mpr ⟨hok', ?_⟩, hdone, hdone'⟩
    rw [hdone.next_eq hdone', hnext]

/-- The two merge strategies succeed on the same streams; then they report the same and leave the
same elements, in the same order and nesting. -/
theorem strategies_agree (h : host.WellFormed) (options : Options) (events : List Event) :
    let deferred := (start host { options with merge := .deferred }).complete events
    let incremental := (start host { options with merge := .incremental }).complete events
    ((∃ r, deferred = .ok r) ↔ ∃ r, incremental = .ok r) ∧
      ∀ report doc report' doc', deferred = .ok (report, doc) → incremental = .ok (report', doc') →
        report' = report ∧ doc'.text = doc.text ∧ doc'.markup.elements = doc.markup.elements := by
  intro deferred incremental
  refine ⟨⟨?_, ?_⟩, ?_⟩
  · rintro ⟨⟨report, doc⟩, hok⟩
    obtain ⟨d, doc', hok', -⟩ := complete_congr { options with merge := .deferred }
      { options with merge := .incremental } h rfl rfl hok
    exact ⟨_, hok'⟩
  · rintro ⟨⟨report, doc⟩, hok⟩
    obtain ⟨d, doc', hok', -⟩ := complete_congr { options with merge := .incremental }
      { options with merge := .deferred } h rfl rfl hok
    exact ⟨_, hok'⟩
  · intro report doc report' doc' hok hok'
    obtain ⟨d, doc'', hok'', hdone, hdone'⟩ := complete_congr { options with merge := .deferred }
      { options with merge := .incremental } h rfl rfl hok
    obtain ⟨rfl, rfl⟩ : report' = report ∧ doc' = doc'' := by
      have heq := Except.ok.inj (hok'.symm.trans hok'')
      exact ⟨congrArg Prod.fst heq, congrArg Prod.snd heq⟩
    exact ⟨rfl, hdone'.text.trans hdone.text.symm, hdone'.elements.trans hdone.elements.symm⟩

/-- Two nested nonterminals, of which the outer one crosses an element and has two markers at its
start. -/
theorem strategies_agree_crossing :
    let host := Session.apply (Document.ofText "abcd") [.addSpan "a" ⟨0, 3⟩, .addSpan "m" ⟨2, 2⟩]
    let events : List Event :=
      [.excluded 2, .startNonterminal "p", .startNonterminal "q", .endNonterminal "q",
        .terminal 99, .terminal 100, .endNonterminal "p"]
    host.WellFormed ∧ ∃ report doc doc',
      (start host { merge := .deferred }).complete events = .ok (report, doc) ∧
      (start host { merge := .incremental }).complete events = .ok (report, doc') ∧
      doc'.markup.elements = doc.markup.elements := by
  intro host events
  have h : host.WellFormed :=
    (Session.wellFormed_apply (Document.wellFormed_ofText "abcd") (by decide +kernel)).1
  obtain ⟨hiff, hsame⟩ := strategies_agree h {} events
  have hok : ((start host { merge := .deferred }).complete events).isOk = true := by decide +kernel
  cases hdef : (start host { merge := .deferred }).complete events with
  | error e =>
    rw [hdef] at hok
    cases hok
  | ok r =>
    obtain ⟨r', hinc⟩ := hiff.mp ⟨r, hdef⟩
    obtain ⟨hreport, -, helements⟩ := hsame r.1 r.2 r'.1 r'.2 hdef hinc
    exact ⟨h, r.1, r.2, r'.2, rfl, by rw [hinc, ← hreport], helements⟩

end Runs

end Builder

end Standoff
