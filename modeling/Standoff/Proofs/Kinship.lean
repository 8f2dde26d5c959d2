import Mathlib.Data.List.DropRight
import Standoff.Proofs.Broods
import Standoff.Proofs.Sessions

/-! # Elements and those of their children over a run
A run that delivers every nonterminal when it ends claims the elements of its children for it.  In
the meantime other insertions cut and move what stands around them, but they stay whole, and they
stay in order: the claims of the open nonterminals, the outermost first, are

    claims ≤ start of the next one ≤ its claims ≤ start of the next one ≤ … ≤ cursor

and in document order.  So they are found, and come in order below the new element.

* `Document.Tended`: what a document holds for the nonterminals that are open.
* `Document.Tended.insert`: an insertion keeps it.
* `Builder.steps`, `Builder.insertion?`: the events of a run, and what they insert.
* `Builder.brood_kept`: the elements of children over a whole run. -/

namespace Standoff

open Markup

/-! ## Claims in stream order -/

namespace Builder

variable {c : List NodeId} {cs : List (List NodeId)} {x host : NodeId}

/-- All claims, those of the outermost nonterminal first. -/
def lineup (claims : List (List NodeId)) : List NodeId := claims.reverse.flatten

theorem lineup_cons (c : List NodeId) (cs : List (List NodeId)) :
    lineup (c :: cs) = lineup cs ++ c := by
  rw [lineup, List.reverse_cons, List.flatten_concat]
  rfl

theorem lineup_handed (host : NodeId) (hcs : cs ≠ []) :
    lineup (handed host cs) = lineup cs ++ [host] := by
  cases cs with
  | nil => exact absurd rfl hcs
  | cons c cs => rw [handed, lineup_cons, lineup_cons, List.append_assoc]

theorem mem_lineup : x ∈ lineup cs ↔ ∃ c ∈ cs, x ∈ c := by
  simp only [lineup, List.mem_flatten, List.mem_reverse]

theorem mem_lineup_handed (hx : x ∈ lineup (handed host cs)) : x ∈ lineup cs ∨ x = host := by
  cases cs with
  | nil => cases hx
  | cons c cs =>
    rw [lineup_handed host (List.cons_ne_nil _ _)] at hx
    exact (List.mem_append.mp hx).imp_right List.mem_singleton.mp

end Builder

/-! ## What a document holds for open nonterminals -/

namespace Document

open Builder

/-- What is claimed for the nonterminal further out ended before the one further in started. -/
def Before (made : List Node) (inner outer : List NodeId × Nat) : Prop :=
  ∀ n ∈ made, n.id ∈ outer.1 → n.span.stop ≤ inner.2

/-- The document holds the elements `made` for a run that has come to `cursor`.  `claims` and
`starts` are those of the open nonterminals, the innermost first. -/
structure Tended (doc : Document) (cursor : Nat) (claims : List (List NodeId)) (starts : List Nat)
    (made : List Node) : Prop where
  there : ∀ n ∈ made, n ∈ doc.markup.preorder
  ended : ∀ n ∈ made, n.span.stop ≤ cursor
  /-- No open nonterminal has started inside an element. -/
  apart : ∀ n ∈ made, ∀ a ∈ starts, n.span.stop ≤ a ∨ a ≤ n.span.start
  known : ∀ x ∈ lineup claims, ∃ n ∈ made, n.id = x
  earlier : (claims.zip starts).Pairwise (Before made)
  sorted : (lineup claims).Sublist doc.markup.ids
  interior : Interior (fun x => decide (x ∈ lineup claims)) doc.markup

variable {doc : Document} {cursor cursor' a : Nat} {c : List NodeId} {cs : List (List NodeId)}
  {starts : List Nat} {made : List Node} {e : Element} {balancing : Balancing} {A : Addition}

/-- The mark-up after an insertion, and the number of the new element. -/
theorem WellFormed.insert_joined (h : doc.WellFormed) (hc : doc.ClaimsWithin c e.span)
    (hA : doc.insert e c balancing = .ok A) :
    Insertable 0 doc.text.length c e doc.markup ⟨doc.next, []⟩ ∧
      A.document.markup = joined e c doc.markup ⟨doc.next, []⟩ ∧
      A.id = (opened c e.span doc.markup ⟨doc.next, []⟩).2.next := by
  obtain ⟨hins, rfl⟩ := h.insert_eq hc hA
  exact ⟨hins, gather_placed hins _, rfl⟩

/-- An element is seen as it stands in the mark-up. -/
theorem WellFormed.view?_of_node (h : doc.WellFormed) {n : Node} (hn : n ∈ doc.markup.preorder) :
    ∃ v, doc.view? n.id = some v ∧ v.name = n.name ∧ v.attributes = n.attributes ∧
      v.span = n.span := by
  have hmem := id_mem_ids hn
  obtain ⟨t, ht, rfl⟩ := h.node?_of_mem hn
  obtain ⟨v, hv⟩ := Option.isSome_iff_exists.mp (h.view?_isSome.mpr (h.mem_ids_iff.mp hmem).2)
  refine ⟨v, hv, ?_⟩
  rw [h.rooted.view?_of_mem hmem, ht, Option.bind_some] at hv
  obtain ⟨links, -, rfl⟩ := Option.map_eq_some_iff.mp hv
  exact ⟨rfl, rfl, rfl⟩

namespace Tended

theorem nothing (doc : Document) : Tended doc 0 [] [] [] where
  there := by simp
  ended := by simp
  apart := by simp
  known x hx := by cases hx
  earlier := .nil
  sorted := List.nil_sublist _
  interior := interior_of_unseen (seen_eq_nil_iff.mpr fun _ _ => rfl)

theorem advance (h : Tended doc cursor cs starts made) (hle : cursor ≤ cursor') :
    Tended doc cursor' cs starts made :=
  { h with ended := fun n hn => Nat.le_trans (h.ended n hn) hle }

/-- A nonterminal opens. -/
theorem start (h : Tended doc cursor cs starts made) :
    Tended doc cursor ([] :: cs) (cursor :: starts) made where
  there := h.there
  ended := h.ended
  apart n hn a ha := by
    rcases List.mem_cons.mp ha with rfl | ha
    · exact .inl (h.ended n hn)
    · exact h.apart n hn a ha
  known x hx := h.known x (by rwa [lineup_cons, List.append_nil] at hx)
  earlier := List.pairwise_cons.mpr ⟨fun _ _ n hn _ => h.ended n hn, h.earlier⟩
  sorted := by
    rw [lineup_cons, List.append_nil]
    exact h.sorted
  interior := by
    rw [lineup_cons, List.append_nil]
    exact h.interior

/-- A nonterminal leaves the stack, and what it claims is free. -/
theorem drop (h : Tended doc cursor (c :: cs) (a :: starts) made) :
    Tended doc cursor cs starts made where
  there := h.there
  ended := h.ended
  apart n hn a ha := h.apart n hn a (List.mem_cons_of_mem _ ha)
  known x hx := h.known x (by rw [lineup_cons]; exact List.mem_append_left _ hx)
  earlier := (List.pairwise_cons.mp h.earlier).2
  sorted := (List.sublist_append_left _ _).trans (lineup_cons c cs ▸ h.sorted)
  interior := h.interior.mono fun x _ hx => by
    rw [lineup_cons]
    exact decide_eq_true (List.mem_append_left _ (of_decide_eq_true hx))

section Insert

variable (h : Tended doc e.span.stop (c :: cs) (e.span.start :: starts) made)
include h

/-- What is claimed for the nonterminals further out ended before this one started. -/
theorem outer_ended (hlength : cs.length = starts.length) (n : Node) (hn : n ∈ made)
    (hx : n.id ∈ lineup cs) : n.span.stop ≤ e.span.start := by
  obtain ⟨c', hc', hx⟩ := mem_lineup.mp hx
  have hzip : (cs.zip starts).map Prod.fst = cs := List.map_fst_zip (Nat.le_of_eq hlength)
  rw [← hzip] at hc'
  obtain ⟨p, hp, rfl⟩ := List.mem_map.mp hc'
  exact (List.pairwise_cons.mp h.earlier).1 p hp n hn hx

/-- No element that was made is cut. -/
theorem made_stays (hins : Insertable 0 doc.text.length c e doc.markup ⟨doc.next, []⟩) (n : Node)
    (hn : n ∈ made) : n ∈ (joined e c doc.markup ⟨doc.next, []⟩).preorder := by
  have hended := h.ended n hn
  have hapart := h.apart n hn e.span.start (List.mem_cons_self ..)
  exact hins.mem_joined (h.there n hn) (by omega) (by omega)

variable (hdoc : doc.WellFormed)
include hdoc

/-- What is claimed for the nonterminals further out is not claimed here. -/
theorem outer_claims (x : NodeId) (hx : decide (x ∈ lineup cs) = true) :
    x < doc.next ∧ x ∉ c := by
  have hx : x ∈ lineup cs := of_decide_eq_true hx
  have hsorted := h.sorted
  rw [lineup_cons] at hsorted
  have hmem := hsorted.subset (List.mem_append_left _ hx)
  exact ⟨(hdoc.mem_ids_iff.mp hmem).2, fun hc =>
    (List.nodup_append.mp (hdoc.nodup.sublist hsorted)).2.2 x hx x hc rfl⟩

theorem earlier_handed {new : Node} (hnew : doc.next ≤ new.id) :
    ((handed new.id cs).zip starts).Pairwise (Before (made ++ [new])) := by
  have hmore : (cs.zip starts).Pairwise (Before (made ++ [new])) :=
    h.drop.earlier.imp_of_mem fun {_ outer} _ houter hbefore n hn hx => by
      rcases List.mem_append.mp hn with hn | hn
      · exact hbefore n hn hx
      · obtain rfl := List.mem_singleton.mp hn
        have hmem : n.id ∈ lineup cs := mem_lineup.mpr ⟨_, (List.of_mem_zip houter).1, hx⟩
        exact absurd hnew (Nat.not_le.mpr (h.outer_claims hdoc _ (decide_eq_true hmem)).1)
  cases cs with
  | nil => exact .nil
  | cons c' cs =>
    cases starts with
    | nil => exact .nil
    | cons a starts =>
      obtain ⟨hhead, htail⟩ := List.pairwise_cons.mp hmore
      exact List.pairwise_cons.mpr ⟨hhead, htail⟩

variable (hins : Insertable 0 doc.text.length c e doc.markup ⟨doc.next, []⟩)
include hins

/-- The claims further out and the new element after them are in document order. -/
theorem sorted_joined (hlength : cs.length = starts.length) :
    (lineup cs ++ [(opened c e.span doc.markup ⟨doc.next, []⟩).2.next]).Sublist
      (joined e c doc.markup ⟨doc.next, []⟩).ids := by
  have hq := h.outer_claims hdoc
  have hseen := hins.seen_joined h.drop.interior hq
  rw [seen_of_sublist h.drop.sorted hdoc.nodup] at hseen
  obtain ⟨front, back, hsplit, hback⟩ := hins.joined_split h.drop.interior hq
  have hnone : watched (fun x => decide (x ∈ lineup cs))
      (⟨e, (opened c e.span doc.markup ⟨doc.next, []⟩).2.next⟩ :: back) = [] := by
    refine List.filter_eq_nil_iff.mpr fun y hy hqy => ?_
    rcases List.mem_cons.mp hy with rfl | hy
    · exact Nat.not_lt.mpr next_le_opened (hq _ hqy).1
    · obtain ⟨x, hx, rfl⟩ := List.mem_map.mp hy
      have hlate := hback x hx hqy
      obtain ⟨n, hn, hid⟩ := h.drop.known x.id (of_decide_eq_true hqy)
      have hxmem : x ∈ (joined e c doc.markup ⟨doc.next, []⟩).preorder := by
        rw [hsplit]
        exact List.mem_append_right _ (List.mem_cons_of_mem _ hx)
      obtain rfl := eq_of_id hins.nodup_joined (h.made_stays hins n hn) hxmem hid
      have := h.outer_ended hlength n hn (of_decide_eq_true hqy)
      omega
  rw [seen, hsplit, watched, List.map_append, List.filter_append] at hseen
  rw [watched] at hnone
  rw [hnone, List.append_nil] at hseen
  rw [ids, hsplit, List.map_append, List.map_cons, ← hseen]
  exact List.filter_sublist.append (List.singleton_sublist.mpr (List.mem_cons_self ..))

/-- What is claimed is below the new element, in order. -/
theorem claims_below :
    c.Sublist (brood c e.span doc.markup
      (opened c e.span doc.markup ⟨doc.next, []⟩).1.inside).ids := by
  have hsub : c.Sublist doc.markup.ids :=
    (List.sublist_append_right _ _).trans (lineup_cons c cs ▸ h.sorted)
  have hin : Interior (fun x => decide (x ∈ c)) doc.markup := h.interior.mono fun x _ hx => by
    rw [lineup_cons]
    exact decide_eq_true (List.mem_append_right _ (of_decide_eq_true hx))
  have hbelow : (seen (fun x => decide (x ∈ c)) (brood c e.span doc.markup
      (opened c e.span doc.markup ⟨doc.next, []⟩).1.inside)).Sublist _ := List.filter_sublist
  rwa [hins.seen_brood (fun x => decide_eq_true_iff) hin (seen_of_sublist hsub hdoc.nodup)]
    at hbelow

end Insert

/-- An insertion over the claims of the innermost nonterminal, which leaves the stack. -/
theorem insert (h : Tended doc e.span.stop (c :: cs) (e.span.start :: starts) made)
    (hdoc : doc.WellFormed) (hc : doc.ClaimsWithin c e.span)
    (hnested : ∀ a ∈ starts, a ≤ e.span.start) (hlength : cs.length = starts.length)
    (hA : doc.insert e c balancing = .ok A) :
    Tended A.document e.span.stop (handed A.id cs) starts (made ++ [⟨e, A.id⟩]) ∧
      c.Sublist (A.document.descendants A.id) := by
  obtain ⟨hins, hmarkup, hid⟩ := hdoc.insert_joined hc hA
  have hfresh : doc.next ≤ A.id := hid ▸ next_le_opened (s := ⟨doc.next, []⟩)
  have hnode := hins.node?_joined
  rw [← hmarkup, ← hid] at hnode
  refine ⟨⟨fun n hn => ?_, fun n hn => ?_, fun n hn a ha => ?_, fun x hx => ?_,
    h.earlier_handed hdoc hfresh, ?_, ?_⟩, ?_⟩
  · rcases List.mem_append.mp hn with hn | hn
    · rw [hmarkup]
      exact h.made_stays hins n hn
    · rw [List.mem_singleton.mp hn]
      exact (node?_spec hnode).2 _ (List.mem_cons_self ..)
  · rcases List.mem_append.mp hn with hn | hn
    · exact h.ended n hn
    · rw [List.mem_singleton.mp hn]
  · rcases List.mem_append.mp hn with hn | hn
    · exact h.drop.apart n hn a ha
    · rw [List.mem_singleton.mp hn]
      exact .inr (hnested a ha)
  · rcases mem_lineup_handed hx with hx | rfl
    · obtain ⟨n, hn, hid⟩ := h.drop.known x hx
      exact ⟨n, List.mem_append_left _ hn, hid⟩
    · exact ⟨_, List.mem_append_right _ (List.mem_singleton_self _), rfl⟩
  · rw [hmarkup, hid]
    rcases eq_or_ne cs [] with rfl | hcs
    · exact List.nil_sublist _
    · rw [lineup_handed _ hcs]
      exact h.sorted_joined hdoc hins hlength
  · rw [hmarkup, hid]
    exact hins.interior_joined h.drop.interior (h.outer_claims hdoc) fun x hx =>
      (mem_lineup_handed (of_decide_eq_true hx)).imp_left decide_eq_true
  · have hne : A.id ≠ rootId := Nat.ne_of_gt (Nat.lt_of_lt_of_le hdoc.pos hfresh)
    rw [descendants, below, if_neg hne, hnode]
    exact h.claims_below hdoc hins

end Tended

end Document

/-! ## The events of a run -/

namespace Builder

open Document

/-- The events that a run takes, each with the state in which it is taken. -/
def steps (resume : Bool) : Builder Document → List Event → List (Builder Document × Event)
  | _, [] => []
  | b, e :: rest =>
    let r := b.handle e
    (b, e) :: if resume || r.outcome.isOk then steps resume r.state rest else []

/-- The element that an event inserts, and what the document makes of it. -/
def insertion? (b : Builder Document) (e : Event) : Option (Element × Addition) :=
  match e, b.stack, (b.handle e).outcome with
  | .endNonterminal _, n :: _, .ok () =>
    let element := (b.pending.setStop n.id b.cursor).element n.id
    match b.target.insert element n.claimed b.options.balancing with
    | .ok a => some (element, a)
    | .error _ => none
  | _, _, _ => none

/-- The elements that were inserted for the nonterminals directly inside the innermost open one, in
stream order: with `depth` nonterminals open those that ended one level further in since the last of
them started. -/
def childElements (depth : Nat) (past : List (Builder Document × Event)) : List NodeId :=
  (past.rtakeWhile fun p => decide (depth ≤ p.1.depth)).filterMap fun p =>
    if p.1.depth = depth + 1 then (insertion? p.1 p.2).map (·.2.id) else none

/-- The elements of children for every open nonterminal, the innermost first. -/
def ledger : Nat → List (Builder Document × Event) → List (List NodeId)
  | 0, _ => []
  | depth + 1, past => childElements (depth + 1) past :: ledger depth past

/-- All elements that were inserted. -/
def made (past : List (Builder Document × Event)) : List Node :=
  past.filterMap fun p => (insertion? p.1 p.2).map fun i => ⟨i.1, i.2.id⟩

variable {b b' : Builder Document} {d d' : Draft} {f : Frame} {e : Event} {el : Element}
  {a : Addition} {past before after : List (Builder Document × Event)}
  {depth : Nat} {resume : Bool} {events : List Event}

theorem depth_eq (b : Builder Document) : b.depth = b.claims.length := (List.length_map _).symm

theorem childElements_concat (h : depth ≤ b.depth) : childElements depth (past ++ [(b, e)]) =
    childElements depth past ++
      (if b.depth = depth + 1 then (insertion? b e).map (·.2.id) else none).toList := by
  rw [childElements, List.rtakeWhile_concat_pos _ past (b, e) (by simpa using h), List.filterMap_append]
  congr 1

theorem childElements_concat_of_lt (h : b.depth < depth) :
    childElements depth (past ++ [(b, e)]) = [] := by
  rw [childElements, List.rtakeWhile_concat_neg _ past (b, e) (by simpa using h)]
  rfl

/-- An event that inserts nothing for these nonterminals. -/
theorem ledger_concat (h : depth ≤ b.depth)
    (hnone : depth + 1 < b.depth ∨ insertion? b e = none) :
    ledger depth (past ++ [(b, e)]) = ledger depth past := by
  induction depth with
  | zero => rfl
  | succ depth ih =>
    rw [ledger, ledger, ih (by omega) (hnone.imp_left (by omega)), childElements_concat h]
    rcases hnone with hlt | hnone
    · rw [if_neg (by omega)]
      simp
    · rw [hnone]
      simp

/-- An insertion is entered for the nonterminal around. -/
theorem ledger_concat_handed (h : b.depth = depth + 1) (hi : insertion? b e = some (el, a)) :
    ledger depth (past ++ [(b, e)]) = handed a.id (ledger depth past) := by
  cases depth with
  | zero => rfl
  | succ depth =>
    rw [ledger, ledger, ledger_concat (by omega) (.inl (by omega)),
      childElements_concat (by omega), if_pos h, hi]
    rfl

theorem made_concat : made (past ++ [(b, e)]) =
    made past ++ ((insertion? b e).map fun i => (⟨i.1, i.2.id⟩ : Node)).toList := by
  rw [made, List.filterMap_append, List.filterMap_cons, List.filterMap_nil]
  cases insertion? b e <;> rfl

theorem insertion?_of_error (h : (b.handle e).outcome ≠ .ok ()) : insertion? b e = none := by
  unfold insertion?
  split
  · next hok => exact absurd hok h
  · rfl

/-- An event that ends a nonterminal inserts its element. -/
theorem insertion?_end {n : OpenNode} {stack : List OpenNode} {name : String}
    (hstack : b.stack = n :: stack) (hok : (b.handle (.endNonterminal name)).outcome = .ok ())
    (hel : (b.pending.setStop n.id b.cursor).element n.id = el)
    (ha : b.target.insert el n.claimed b.options.balancing = .ok a) :
    insertion? b (.endNonterminal name) = some (el, a) := by
  unfold insertion?
  rw [hstack, hok]
  simp only [hel, ha]

theorem insertion?_of_not_end (h : ∀ name, e ≠ .endNonterminal name) : insertion? b e = none := by
  unfold insertion?
  split
  · exact absurd rfl (h _)
  · rfl

/-! ## What every event keeps -/

/-- The builder has come to its state through `past`. -/
structure Attends (past : List (Builder Document × Event)) (b : Builder Document) (d : Draft) :
    Prop where
  sound : Sound b d
  incremental : b.options.merge = .incremental
  claims : b.claims = ledger b.depth past
  tended : Tended b.target d.cursor b.claims (starts d) (made past)

theorem attends_start {host : Document} (h : host.WellFormed) {options : Options}
    (hinc : options.merge = .incremental) : Attends [] (start host options) {} :=
  ⟨sound_start h options, hinc, rfl, .nothing host⟩

namespace Attends

variable (h : Attends past b d)
include h

/-- An event that inserts nothing and leaves the open nonterminals as they are. -/
theorem quiet (hnone : insertion? b e = none) (hsound : Sound b' d') (hagree : b.Agrees b')
    (hclaims : b'.claims = b.claims) (hstarts : starts d' = starts d)
    (hcursor : d.cursor ≤ d'.cursor) : Attends (past ++ [(b, e)]) b' d' := by
  refine ⟨hsound, hagree.options ▸ h.incremental, ?_, ?_⟩
  · rw [depth_eq, hclaims, ← depth_eq, ledger_concat (Nat.le_refl _) (.inr hnone)]
    exact h.claims
  · rw [made_concat, hnone, hagree.target, hclaims, hstarts]
    simpa using h.tended.advance hcursor

theorem refused (hm : d.move? b.options.attributeCursor e = none) :
    insertion? b e = none ∧ Attends (past ++ [(b, e)]) (b.handle e).state d := by
  obtain ⟨error, happly⟩ := Builder.apply_refused h.sound.follows hm
  have hnone : insertion? b e = none := insertion?_of_error (by
    rw [show (b.handle e).outcome = (b.apply e).outcome from rfl, happly]
    exact fun hok => by cases hok)
  have hstate : (b.handle e).state = b := by
    rw [show (b.handle e).state = (b.apply e).state from rfl, happly]
    rfl
  rw [hstate]
  exact ⟨hnone, h.quiet hnone h.sound (.refl b) rfl rfl (Nat.le_refl _)⟩

theorem stay (hm : d.move? b.options.attributeCursor e = some (.stay d')) :
    insertion? b e = none ∧ Attends (past ++ [(b, e)]) (b.handle e).state d' := by
  obtain ⟨b', happly, -, hagree, hclaims⟩ := Builder.apply_stay h.sound.follows hm
  obtain ⟨hsound, -⟩ := h.sound.apply_stay hm
  obtain ⟨hcursor, -, hframes⟩ := Draft.stay_cases hm
  have hnone : insertion? b e = none := insertion?_of_not_end fun name hname => by
    subst hname
    obtain ⟨f, d'', hclose⟩ := Draft.end_closes hm
    cases hclose
  have hstate : (b.handle e).state = b' := by
    rw [show (b.handle e).state = (b.apply e).state from rfl, happly]
    rfl
  rw [hstate]
  rw [show (b.apply e).state = b' from hstate] at hsound
  exact ⟨hnone, h.quiet hnone hsound hagree hclaims (starts_congr (fun _ _ h => h.2) hframes)
    hcursor⟩

theorem start (hm : d.move? b.options.attributeCursor e = some (.start d')) :
    insertion? b e = none ∧ Attends (past ++ [(b, e)]) (b.handle e).state d' := by
  obtain ⟨b', happly, -, hagree, hclaims⟩ := Builder.apply_start h.sound.follows hm
  obtain ⟨hsound, -⟩ := h.sound.apply_start hm
  obtain ⟨name, rfl, -, -, rfl⟩ := Draft.start_cases hm
  have hnone : insertion? b (.startNonterminal name) = none :=
    insertion?_of_not_end fun _ hname => by cases hname
  have hstate : (b.handle (.startNonterminal name)).state = b' := by
    rw [show (b.handle (.startNonterminal name)).state =
      (b.apply (.startNonterminal name)).state from rfl, happly]
    rfl
  rw [hstate]
  rw [show (b.apply (.startNonterminal name)).state = b' from hstate] at hsound
  refine ⟨hnone, hsound, hagree.options ▸ h.incremental, ?_, ?_⟩
  · rw [depth_eq, hclaims, List.length_cons, ← depth_eq, ledger,
      ledger_concat (Nat.le_refl _) (.inr hnone), childElements_concat_of_lt (Nat.lt_succ_self _),
      h.claims]
  · rw [made_concat, hnone, hagree.target, hclaims]
    rw [Option.map_none, Option.toList_none, List.append_nil]
    exact h.tended.start

/-- The claims of the innermost nonterminal are the elements of its children. -/
theorem claims_cons {c : List NodeId} {cs : List (List NodeId)} (hclaims : b.claims = c :: cs) :
    b.depth = cs.length + 1 ∧ c = childElements b.depth past ∧ cs = ledger cs.length past := by
  have hdepth : b.depth = cs.length + 1 := by rw [depth_eq, hclaims, List.length_cons]
  have hledger := h.claims
  rw [hclaims, hdepth, ledger] at hledger
  obtain ⟨hc, hcs⟩ := List.cons.inj hledger
  exact ⟨hdepth, hdepth ▸ hc, hcs⟩

/-- The innermost nonterminal leaves the stack, and its element is refused. -/
theorem leaves {g : Frame} {outer : List Frame} {c : List NodeId} {cs : List (List NodeId)}
    (hclaims : b.claims = c :: cs) (hframes : d.frames = g :: outer)
    (hnone : insertion? b e = none) (hsound : Sound b' { d with frames := outer })
    (hoptions : b'.options = b.options) (htarget : b'.target = b.target)
    (hclaims' : b'.claims = cs) : Attends (past ++ [(b, e)]) b' { d with frames := outer } := by
  obtain ⟨hdepth, -, hledger⟩ := h.claims_cons hclaims
  refine ⟨hsound, hoptions ▸ h.incremental, ?_, ?_⟩
  · rw [depth_eq, hclaims', ledger_concat (by omega) (.inr hnone)]
    exact hledger
  · have htended := h.tended
    rw [hclaims, show starts d = _ from congrArg (List.map _) hframes] at htended
    rw [made_concat, hnone, htarget, hclaims', Option.map_none, Option.toList_none,
      List.append_nil]
    exact htended.drop

/-- The innermost nonterminal leaves the stack, and its element goes over those of its children. -/
theorem inserts {g : Frame} {outer : List Frame} {c : List NodeId} {cs : List (List NodeId)}
    (hclaims : b.claims = c :: cs) (hframes : d.frames = g :: outer)
    (hsome : insertion? b e = some ((g.endAt d.cursor).element, a))
    (hwithin : b.target.ClaimsWithin c (g.endAt d.cursor).element.span)
    (hres : b.target.insert (g.endAt d.cursor).element c b.options.balancing = .ok a)
    (hsound : Sound b' (({ d with frames := outer } : Draft).attach (g.endAt d.cursor)))
    (hoptions : b'.options = b.options) (htarget : b'.target = a.document)
    (hclaims' : b'.claims = handed a.id cs) :
    Attends (past ++ [(b, e)]) b' (({ d with frames := outer } : Draft).attach (g.endAt d.cursor)) ∧
      (childElements b.depth past).Sublist (a.document.descendants a.id) := by
  obtain ⟨hdepth, hchildren, hledger⟩ := h.claims_cons hclaims
  have htended := h.tended
  have hnested := h.sound.nested
  have hlength := h.sound.claims.length_eq
  rw [show starts d = _ from congrArg (List.map _) hframes] at htended hnested hlength
  rw [hclaims] at htended hlength
  obtain ⟨hinsert, hbelow⟩ := htended.insert (e := (g.endAt d.cursor).element)
    h.sound.wellFormed hwithin (List.pairwise_cons.mp hnested).1 (Nat.succ.inj hlength) hres
  refine ⟨⟨hsound, hoptions ▸ h.incremental, ?_, ?_⟩, hchildren ▸ hbelow⟩
  · have hsame : (handed a.id cs).length = cs.length := by cases cs <;> rfl
    rw [depth_eq, hclaims', hsame, ledger_concat_handed hdepth hsome, ← hledger]
  · rw [made_concat, hsome, htarget, hclaims', cursor_attach, starts_attach]
    exact hinsert

/-- The innermost nonterminal ends, and its element goes into the document or is refused. -/
theorem close (hm : d.move? b.options.attributeCursor e = some (.close f d')) :
    (∃ d'', Attends (past ++ [(b, e)]) (b.handle e).state d'') ∧
      ((b.handle e).outcome = .ok () → (insertion? b e).isSome = true) ∧
      ∀ el a, insertion? b e = some (el, a) → (b.handle e).state.target = a.document ∧
        (childElements b.depth past).Sublist (a.document.descendants a.id) := by
  have hcloses := h.sound.closes hm
  obtain ⟨n, stack, -, -, -, hstack, -, -, -, -, -, -, helement, -, -⟩ :=
    Builder.apply_close h.sound.follows hm
  obtain ⟨d'', hsound, hok, hoptions, -, herror⟩ := h.sound.apply_close hm
  obtain ⟨g, outer, rfl, hframes, -, rfl, rfl⟩ := Draft.close_cases hm
  cases hcloses with
  | waits c state hdef => cases h.incremental.symm.trans hdef
  | root hdef => cases h.incremental.symm.trans hdef
  | node c cs hinc hclaims hwithin hd =>
    obtain ⟨rfl, -⟩ := List.cons.inj ((Builder.claims_cons hstack).symm.trans hclaims)
    cases hres : b.target.insert (g.endAt d.cursor).element n.claimed b.options.balancing with
    | error conflict =>
      rw [hres] at hd
      obtain ⟨hout, -, hclaims', -, -⟩ := hd.refused conflict rfl
      have hne : (b.apply (.endNonterminal g.element.name)).outcome ≠ .ok () := by
        rw [hout]
        exact fun h => by cases h
      have hnone : insertion? b (.endNonterminal g.element.name) = none := insertion?_of_error hne
      obtain rfl := herror hne
      exact ⟨⟨_, h.leaves hclaims hframes hnone hsound hoptions hd.target hclaims'⟩,
        fun h => absurd h hne, fun el a hsome => by cases hnone.symm.trans hsome⟩
    | ok a =>
      rw [hres] at hd
      obtain ⟨hout, -, hclaims', -, -⟩ := hd.accepted a.id rfl
      obtain rfl := hok hout
      have hsome : insertion? b (.endNonterminal g.element.name) =
          some ((g.endAt d.cursor).element, a) := insertion?_end hstack hout helement hres
      obtain ⟨hattends, hbelow⟩ :=
        h.inserts hclaims hframes hsome hwithin hres hsound hoptions hd.target hclaims'
      refine ⟨⟨_, hattends⟩, fun _ => by rw [hsome]; rfl, fun el a' ha' => ?_⟩
      cases hsome.symm.trans ha'
      exact ⟨hd.target, hbelow⟩

/-- What every event keeps, and what an insertion does. -/
theorem step (e : Event) : (∃ d', Attends (past ++ [(b, e)]) (b.handle e).state d') ∧
    (∀ name, e = .endNonterminal name → (b.handle e).outcome = .ok () →
      (insertion? b e).isSome = true) ∧
    ∀ el a, insertion? b e = some (el, a) → (b.handle e).state.target = a.document ∧
      (childElements b.depth past).Sublist (a.document.descendants a.id) := by
  cases hm : d.move? b.options.attributeCursor e with
  | none =>
    obtain ⟨hnone, hstep⟩ := h.refused hm
    refine ⟨⟨_, hstep⟩, fun _ _ hok => ?_, fun _ _ ha => by cases hnone.symm.trans ha⟩
    obtain ⟨error, happly⟩ := Builder.apply_refused h.sound.follows hm
    rw [show (b.handle e).outcome = (b.apply e).outcome from rfl, happly] at hok
    cases hok
  | some mv =>
    cases mv with
    | start d' =>
      obtain ⟨hnone, hstep⟩ := h.start hm
      refine ⟨⟨_, hstep⟩, fun name he => ?_, fun _ _ ha => by cases hnone.symm.trans ha⟩
      obtain ⟨f, d'', hclose⟩ := Draft.end_closes (he ▸ hm)
      cases hclose
    | stay d' =>
      obtain ⟨hnone, hstep⟩ := h.stay hm
      refine ⟨⟨_, hstep⟩, fun name he => ?_, fun _ _ ha => by cases hnone.symm.trans ha⟩
      obtain ⟨f, d'', hclose⟩ := Draft.end_closes (he ▸ hm)
      cases hclose
    | close f d' =>
      obtain ⟨hstep, hsome, hinsert⟩ := h.close hm
      exact ⟨hstep, fun _ _ => hsome, hinsert⟩

end Attends

/-! ## Whole runs -/

theorem run_cons (resume : Bool) (b : Builder Document) (e : Event) (rest : List Event) :
    (run resume b (e :: rest)).1 =
      if resume || (b.handle e).outcome.isOk then (run resume (b.handle e).state rest).1
      else (b.handle e).state := by
  cases resume with
  | true => rfl
  | false =>
    rw [run, run, drive]
    cases hout : (b.handle e).outcome with
    | ok => rfl
    | error => rfl

/-- The states that a run passes through. -/
theorem Attends.of_steps (h : Attends past b d)
    (hs : steps resume b events = before ++ (b', e) :: after) :
    ∃ d', Attends (past ++ before) b' d' := by
  induction events generalizing past b d before with
  | nil => cases before <;> cases hs
  | cons e₀ rest ih =>
    rw [steps] at hs
    cases before with
    | nil =>
      cases hs
      exact ⟨d, by rwa [List.append_nil]⟩
    | cons p before =>
      rw [List.cons_append] at hs
      obtain ⟨rfl, htail⟩ := List.cons.inj hs
      split at htail
      · obtain ⟨⟨d₁, hstep⟩, -⟩ := h.step e₀
        obtain ⟨d', hd'⟩ := ih hstep htail
        exact ⟨d', by rwa [List.append_assoc] at hd'⟩
      · cases before <;> cases htail

/-- The last state of a run. -/
theorem Attends.run (h : Attends past b d) (resume : Bool) (events : List Event) :
    ∃ d', Attends (past ++ steps resume b events) (run resume b events).1 d' := by
  induction events generalizing past b d with
  | nil =>
    refine ⟨d, ?_⟩
    rw [steps, List.append_nil]
    cases resume <;> exact h
  | cons e rest ih =>
    obtain ⟨⟨d₁, hstep⟩, -⟩ := h.step e
    rw [run_cons, steps]
    split
    · obtain ⟨d', hd'⟩ := ih hstep
      exact ⟨d', by rwa [List.append_assoc] at hd'⟩
    · exact ⟨d₁, hstep⟩

/-- What has been inserted is seen as it was inserted. -/
theorem Attends.view? (h : Attends past b d) (hmem : (b', e) ∈ past)
    (ha : insertion? b' e = some (el, a)) : ∃ v, b.target.view? a.id = some v ∧
      v.name = el.name ∧ v.attributes = el.attributes ∧ v.span = el.span := by
  have hmade : (⟨el, a.id⟩ : Node) ∈ made past :=
    List.mem_filterMap.mpr ⟨_, hmem, by rw [ha]; rfl⟩
  exact h.sound.wellFormed.view?_of_node (h.tended.there _ hmade)

/-- A run that delivers every nonterminal when it ends, and stops at a refusal or goes on.  Where
the end of a nonterminal is accepted its element is in the document, over the elements of its direct
children in stream order; and in every state from then on it has the name, the attributes and the
span with which it was inserted. -/
theorem brood_kept {host : Document} (h : host.WellFormed) (options : Options)
    (hinc : options.merge = .incremental) (resume : Bool) (events : List Event) {name : String}
    {future : List (Builder Document × Event)}
    (hsteps : steps resume (start host options) events =
      past ++ (b, .endNonterminal name) :: future)
    (hok : (b.handle (.endNonterminal name)).outcome = .ok ()) :
    ∃ el a, insertion? b (.endNonterminal name) = some (el, a) ∧
      (b.handle (.endNonterminal name)).state.target = a.document ∧
      (childElements b.depth past).Sublist (a.document.descendants a.id) ∧
      ∀ doc ∈ future.map (·.1.target) ++ [(run resume (start host options) events).1.target],
        ∃ v, doc.view? a.id = some v ∧ v.name = el.name ∧ v.attributes = el.attributes ∧
          v.span = el.span := by
  have hstart := attends_start h hinc
  obtain ⟨d, hd⟩ := hstart.of_steps hsteps
  obtain ⟨-, hsome, hinsert⟩ := hd.step (.endNonterminal name)
  obtain ⟨⟨el, a⟩, ha⟩ := Option.isSome_iff_exists.mp (hsome name rfl hok)
  obtain ⟨htarget, hchildren⟩ := hinsert el a ha
  refine ⟨el, a, ha, htarget, hchildren, fun doc hdoc => ?_⟩
  rcases List.mem_append.mp hdoc with hdoc | hdoc
  · -- a later state: the run split once more
    obtain ⟨⟨b', e'⟩, hmem, rfl⟩ := List.mem_map.mp hdoc
    obtain ⟨between, rest, rfl⟩ := List.append_of_mem hmem
    rw [← List.cons_append, ← List.append_assoc] at hsteps
    obtain ⟨d', hd'⟩ := hstart.of_steps hsteps
    exact hd'.view? (by simp) ha
  · obtain rfl := List.mem_singleton.mp hdoc
    obtain ⟨d', hd'⟩ := hstart.run resume events
    rw [hsteps] at hd'
    exact hd'.view? (by simp) ha

/-- A marker in front of an element of the host that the element of its parent goes into, and a
marker inside; later another nonterminal cuts the element of the host. -/
theorem brood_kept_stray :
    let host := Session.apply (Document.ofText "abcdef") [.addSpan "h" ⟨1, 4⟩]
    let events : List Event := [.excluded 1, .startNonterminal "p", .startNonterminal "z",
      .endNonterminal "z", .endAttribute, .terminal 98, .startNonterminal "c", .endNonterminal "c",
      .terminal 99, .endNonterminal "p", .startNonterminal "q", .terminal 100, .terminal 101,
      .endNonterminal "q"]
    let first : Builder Document := start host { merge := .incremental }
    host.WellFormed ∧ ∃ past b future el a,
      steps true first events = past ++ (b, .endNonterminal "p") :: future ∧
      (b.handle (.endNonterminal "p")).outcome = .ok () ∧
      childElements b.depth past = [2, 3] ∧
      insertion? b (.endNonterminal "p") = some (el, a) ∧
      [2, 3].Sublist (a.document.descendants a.id) ∧
      ∀ doc ∈ future.map (·.1.target) ++ [(run true first events).1.target],
        ∃ v, doc.view? a.id = some v ∧ v.name = el.name ∧ v.attributes = el.attributes ∧
          v.span = el.span := by
  intro host events first
  have h : host.WellFormed :=
    (Session.wellFormed_apply (Document.wellFormed_ofText "abcdef") (by decide +kernel)).1
  have hcheck : ((steps true first events).drop 9).head?.any (fun p =>
      decide (p.2 = .endNonterminal "p" ∧ (p.1.handle p.2).outcome = .ok () ∧
        childElements p.1.depth ((steps true first events).take 9) = [2, 3])) = true := by
    decide +kernel
  have hsplit := List.take_append_drop 9 (steps true first events)
  -- the run is evaluated above, and nowhere below
  clear_value events
  generalize (steps true first events).take 9 = past at hcheck hsplit
  generalize (steps true first events).drop 9 = rest at hcheck hsplit
  cases rest with
  | nil => cases hcheck
  | cons p future =>
    obtain ⟨b, e⟩ := p
    obtain ⟨he, hok, hchildren⟩ := of_decide_eq_true hcheck
    obtain rfl : e = .endNonterminal "p" := he
    obtain ⟨el, a, ha, -, hbelow, hkept⟩ :=
      brood_kept h { merge := .incremental } rfl true events hsplit.symm hok
    rw [hchildren] at hbelow
    exact ⟨h, past, b, future, el, a, hsplit.symm, hok, hchildren, ha, hbelow, hkept⟩

end Builder

end Standoff
