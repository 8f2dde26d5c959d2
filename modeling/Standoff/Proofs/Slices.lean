import Standoff.Proofs.Balancing
import Standoff.Proofs.Bytes
import Standoff.Proofs.Fragments
import Standoff.Proofs.Sessions

/-!
# What a span covers

A span is looked up twice, once for the byte at which it starts and once, counted from there, for
the byte at which it ends.  Both are boundaries of characters, so the text is never cut inside one,
and what lies between them are the characters at the positions of the span:

    s.slice text = the characters from s.start up to s.stop, if s is ordered and ends in the text
    slice [a,b) ++ slice [b,c) = slice [a,c)

The second line is what the halves of a cut element have in common with the whole.

* `Span.slice?_eq`: the look-up never fails, and what it finds.
* `Span.slice_append`: spans that abut.
* `Markup.halves_of_divide`, `Document.WellFormed.halves_of_insert`: the halves of an element.
* `Span.slice_answer`: all of it.
-/

namespace Standoff

namespace Span

open String (utf8Len)

variable {text : String} {a b c : Nat}

/-- A span finds the bytes before its start and those before its end, which is no less. -/
theorem byteRange?_eq (s : Span) (text : String) : s.byteRange? text =
    if max s.start s.stop ≤ text.length then
      some (utf8Len (text.toList.take s.start), utf8Len (text.toList.take (max s.start s.stop)))
    else none := by
  have hbound (i : Nat) : (Text.boundaries 0 text.toList)[i]? =
      if i ≤ text.length then some (utf8Len (text.toList.take i)) else none := by
    rw [Text.getElem?_boundaries, Nat.zero_add, String.length_toList]
  have hhead := List.head?_drop (l := Text.boundaries 0 text.toList) (i := s.start)
  rw [hbound] at hhead
  unfold byteRange?
  cases hdrop : (Text.boundaries 0 text.toList).drop s.start with
  | nil =>
    rw [hdrop] at hhead
    have hstart : ¬ s.start ≤ text.length := by
      intro hle
      rw [if_pos hle] at hhead
      cases hhead
    rw [if_neg (by omega)]
  | cons start behind =>
    rw [hdrop] at hhead
    by_cases hstart : s.start ≤ text.length
    · rw [if_pos hstart] at hhead
      obtain rfl := Option.some.inj hhead
      by_cases hempty : s.stop ≤ s.start
      · have hisEmpty : s.isEmpty = true := decide_eq_true hempty
        rw [Nat.max_eq_left hempty, if_pos hstart]
        simp only [hisEmpty, if_true]
      · -- the end stands `s.length` boundaries behind the start
        have hget : behind[s.length - 1]? =
            if s.stop ≤ text.length then some (utf8Len (text.toList.take s.stop)) else none := by
          have hplace : s.start + (s.length - 1 + 1) = s.stop := by
            unfold length
            omega
          rw [← hbound, ← hplace, ← List.getElem?_drop, hdrop, List.getElem?_cons_succ]
        have hisEmpty : s.isEmpty = false := decide_eq_false hempty
        dsimp only
        rw [Nat.max_eq_right (by omega), hget, hisEmpty]
        by_cases hstop : s.stop ≤ text.length
        · simp [hstop]
        · simp [hstop]
    · rw [if_neg hstart] at hhead
      cases hhead

/-- A look-up never fails.  It finds the characters from `s.start` up to `s.stop`. -/
theorem slice?_eq (s : Span) (text : String) : s.slice? text =
    some (String.ofList (if s.start ≤ s.stop ∧ s.stop ≤ text.length then
      text.toList.extract s.start s.stop else [])) := by
  unfold slice?
  rw [byteRange?_eq]
  by_cases hmax : max s.start s.stop ≤ text.length
  · rw [if_pos hmax]
    have hparts : text.toList = text.toList.take s.start ++
        ((text.toList.drop s.start).take (s.stop - s.start) ++
          text.toList.drop (max s.start s.stop)) := by
      have hdrop : text.toList.drop (max s.start s.stop) =
          (text.toList.drop s.start).drop (s.stop - s.start) := by
        rw [List.drop_drop]
        congr 1
        omega
      rw [hdrop, List.take_append_drop, List.take_append_drop]
    have hstop : utf8Len (text.toList.take (max s.start s.stop)) =
        utf8Len (text.toList.take s.start) +
          utf8Len ((text.toList.drop s.start).take (s.stop - s.start)) := by
      have hsum : max s.start s.stop = s.start + (s.stop - s.start) := by omega
      rw [hsum, List.take_add, String.utf8Len_append]
    dsimp only
    rw [Text.between?_eq hparts rfl hstop, ← List.extract_eq_take_drop]
    by_cases hord : s.start ≤ s.stop
    · rw [if_pos ⟨hord, by omega⟩]
    · rw [if_neg fun h => hord h.1, List.extract_eq_take_drop,
        Nat.sub_eq_zero_of_le (by omega), List.take_zero]
  · rw [if_neg hmax, if_neg (by omega)]

theorem toList_slice (s : Span) (text : String) : (s.slice text).toList =
    if s.start ≤ s.stop ∧ s.stop ≤ text.length then text.toList.extract s.start s.stop else [] := by
  rw [slice, slice?_eq, Option.getD_some, String.toList_ofList]

/-- Spans that abut cover what the span over both covers. -/
theorem slice_append (hab : a ≤ b) (hbc : b ≤ c) (hc : c ≤ text.length) :
    (Span.mk a b).slice text ++ (Span.mk b c).slice text = (Span.mk a c).slice text := by
  rw [← String.toList_inj, String.toList_append, toList_slice, toList_slice, toList_slice]
  dsimp only
  rw [if_pos ⟨hab, by omega⟩, if_pos ⟨hbc, hc⟩, if_pos ⟨by omega, hc⟩]
  simp only [List.extract_eq_take_drop]
  have hfirst : c - a = (b - a) + (c - b) := by omega
  have hsecond : text.toList.drop b = (text.toList.drop a).drop (b - a) := by
    rw [List.drop_drop]
    congr 1
    omega
  rw [hfirst, List.take_add, hsecond]

/-- Where a span is cut by another that crosses it. -/
theorem crossed_inside {s t : Span} (h : s.crosses t = true) :
    s.strictlyContains (s.crossed t) = true := by
  have hcross := crosses_iff.mp h
  rw [strictlyContains_iff, crossed]
  split <;> omega

end Span

/-- The halves of a node cover together what it covered. -/
theorem Node.halves_slice {n : Node} {pos : Nat} {text : String}
    (hpos : n.span.strictlyContains pos = true) (hstop : n.span.stop ≤ text.length) (id : NodeId) :
    (n.leftHalf pos).span.slice text ++ (n.rightHalf pos id).span.slice text =
      n.span.slice text := by
  obtain ⟨hstart, hlt⟩ := Span.strictlyContains_iff.mp hpos
  exact Span.slice_append (Nat.le_of_lt hstart) (Nat.le_of_lt hlt) hstop

namespace Markup

variable {m : Markup} {n : Node} {pos lo hi : Nat}

/-- Every node that is cut has its right half among the halves. -/
theorem exists_half (cut : Node → Nat) {ns : List Node} (hn : n ∈ ns) (k : NodeId) :
    ∃ id, k ≤ id ∧ n.rightHalf (cut n) id ∈ halves cut k ns := by
  induction ns generalizing k with
  | nil => cases hn
  | cons x ns ih =>
    rcases List.mem_cons.mp hn with rfl | hn
    · exact ⟨k, Nat.le_refl k, List.mem_cons_self ..⟩
    · obtain ⟨id, hle, hmem⟩ := ih hn (k + 1)
      exact ⟨id, Nat.le_of_succ_le hle, List.mem_cons_of_mem _ hmem⟩

/-- The two halves of a node that a division cuts. -/
theorem halves_of_divide (h : Nests lo hi m) (hn : n ∈ m.preorder)
    (hpos : n.span.strictlyContains pos = true) (s : Supply) :
    n.leftHalf pos ∈ (divide pos m s).row.preorder ∧
      ∃ id, n.rightHalf pos id ∈ (divide pos m s).row.preorder := by
  have hperm := perm_divide h pos s
  constructor
  · refine hperm.mem_iff.mpr (List.mem_append_left _ ?_)
    rw [← Node.upTo_of_holds (Span.strictlyContains_iff.mp hpos)]
    exact List.mem_map_of_mem hn
  · have hholding : n ∈ holding pos m := List.mem_filter.mpr ⟨hn, hpos⟩
    obtain ⟨id, -, hid⟩ := exists_half (fun _ => pos) hholding s.next
    exact ⟨id, hperm.mem_iff.mpr (List.mem_append_right _ hid)⟩

end Markup

namespace Document

open Markup

variable {doc : Document} {e : Element} {balancing : Balancing} {a : Addition} {n : Node}

theorem WellFormed.coveredText?_eq (h : doc.WellFormed) (hn : n ∈ doc.markup.preorder) :
    doc.coveredText? n.id = some (n.span.slice doc.text) := by
  have hid : n.id ∈ doc.markup.ids := id_mem_ids hn
  have hne : n.id ≠ rootId := fun h0 => h.rootId_not_mem (h0 ▸ hid)
  rw [coveredText?, (h.span?_eq_some hne).mpr ⟨n, hn, rfl, rfl⟩, Option.map_some]

/-- The two halves of a node that a new element crosses. -/
theorem WellFormed.halves_of_insert (h : doc.WellFormed) (ha : doc.insert e [] balancing = .ok a)
    (hn : n ∈ doc.markup.preorder) (hcross : n.span.crosses e.span = true) :
    n.leftHalf (n.span.crossed e.span) ∈ a.document.markup.preorder ∧
      ∃ id, doc.next ≤ id ∧
        n.rightHalf (n.span.crossed e.span) id ∈ a.document.markup.preorder := by
  obtain ⟨hins, hmarkup, -⟩ := h.insert_added ha
  have hperm := hins.perm_added
  rw [hmarkup]
  constructor
  · refine hperm.mem_iff.mpr (List.mem_cons_of_mem _ (List.mem_append_left _ ?_))
    exact List.mem_map.mpr ⟨n, hn, by rw [Node.spared, if_pos hcross]⟩
  · have hcrossing : n ∈ crossing e.span doc.markup := List.mem_filter.mpr ⟨hn, hcross⟩
    obtain ⟨id, hle, hid⟩ := exists_half (fun n => n.span.crossed e.span) hcrossing doc.next
    exact ⟨id, hle, hperm.mem_iff.mpr (List.mem_cons_of_mem _ (List.mem_append_right _ hid))⟩

end Document

namespace Span

open Markup

/-- What a span covers in a text, whatever its bounds.  The look-up never fails and finds the
characters from the start up to the stop if the span is ordered and ends in the text, none
otherwise.  So spans that abut cover what they cover together, and so do the halves of every
element that is cut: in a row that is divided, and in a document that gets a new element. -/
theorem slice_answer (text : String) :
    (∀ s : Span, s.slice? text = some (s.slice text) ∧ (s.slice text).toList =
      if s.start ≤ s.stop ∧ s.stop ≤ text.length then text.toList.extract s.start s.stop else []) ∧
    (∀ a b c, a ≤ b → b ≤ c → c ≤ text.length →
      (Span.mk a b).slice text ++ (Span.mk b c).slice text = (Span.mk a c).slice text) ∧
    (∀ (m : Markup) (pos : Nat) (s : Supply), Nests 0 text.length m → ∀ n ∈ m.preorder,
      n.span.strictlyContains pos = true → ∃ id,
        n.leftHalf pos ∈ (divide pos m s).row.preorder ∧
        n.rightHalf pos id ∈ (divide pos m s).row.preorder ∧
        (n.leftHalf pos).span.slice text ++ (n.rightHalf pos id).span.slice text =
          n.span.slice text) ∧
    (∀ (doc : Document) (e : Element) (balancing : Balancing) (a : Addition), doc.WellFormed →
      doc.text = text → doc.insert e [] balancing = .ok a → ∀ n ∈ doc.markup.preorder,
      n.span.crosses e.span = true → ∃ id left right, doc.next ≤ id ∧
        a.document.coveredText? n.id = some left ∧ a.document.coveredText? id = some right ∧
        doc.coveredText? n.id = some (left ++ right)) := by
  refine ⟨?_, ?_, ?_, ?_⟩
  · intro s
    have hfound := slice?_eq s text
    rw [← toList_slice, String.ofList_toList] at hfound
    exact ⟨hfound, toList_slice s text⟩
  · intro a b c hab hbc hc
    exact slice_append hab hbc hc
  · intro m pos s h n hn hpos
    obtain ⟨hleft, id, hright⟩ := halves_of_divide h hn hpos s
    exact ⟨id, hleft, hright, Node.halves_slice hpos (h.bounds hn).2.2 id⟩
  · rintro doc e balancing a h rfl ha n hn hcross
    obtain ⟨hleft, id, hid, hright⟩ := h.halves_of_insert ha hn hcross
    have h' : a.document.WellFormed := h.insert (fun c hc => absurd hc List.not_mem_nil) ha
    have htext : a.document.text = doc.text := Document.insert_text ha
    have hl := h'.coveredText?_eq hleft
    have hr := h'.coveredText?_eq hright
    rw [htext] at hl hr
    refine ⟨id, _, _, hid, hl, hr, ?_⟩
    rw [h.coveredText?_eq hn,
      Node.halves_slice (crossed_inside hcross) (h.nests.bounds hn).2.2 id]

/-- A text with characters of two bytes, an inverted span, one that runs past the text, and an
element that is cut in front of such a character. -/
theorem slice_answer_wide :
    let text := "größe"
    let host := Session.apply (Document.ofText text) [.addSpan "a" ⟨0, 5⟩, .addSpan "w" ⟨1, 3⟩]
    let w : Node := ⟨⟨"w", ⟨1, 3⟩, {}⟩, 2⟩
    (Span.mk 2 4).slice? text = some "öß" ∧ (Span.mk 4 1).slice? text = some "" ∧
      (Span.mk 3 99).slice? text = some "" ∧
      (Span.mk 1 3).slice text ++ (Span.mk 3 5).slice text = (Span.mk 1 5).slice text ∧
      (∃ id, w.rightHalf 2 id ∈ (divide 2 host.markup ⟨3, []⟩).row.preorder) ∧
      host.WellFormed ∧ ∃ a, host.insert ⟨"x", ⟨2, 5⟩, {}⟩ [] .inner = .ok a ∧
        ∃ id left right, a.document.coveredText? w.id = some left ∧
          a.document.coveredText? id = some right ∧ left ++ right = "rö" := by
  intro text host w
  obtain ⟨hslice, habut, hdivide, hcut⟩ := slice_answer text
  have hfound {s : Span} {found : String} (hlist : found.toList =
      if s.start ≤ s.stop ∧ s.stop ≤ text.length then text.toList.extract s.start s.stop else []) :
      s.slice? text = some found := by
    rw [(hslice s).1, Option.some.injEq, ← String.toList_inj, (hslice s).2, hlist]
  have h : host.WellFormed :=
    (Session.wellFormed_apply (Document.wellFormed_ofText text) (by decide +kernel)).1
  have htext : host.text = text := by decide +kernel
  have hstop : 5 ≤ host.text.length := by decide +kernel
  have hw : w ∈ host.markup.preorder := by decide +kernel
  have hro : host.coveredText? w.id = some "rö" := by decide +kernel
  -- from here on the host is known by these facts alone
  clear_value host
  obtain ⟨id, -, hhalf, -⟩ := hdivide host.markup 2 ⟨3, []⟩ (htext ▸ h.nests) w hw (by decide)
  obtain ⟨a, ha⟩ : ∃ a, host.insert ⟨"x", ⟨2, 5⟩, {}⟩ [] .inner = .ok a :=
    h.insert_inner (fun _ hc => absurd hc List.not_mem_nil) (by decide) hstop
  obtain ⟨other, left, right, -, hleft, hright, hwhole⟩ :=
    hcut host _ _ a h htext ha w hw (by decide)
  exact ⟨hfound (by decide +kernel), hfound (by decide +kernel), hfound (by decide +kernel),
    habut 1 3 5 (by decide) (by decide) (by decide +kernel), ⟨id, hhalf⟩, h, a, ha, other, left,
    right, hleft, hright, Option.some.inj (hwhole.symm.trans hro)⟩

end Span

end Standoff
