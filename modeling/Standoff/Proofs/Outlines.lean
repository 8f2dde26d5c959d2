import Standoff.Document
import Standoff.Proofs.Rows

/-!
# Outlines tell trees apart

An outline is read from left to right without going back, as long as no name contains the bracket
that opens a span.  Up to the first bracket there is a name, whatever else it is made of; the span
ends at the first parenthesis behind it; and then one letter tells where in the tree the next
name stands:

    a brace that opens    the first child
    a space               the next sibling
    a brace that closes   back to the parent, of which one letter tells the same

* `Span.text_append_inj`: where a span ends.
* `Markup.outlineOnto_inj`: what was written, and what comes after it.
* `Document.outline_eq_iff`: outlines are equal if and only if names, spans and nesting are.
-/

namespace Standoff

/-- A list is cut in one way in front of the first place where a letter stands. -/
theorem cut_at_first {α : Type} {c : α} {xs ys us vs : List α} (hx : c ∉ xs) (hy : c ∉ ys)
    (h : xs ++ c :: us = ys ++ c :: vs) : xs = ys ∧ us = vs := by
  induction xs generalizing ys with
  | nil =>
    cases ys with
    | nil => exact ⟨rfl, (List.cons.inj h).2⟩
    | cons y ys => exact absurd (List.mem_cons.mpr (.inl (List.cons.inj h).1)) hy
  | cons x xs ih =>
    cases ys with
    | nil => exact absurd (List.mem_cons.mpr (.inl (List.cons.inj h).1.symm)) hx
    | cons y ys =>
      obtain ⟨rfl, htail⟩ := List.cons.inj h
      obtain ⟨rfl, hrest⟩ := ih (fun hc => hx (List.mem_cons_of_mem _ hc))
        (fun hc => hy (List.mem_cons_of_mem _ hc)) htail
      exact ⟨rfl, hrest⟩

/-! ## Spans -/

namespace Span

variable {s t : Span} {us vs : List Char}

theorem toList_text (s : Span) : s.text.toList =
    '[' :: (s.start.repr.toList ++ ',' :: (s.stop.repr.toList ++ [')'])) := by
  simp [text]

/-- A number is written in digits. -/
theorem not_mem_repr {c : Char} (hc : c.isDigit = false) (n : Nat) : c ∉ n.repr.toList := by
  intro hmem
  rw [Nat.toList_repr] at hmem
  have hdigit := Nat.isDigit_of_mem_toDigits (by decide) (by decide) hmem
  rw [hc] at hdigit
  cases hdigit

theorem repr_inj {m n : Nat} (h : m.repr.toList = n.repr.toList) : m = n := by
  rw [Nat.toList_repr, Nat.toList_repr] at h
  have hread (k : Nat) : Nat.ofDigitChars 10 (Nat.toDigits 10 k) 0 = k :=
    Nat.ofDigitChars_toDigits (by decide) (by decide)
  rw [← hread m, h, hread n]

/-- The written form of a span tells the span, and where it ends. -/
theorem text_append_inj (h : s.text.toList ++ us = t.text.toList ++ vs) : s = t ∧ us = vs := by
  rw [toList_text, toList_text] at h
  simp only [List.cons_append, List.append_assoc, List.cons.injEq, true_and] at h
  obtain ⟨hstart, hrest⟩ := cut_at_first (not_mem_repr (by decide) _) (not_mem_repr (by decide) _) h
  obtain ⟨hstop, htail⟩ :=
    cut_at_first (not_mem_repr (by decide) _) (not_mem_repr (by decide) _) hrest
  have hspan : s = t := by
    cases s
    cases t
    rw [mk.injEq]
    exact ⟨repr_inj hstart, repr_inj hstop⟩
  exact ⟨hspan, htail⟩

end Span

/-! ## Rows -/

namespace Forest

theorem isNil_map {α β : Type} (f : α → β) (g : Forest α) : (g.map f).isNil = g.isNil := by
  cases g <;> rfl

end Forest

namespace Markup

/-- What an outline shows of an element. -/
def sign (e : Element) : String × Span := (e.name, e.span)

/-- The outline of what is right of a tree. -/
def outlineRight (rest : Forest Element) (tail : List Char) : List Char :=
  if rest.isNil then tail else ' ' :: outlineOnto rest tail

/-- The outline of what is below a tree, in front of what is right of it. -/
def outlineBelow (kids : Forest Element) (right : List Char) : List Char :=
  if kids.isNil then right else '\x7b' :: outlineOnto kids ('\x7d' :: right)

variable {e e' : Element} {f g kids kids' rest rest' : Forest Element}
  {tail tail' : List Char}

theorem outlineOnto_node : outlineOnto (.node e kids rest) tail =
    e.name.toList ++ (e.span.text.toList ++ outlineBelow kids (outlineRight rest tail)) := rfl

/-- Nothing comes after a row but the brace that closes it. -/
def EndsRow (tail : List Char) : Prop := ∀ c, tail.head? = some c → c = '\x7d'

/-- After a row comes its end, so a space tells that there is a sibling. -/
theorem outlineRight_cases (h : EndsRow tail) (rest : Forest Element) :
    (rest = .nil ∧ outlineRight rest tail = tail ∧ tail.head? ≠ some ' ') ∨
      (rest ≠ .nil ∧ outlineRight rest tail = ' ' :: outlineOnto rest tail) := by
  unfold outlineRight
  cases rest with
  | nil =>
    refine .inl ⟨rfl, rfl, ?_⟩
    intro hspace
    exact absurd (h ' ' hspace) (by decide)
  | node e kids rest =>
    refine .inr ⟨?_, rfl⟩
    intro hnil
    cases hnil

/-- To the right of a tree no brace opens, so one that does tells that there is a child. -/
theorem outlineBelow_cases (h : EndsRow tail) (kids rest : Forest Element) :
    (kids = .nil ∧ outlineBelow kids (outlineRight rest tail) = outlineRight rest tail ∧
        (outlineRight rest tail).head? ≠ some '\x7b') ∨
      (kids ≠ .nil ∧ outlineBelow kids (outlineRight rest tail) =
        '\x7b' :: outlineOnto kids ('\x7d' :: outlineRight rest tail)) := by
  unfold outlineBelow
  cases kids with
  | nil =>
    refine .inl ⟨rfl, rfl, ?_⟩
    intro hbrace
    rcases outlineRight_cases h rest with ⟨-, hright, -⟩ | ⟨-, hright⟩
    · rw [hright] at hbrace
      exact absurd (h _ hbrace) (by decide)
    · rw [hright] at hbrace
      exact absurd (Option.some.inj hbrace) (by decide)
  | node e kids right =>
    refine .inr ⟨?_, rfl⟩
    intro hnil
    cases hnil

/-- The names of a forest contain no bracket. -/
def Unbracketed (f : Forest Element) : Prop := ∀ e ∈ f.preorder, '[' ∉ e.name.toList

theorem unbracketed_node (h : Unbracketed (.node e kids rest)) :
    '[' ∉ e.name.toList ∧ Unbracketed kids ∧ Unbracketed rest := by
  simp only [Unbracketed, Forest.preorder_node, List.mem_cons, List.mem_append] at h
  exact ⟨h e (.inl rfl), fun x hx => h x (.inr (.inl hx)), fun x hx => h x (.inr (.inr hx))⟩

/-- A name without a bracket and a span are told by what is written. -/
theorem sign_append_inj {us vs : List Char} (he : '[' ∉ e.name.toList) (he' : '[' ∉ e'.name.toList)
    (h : e.name.toList ++ (e.span.text.toList ++ us) =
      e'.name.toList ++ (e'.span.text.toList ++ vs)) : sign e = sign e' ∧ us = vs := by
  have hbracket (s : Span) (ws : List Char) :
      s.text.toList ++ ws = '[' :: (s.text.toList ++ ws).tail := by
    rw [Span.toList_text]
    rfl
  rw [hbracket e.span, hbracket e'.span] at h
  obtain ⟨hname, htail⟩ := cut_at_first he he' h
  have hspan : e.span.text.toList ++ us = e'.span.text.toList ++ vs := by
    rw [hbracket e.span, htail, ← hbracket]
  obtain ⟨hsame, hrest⟩ := Span.text_append_inj hspan
  exact ⟨Prod.ext (String.toList_inj.mp hname) hsame, hrest⟩

/-- The written form of a row tells what it shows, and where it ends. -/
theorem outlineOnto_inj (hf : Unbracketed f) (hg : Unbracketed g) (hfne : f ≠ .nil)
    (hgne : g ≠ .nil) (ht : EndsRow tail) (ht' : EndsRow tail')
    (h : outlineOnto f tail = outlineOnto g tail') : f.map sign = g.map sign ∧ tail = tail' := by
  induction f generalizing g tail tail' with
  | nil => exact absurd rfl hfne
  | node e kids rest ihk ihr =>
    cases g with
    | nil => exact absurd rfl hgne
    | node e' kids' rest' =>
      obtain ⟨hname, hfk, hfr⟩ := unbracketed_node hf
      obtain ⟨hname', hgk, hgr⟩ := unbracketed_node hg
      rw [outlineOnto_node, outlineOnto_node] at h
      obtain ⟨hsign, hbelow⟩ := sign_append_inj hname hname' h
      -- one letter tells whether there are children
      have hkids : kids.map sign = kids'.map sign ∧
          outlineRight rest tail = outlineRight rest' tail' := by
        have hcloses (right : List Char) : EndsRow ('\x7d' :: right) := by
          intro c hc
          exact (Option.some.inj hc).symm
        rcases outlineBelow_cases ht kids rest with ⟨hk, hout, hhead⟩ | ⟨hk, hout⟩
        · rcases outlineBelow_cases ht' kids' rest' with ⟨hk', hout', -⟩ | ⟨-, hout'⟩
          · rw [hout, hout'] at hbelow
            exact ⟨by rw [hk, hk'], hbelow⟩
          · rw [hout, hout'] at hbelow
            rw [hbelow] at hhead
            exact absurd rfl hhead
        · rcases outlineBelow_cases ht' kids' rest' with ⟨-, hout', hhead'⟩ | ⟨hk', hout'⟩
          · rw [hout, hout'] at hbelow
            rw [← hbelow] at hhead'
            exact absurd rfl hhead'
          · rw [hout, hout'] at hbelow
            obtain ⟨hmap, hright⟩ := ihk hfk hgk hk hk' (hcloses _) (hcloses _)
              (List.cons.inj hbelow).2
            exact ⟨hmap, (List.cons.inj hright).2⟩
      -- and one whether there are siblings
      have hrest : rest.map sign = rest'.map sign ∧ tail = tail' := by
        obtain ⟨-, hright⟩ := hkids
        rcases outlineRight_cases ht rest with ⟨hr, hout, hhead⟩ | ⟨hr, hout⟩
        · rcases outlineRight_cases ht' rest' with ⟨hr', hout', -⟩ | ⟨-, hout'⟩
          · rw [hout, hout'] at hright
            exact ⟨by rw [hr, hr'], hright⟩
          · rw [hout, hout'] at hright
            rw [hright] at hhead
            exact absurd rfl hhead
        · rcases outlineRight_cases ht' rest' with ⟨-, hout', hhead'⟩ | ⟨hr', hout'⟩
          · rw [hout, hout'] at hright
            rw [← hright] at hhead'
            exact absurd rfl hhead'
          · rw [hout, hout'] at hright
            exact ihr hfr hgr hr hr' ht ht' (List.cons.inj hright).2
      refine ⟨?_, hrest.2⟩
      rw [Forest.map_node, Forest.map_node, hsign, hkids.1, hrest.1]

/-- Whatever there is to show has a span. -/
theorem outlineOnto_eq_nil_iff : outlineOnto f [] = [] ↔ f = .nil := by
  cases f with
  | nil => exact iff_of_true rfl rfl
  | node e kids rest =>
    refine iff_of_false ?_ (by intro h; cases h)
    intro h
    rw [outlineOnto_node, Span.toList_text] at h
    simp at h

/-- An outline shows nothing but names, spans and nesting. -/
theorem outlineOnto_congr (h : f.map sign = g.map sign) (tail : List Char) :
    outlineOnto f tail = outlineOnto g tail := by
  induction f generalizing g tail with
  | nil =>
    cases g with
    | nil => rfl
    | node e' kids' rest' => cases h
  | node e kids rest ihk ihr =>
    cases g with
    | nil => cases h
    | node e' kids' rest' =>
      obtain ⟨hsign, hkids, hrest⟩ := Forest.node.inj h
      obtain ⟨hname, hspan⟩ := Prod.mk.inj hsign
      have hk : kids.isNil = kids'.isNil := by
        rw [← Forest.isNil_map sign, hkids, Forest.isNil_map]
      have hr : rest.isNil = rest'.isNil := by
        rw [← Forest.isNil_map sign, hrest, Forest.isNil_map]
      have hright : outlineRight rest tail = outlineRight rest' tail := by
        rw [outlineRight, outlineRight, hr, ihr hrest]
      rw [outlineOnto_node, outlineOnto_node, hname, hspan, hright, outlineBelow, outlineBelow, hk,
        ihk hkids]

end Markup

namespace Document

open Markup

/-- Two outlines are equal if and only if the trees are: in their shapes, the order of children,
the names and the spans.  Names may hold anything but the bracket that opens a span. -/
theorem outline_eq_iff {d e : Document} (hd : ∀ n ∈ d.markup.preorder, '[' ∉ n.name.toList)
    (he : ∀ n ∈ e.markup.preorder, '[' ∉ n.name.toList) :
    d.outline = e.outline ↔
      d.markup.map (fun n => (n.name, n.span)) = e.markup.map (fun n => (n.name, n.span)) := by
  have hsigns (m : Markup) : m.elements.map sign = m.map (fun n => (n.name, n.span)) :=
    Forest.map_map ..
  have hplain {m : Markup} (hm : ∀ n ∈ m.preorder, '[' ∉ n.name.toList) :
      Unbracketed m.elements := by
    intro x hx
    rw [elements, Forest.preorder_map] at hx
    obtain ⟨n, hn, rfl⟩ := List.mem_map.mp hx
    exact hm n hn
  rw [← hsigns, ← hsigns]
  constructor
  · intro h
    have hout : outlineOnto d.markup.elements [] = outlineOnto e.markup.elements [] :=
      String.ofList_inj.mp h
    by_cases hnil : d.markup.elements = .nil
    · rw [outlineOnto_eq_nil_iff.mpr hnil, eq_comm, outlineOnto_eq_nil_iff] at hout
      rw [hnil, hout]
    · have hnil' : e.markup.elements ≠ .nil := by
        intro hempty
        rw [outlineOnto_eq_nil_iff.mpr hempty, outlineOnto_eq_nil_iff] at hout
        exact hnil hout
      have hend : EndsRow [] := by
        intro c hc
        cases hc
      exact (outlineOnto_inj (hplain hd) (hplain he) hnil hnil' hend hend hout).1
  · intro h
    rw [outline, outline, Markup.outline, Markup.outline, outlineOnto_congr h]

/-- Names that look like the marks of an outline, on a child and on a sibling; and the child under
another number and with an attribute. -/
theorem outline_eq_iff_marks :
    let doc (m : Markup) : Document := { text := "abc", markup := m, names := {}, next := 9 }
    let under : Markup :=
      .node ⟨⟨"", ⟨0, 2⟩, {}⟩, 1⟩ (.node ⟨⟨"\x7d 1) ", ⟨0, 1⟩, {}⟩, 2⟩ .nil .nil) .nil
    let beside : Markup :=
      .node ⟨⟨"", ⟨0, 2⟩, {}⟩, 1⟩ .nil (.node ⟨⟨"\x7d 1) ", ⟨0, 1⟩, {}⟩, 2⟩ .nil .nil)
    let marked : Markup :=
      .node ⟨⟨"", ⟨0, 2⟩, {}⟩, 8⟩
        (.node ⟨⟨"\x7d 1) ", ⟨0, 1⟩, .setAll [("k", "v")] {}⟩, 3⟩ .nil .nil) .nil
    (∀ m ∈ [under, beside, marked], ∀ n ∈ (doc m).markup.preorder, '[' ∉ n.name.toList) ∧
      (doc under).outline ≠ (doc beside).outline ∧ (doc under).outline = (doc marked).outline := by
  intro doc under beside marked
  have hplain : ∀ m ∈ [under, beside, marked], ∀ n ∈ (doc m).markup.preorder,
      '[' ∉ n.name.toList := by
    decide +kernel
  have hunder := hplain under (by simp)
  refine ⟨hplain, ?_, (outline_eq_iff hunder (hplain marked (by simp))).mpr rfl⟩
  intro h
  exact absurd ((outline_eq_iff hunder (hplain beside (by simp))).mp h) (by decide +kernel)

/-- A name with a bracket passes for two elements. -/
example : Markup.outline (.node ⟨⟨"a[0,1) b", ⟨0, 2⟩, {}⟩, 1⟩ .nil .nil) =
    Markup.outline
      (.node ⟨⟨"a", ⟨0, 1⟩, {}⟩, 1⟩ .nil (.node ⟨⟨"b", ⟨0, 2⟩, {}⟩, 2⟩ .nil .nil)) := by
  decide +kernel

end Document

end Standoff
