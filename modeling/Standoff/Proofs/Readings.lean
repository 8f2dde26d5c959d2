import Mathlib.Data.List.Induction
import Standoff.Proofs.Phrases
import Standoff.Proofs.Strategies

/-! # The elements that a phrase stands for

A phrase read from some position of the text stands for a forest: one element for every
nonterminal, over the characters between the positions of its two events, with the attributes
that were committed in it.  A builder that gets the stream of the phrase makes just this forest
in a text without mark-up.

* `Phrase.width`: how far a phrase moves the cursor.
* `Phrase.commits`, `Phrase.settled`: attributes in the order in which they end.
* `Phrase.forest`: the elements.
* `Builder.complete_phrase`: what a complete run over the stream of a phrase leaves. -/

namespace Standoff

/-! ## First occurrences -/

namespace Attributes

/-- The first occurrences after one more key. -/
theorem eraseDups_concat (keys : List String) (key : String) :
    (keys ++ [key]).eraseDups =
      if key ∈ keys.eraseDups then keys.eraseDups else keys.eraseDups ++ [key] := by
  rw [List.eraseDups_append]
  by_cases h : key ∈ keys
  · rw [if_pos (List.mem_eraseDups.mpr h)]
    simp [List.removeAll, h]
  · rw [if_neg fun h' => h (List.mem_eraseDups.mp h')]
    simp [List.removeAll, h, List.eraseDups_cons]

theorem nodup_eraseDups (keys : List String) : keys.eraseDups.Nodup := by
  induction keys using List.reverseRecOn with
  | nil => exact List.nodup_nil
  | append_singleton keys key ih =>
    rw [eraseDups_concat]
    split
    · exact ih
    · next h =>
      exact List.nodup_append.mpr ⟨ih, List.nodup_singleton key, fun x hx y hy hxy =>
        h (List.mem_singleton.mp hy ▸ hxy ▸ hx)⟩

end Attributes

/-! ## Reading a phrase -/

namespace Phrase

/-- How far a phrase moves the cursor; `scope` is the innermost open attribute. -/
def width (rule : AttributeCursor) (scope : Option String) : Phrase → Nat
  | nil => 0
  | terminal _ rest => (if scope.all rule.advances then 1 else 0) + rest.width rule scope
  | excluded length rest => length + rest.width rule scope
  | nonterminal _ content rest => content.width rule none + rest.width rule scope
  | attr name content rest => content.width rule (some name) + rest.width rule scope

/-- The characters of a row that are not in attributes of their own. -/
def value : Phrase → List Char
  | nil => []
  | terminal codepoint rest => Char.ofNat codepoint :: rest.value
  | excluded _ rest => rest.value
  | nonterminal _ _ rest => rest.value
  | attr _ _ rest => rest.value

/-- The attributes of a row, apart from those in its nonterminals, in the order in which they
end. -/
def commits : Phrase → List (String × String)
  | nil => []
  | terminal _ rest => rest.commits
  | excluded _ rest => rest.commits
  | nonterminal _ _ rest => rest.commits
  | attr name content rest =>
    content.commits ++ (name, String.ofList content.value) :: rest.commits

/-- Every name once, in the order of the first commits, with the value of the last one. -/
def settled (cs : List (String × String)) : Attributes where
  pairs := (cs.map (·.1)).eraseDups.map fun key => (key, (cs.reverse.lookup key).getD "")
  distinct := by
    rw [List.map_map]
    exact (List.map_id _).symm ▸ Attributes.nodup_eraseDups _

/-- The elements of the nonterminals of a row that is read from `pos` on. -/
def forest (rule : AttributeCursor) (pos : Nat) : Phrase → Forest Element
  | nil => .nil
  | terminal _ rest => rest.forest rule (pos + 1)
  | excluded length rest => rest.forest rule (pos + length)
  | nonterminal name content rest =>
    .node ⟨name, ⟨pos, pos + content.width rule none⟩, settled content.commits⟩
      (content.forest rule pos) (rest.forest rule (pos + content.width rule none))
  | attr name content rest => rest.forest rule (pos + content.width rule (some name))

end Phrase

/-! ## Attributes one after another -/

namespace Attributes

/-- A value is put among others whose names are distinct. -/
theorem put_map (key value : String) (f : String → String) {keys : List String}
    (h : keys.Nodup) :
    put key value (keys.map fun k => (k, f k)) =
      (if key ∈ keys then keys else keys ++ [key]).map fun k =>
        (k, if k = key then value else f k) := by
  induction keys with
  | nil => simp [put]
  | cons k keys ih =>
    obtain ⟨hk, hkeys⟩ := List.nodup_cons.mp h
    rw [List.map_cons, put]
    by_cases heq : k = key
    · subst heq
      rw [if_pos rfl, if_pos List.mem_cons_self, List.map_cons, if_pos rfl]
      refine congrArg _ (List.map_congr_left fun x hx => ?_)
      rw [if_neg fun hxk : x = k => hk (hxk ▸ hx)]
    · have hmem : key ∈ k :: keys ↔ key ∈ keys := by
        rw [List.mem_cons]
        exact or_iff_right fun hkey => heq hkey.symm
      rw [if_neg heq, ih hkeys, if_congr hmem rfl rfl]
      by_cases hin : key ∈ keys
      · rw [if_pos hin, if_pos hin, List.map_cons, if_neg heq]
      · rw [if_neg hin, if_neg hin, List.cons_append, List.map_cons, if_neg heq]

/-- Attributes set one after another are settled. -/
theorem setAll_nil (cs : List (String × String)) : setAll cs {} = Phrase.settled cs := by
  induction cs using List.reverseRecOn with
  | nil => rfl
  | append_singleton cs c ih =>
    rw [setAll_append, ih]
    refine Attributes.ext ?_
    show put c.1 c.2 (Phrase.settled cs).pairs =
      ((cs ++ [c]).map (·.1)).eraseDups.map fun key =>
        (key, ((cs ++ [c]).reverse.lookup key).getD "")
    rw [List.map_append, List.map_cons, List.map_nil, eraseDups_concat]
    refine (put_map c.1 c.2 _ (nodup_eraseDups _)).trans (List.map_congr_left fun key _ => ?_)
    rw [List.reverse_append, List.reverse_singleton, List.singleton_append, List.lookup_cons]
    by_cases h : key = c.1
    · rw [if_pos h, beq_iff_eq.mpr h]
      rfl
    · rw [if_neg h, beq_eq_false_iff_ne.mpr h]

end Attributes

/-! ## Drafts that read a phrase -/

/-- The frame with attributes committed one after another. -/
def Frame.commit (f : Frame) (cs : List (String × String)) : Frame :=
  { f with element := { f.element with attributes := f.element.attributes.setAll cs } }

namespace Frame

theorem commit_append (f : Frame) (cs ds : List (String × String)) :
    f.commit (cs ++ ds) = (f.commit cs).commit ds := by
  rw [commit, Attributes.setAll_append]
  rfl

/-- The frame of a nonterminal that starts at `pos`. -/
def opened (name : String) (pos : Nat) : Frame := ⟨⟨name, .emptyAt pos, {}⟩, .nil⟩

/-- The frame after a row inside it that is read from `pos` on. -/
def read (rule : AttributeCursor) (pos : Nat) (ph : Phrase) (f : Frame) : Frame :=
  ({ f with kids := f.kids ++ ph.forest rule pos } : Frame).commit ph.commits

/-- The tree of a nonterminal that closes is an element of the forest. -/
theorem tree_read (rule : AttributeCursor) (pos stop : Nat) (name : String) (ph : Phrase) :
    (((opened name pos).read rule pos ph).endAt stop).tree =
      .node ⟨name, ⟨pos, stop⟩, Phrase.settled ph.commits⟩ (ph.forest rule pos) .nil := by
  rw [← Attributes.setAll_nil]
  rfl

end Frame

namespace Draft

open Phrase

variable {rule : AttributeCursor} {f : Frame} {outer : List Frame} {s : AttributeScope}
  {scopes : List AttributeScope} {pos : Nat} {roots : Forest Element} {ph : Phrase}

/-- A terminal is read where the cursor may move as far as it does. -/
theorem step?_terminal {d : Draft} {codepoint : Nat} (hchar : Text.isXmlChar codepoint = true)
    (hle : d.cursor + (if d.advances rule then 1 else 0) ≤ maxCursor) :
    d.step? rule (.terminal codepoint) =
      some (({ d with cursor := d.cursor + (if d.advances rule then 1 else 0) } : Draft).pushChar
        (Char.ofNat codepoint)) := by
  rw [step?, move?, Text.contentChar?, if_pos hchar, Option.bind_some]
  split
  · next hadv =>
    rw [if_pos hadv] at hle
    rw [advanced?, if_pos hle]
    rfl
  · rfl

theorem step?_excluded {d : Draft} {length : Nat} (hle : d.cursor + length ≤ maxCursor) :
    d.step? rule (.excluded length) = some { d with cursor := d.cursor + length } := by
  rw [step?, move?, advanced?, if_pos hle]
  rfl

theorem step?_start {fs : List Frame} {name : String} (hname : name ≠ "") :
    step? rule ⟨fs, [], pos, roots⟩ (.startNonterminal name) =
      some ⟨.opened name pos :: fs, [], pos, roots⟩ := by
  rw [step?, move?, if_neg hname]
  rfl

/-- A nonterminal that was read closes and takes its place. -/
theorem step?_end {fs : List Frame} {name : String} {start : Nat} {ph : Phrase} :
    step? rule ⟨(Frame.opened name start).read rule start ph :: fs, [], pos, roots⟩
        (.endNonterminal name) =
      some ((⟨fs, [], pos, roots⟩ : Draft).attach
        (((Frame.opened name start).read rule start ph).endAt pos)) := by
  rw [step?, move?]
  exact congrArg (Option.map settle) (if_pos rfl)

/-- An attribute that was read closes. -/
theorem step?_endAttribute {name value : String} :
    step? rule ⟨f :: outer, ⟨name, value⟩ :: scopes, pos, roots⟩ .endAttribute =
      some ⟨f.commit [(name, value)] :: outer, scopes, pos, roots⟩ := rfl

/-- A row inside an attribute adds to its value and commits what it holds. -/
theorem run?_inAttribute (hph : ph.Valid .inAttribute)
    (hle : pos + ph.width rule (some s.name) ≤ maxCursor) :
    run? rule ⟨f :: outer, s :: scopes, pos, roots⟩ ph.events =
      some ⟨f.commit ph.commits :: outer,
        ⟨s.name, s.value ++ String.ofList ph.value⟩ :: scopes,
        pos + ph.width rule (some s.name), roots⟩ := by
  induction ph generalizing f s scopes pos with
  | nil =>
    rw [value, String.ofList_nil, String.append_empty]
    rfl
  | terminal codepoint rest ih =>
    rw [width, ← Nat.add_assoc] at hle
    have hstep : step? rule ⟨f :: outer, s :: scopes, pos, roots⟩ (.terminal codepoint) =
        some ⟨f :: outer, ⟨s.name, s.value.push (Char.ofNat codepoint)⟩ :: scopes,
          pos + (if rule.advances s.name then 1 else 0), roots⟩ :=
      step?_terminal hph.1 (Nat.le_trans (Nat.le_add_right _ _) hle)
    have hvalue : s.value.push (Char.ofNat codepoint) ++ String.ofList rest.value =
        s.value ++ String.ofList (Char.ofNat codepoint :: rest.value) := by
      apply String.ext
      simp
    have hrest : run? rule ⟨f :: outer, ⟨s.name, s.value.push (Char.ofNat codepoint)⟩ :: scopes,
        pos + (if rule.advances s.name then 1 else 0), roots⟩ rest.events = some _ :=
      ih (s := ⟨s.name, s.value.push (Char.ofNat codepoint)⟩) hph.2 hle
    rw [Phrase.events, run?_cons hstep, hrest, hvalue, width, ← Nat.add_assoc]
    rfl
  | excluded length rest ih =>
    rw [width, ← Nat.add_assoc] at hle
    rw [Phrase.events, run?_cons (step?_excluded (Nat.le_trans (Nat.le_add_right _ _) hle))]
    refine (ih hph hle).trans ?_
    rw [width, ← Nat.add_assoc]
    rfl
  | nonterminal name content rest _ _ => exact absurd rfl hph.1
  | attr name content rest ihc ihr =>
    obtain ⟨-, hcontent, hrest⟩ := hph
    rw [width, ← Nat.add_assoc] at hle
    have hstart : step? rule ⟨f :: outer, s :: scopes, pos, roots⟩ (.startAttribute name) =
        some ⟨f :: outer, ⟨name, ""⟩ :: s :: scopes, pos, roots⟩ := rfl
    have hinner : run? rule ⟨f :: outer, ⟨name, ""⟩ :: s :: scopes, pos, roots⟩ content.events =
        some _ := ihc (s := ⟨name, ""⟩) hcontent (Nat.le_trans (Nat.le_add_right _ _) hle)
    rw [Phrase.events, run?_cons hstart, run?_append, hinner, Option.bind_some, String.empty_append]
    rw [run?_cons step?_endAttribute]
    refine (ihr hrest hle).trans ?_
    rw [commits, List.append_cons, Frame.commit_append, Frame.commit_append, width, ← Nat.add_assoc]
    rfl

/-- A row inside a nonterminal adds its elements to the children and commits its attributes. -/
theorem run?_inNode (hph : ph.Valid .inNode) (hle : pos + ph.width rule none ≤ maxCursor) :
    run? rule ⟨f :: outer, [], pos, roots⟩ ph.events =
      some ⟨f.read rule pos ph :: outer, [], pos + ph.width rule none, roots⟩ := by
  induction ph generalizing f outer pos with
  | nil =>
    rw [Frame.read, forest, Forest.append_nil]
    rfl
  | terminal codepoint rest ih =>
    rw [width, ← Nat.add_assoc] at hle
    have hstep : step? rule ⟨f :: outer, [], pos, roots⟩ (.terminal codepoint) =
        some ⟨f :: outer, [], pos + 1, roots⟩ :=
      step?_terminal hph.1 (Nat.le_trans (Nat.le_add_right _ _) hle)
    have hrest : run? rule ⟨f :: outer, [], pos + 1, roots⟩ rest.events = some _ := ih hph.2 hle
    rw [Phrase.events, run?_cons hstep, hrest, width, ← Nat.add_assoc]
    rfl
  | excluded length rest ih =>
    rw [width, ← Nat.add_assoc] at hle
    rw [Phrase.events, run?_cons (step?_excluded (Nat.le_trans (Nat.le_add_right _ _) hle))]
    refine (ih hph hle).trans ?_
    rw [width, ← Nat.add_assoc]
    rfl
  | nonterminal name content rest ihc ihr =>
    obtain ⟨-, hname, hcontent, hrest⟩ := hph
    rw [width, ← Nat.add_assoc] at hle
    have hinner : run? rule ⟨.opened name pos :: f :: outer, [], pos, roots⟩ content.events =
        some _ := ihc hcontent (Nat.le_trans (Nat.le_add_right _ _) hle)
    rw [Phrase.events, run?_cons (step?_start hname), run?_append, hinner, Option.bind_some,
      run?_cons step?_end, attach, Frame.tree_read]
    refine (ihr hrest hle).trans ?_
    rw [Frame.read, Forest.append_assoc, width, ← Nat.add_assoc]
    rfl
  | attr name content rest _ ih =>
    obtain ⟨-, hcontent, hrest⟩ := hph
    rw [width, ← Nat.add_assoc] at hle
    have hstart : step? rule ⟨f :: outer, [], pos, roots⟩ (.startAttribute name) =
        some ⟨f :: outer, [⟨name, ""⟩], pos, roots⟩ := rfl
    have hinner : run? rule ⟨f :: outer, [⟨name, ""⟩], pos, roots⟩ content.events = some _ :=
      run?_inAttribute (s := ⟨name, ""⟩) hcontent (Nat.le_trans (Nat.le_add_right _ _) hle)
    rw [Phrase.events, run?_cons hstart, run?_append, hinner, Option.bind_some,
      String.empty_append, run?_cons step?_endAttribute]
    refine (ih hrest hle).trans ?_
    rw [Frame.read, Frame.read, commits, List.append_cons, Frame.commit_append,
      Frame.commit_append, width, ← Nat.add_assoc]
    rfl

/-- A row outside every nonterminal adds its elements to the roots. -/
theorem run?_outside (hph : ph.Valid .outside) (hle : pos + ph.width rule none ≤ maxCursor) :
    run? rule ⟨[], [], pos, roots⟩ ph.events =
      some ⟨[], [], pos + ph.width rule none, roots ++ ph.forest rule pos⟩ := by
  induction ph generalizing pos roots with
  | nil =>
    rw [forest, Forest.append_nil]
    rfl
  | terminal codepoint rest ih =>
    rw [width, ← Nat.add_assoc] at hle
    have hstep : step? rule ⟨[], [], pos, roots⟩ (.terminal codepoint) =
        some ⟨[], [], pos + 1, roots⟩ :=
      step?_terminal hph.1 (Nat.le_trans (Nat.le_add_right _ _) hle)
    have hrest : run? rule ⟨[], [], pos + 1, roots⟩ rest.events = some _ := ih hph.2 hle
    rw [Phrase.events, run?_cons hstep, hrest, width, ← Nat.add_assoc]
    rfl
  | excluded length rest ih =>
    rw [width, ← Nat.add_assoc] at hle
    rw [Phrase.events, run?_cons (step?_excluded (Nat.le_trans (Nat.le_add_right _ _) hle))]
    refine (ih hph hle).trans ?_
    rw [width, ← Nat.add_assoc]
    rfl
  | nonterminal name content rest _ ih =>
    obtain ⟨-, hname, hcontent, hrest⟩ := hph
    rw [width, ← Nat.add_assoc] at hle
    rw [Phrase.events, run?_cons (step?_start hname), run?_append,
      run?_inNode hcontent (Nat.le_trans (Nat.le_add_right _ _) hle), Option.bind_some,
      run?_cons step?_end, attach, Frame.tree_read]
    refine (ih hrest hle).trans ?_
    rw [Forest.append_assoc, width, ← Nat.add_assoc]
    rfl
  | attr name content rest _ _ => exact absurd rfl hph.1

theorem Nested.run {d d' : Draft} {es : List Event} (h : d.Nested)
    (hrun : d.run? rule es = some d') : d'.Nested := by
  induction es generalizing d with
  | nil =>
    cases hrun
    exact h
  | cons e es ih =>
    obtain ⟨d₁, hstep, hrest⟩ := Option.bind_eq_some_iff.mp hrun
    exact ih (h.step hstep) hrest

end Draft

/-! ## Builders that read a phrase -/

namespace Builder

open Markup

theorem elements_blank (es : Forest Element) : (blank es).elements = es := by
  rw [elements, blank, Forest.map_map]
  induction es with
  | nil => rfl
  | node e kids rest ihk ihr => rw [Forest.map_node, ihk, ihr]

variable {options : Options} {text : String} {doc : Document} {report : BuildReport} {d : Draft}

/-- What is left of a text without mark-up are the roots. -/
theorem Completed.elements_of_text (h : Completed (Document.ofText text) d report doc)
    (hnested : d.Nested) : doc.markup.elements = d.roots := by
  have hnests : Nests 0 d.cursor (blank d.roots) := by
    rw [Draft.Nested, h.closed.1] at hnested
    exact hnested
  have helements := h.elements
  rwa [Document.ofText, renumber_nil, graft_into_nil hnests, elements_blank] at helements

/-- Into a text without mark-up nothing need be cut. -/
theorem Completed.next_of_text (h : Completed (Document.ofText text) d report doc)
    (hnested : d.Nested) : doc.next = (Document.ofText text).next + report.merged := by
  have hcount := h.wellFormed.elementCount_eq
  rw [Document.elementCount, ← Forest.size_map (·.toElement)] at hcount
  have hsize : doc.markup.elements.size = report.merged := by
    rw [h.elements_of_text hnested, h.report]
    rfl
  have hpos := h.wellFormed.pos
  show doc.next = 1 + report.merged
  rw [← hsize]
  show doc.next = 1 + (doc.markup.map (·.toElement)).size
  simp only [NodeId] at *
  omega

/-- Into a text without mark-up a closed draft is completed whatever the balancing. -/
theorem complete_of_text {events : List Event}
    (hrun : Draft.run? options.attributeCursor {} events = some d) (hclosed : d.Closed)
    (hfits : d.Fits text.length) :
    ∃ doc, (start (Document.ofText text) options).complete events = .ok (d.report, doc) ∧
      doc.text = text ∧ doc.markup.elements = d.roots := by
  have htext := Document.wellFormed_ofText text
  have hnested := Draft.nested_empty.run hrun
  obtain ⟨report, doc, hok⟩ :=
    complete_inner htext (rfl : ({ options with balancing := .inner } : Options).balancing = _) hrun
      hclosed hfits
  obtain ⟨d', hrun', hdone⟩ := complete_ok htext hok
  obtain rfl : d = d' := Option.some.inj (hrun.symm.trans hrun')
  refine ⟨doc, ?_, hdone.text, hdone.elements_of_text hnested⟩
  rw [← hdone.report]
  cases hb : options.balancing with
  | inner =>
    rw [← hb] at hok
    exact hok
  | strict => exact (complete_strict_iff htext hb).mpr ⟨hok, hdone.next_of_text hnested⟩

/-- A complete run over the stream of a phrase succeeds in every text without mark-up that is long
enough, and what it leaves is the forest of the phrase.  (No text has more characters than the
cursor can count.) -/
theorem complete_phrase (ph : Phrase) (hph : ph.Valid .outside) (options : Options) (text : String)
    (hword : text.length ≤ maxCursor)
    (hlong : ph.width options.attributeCursor none ≤ text.length) :
    ∃ doc, (start (Document.ofText text) options).complete ph.events =
        .ok (⟨ph.width options.attributeCursor none,
          (ph.forest options.attributeCursor 0).labels.length,
          (ph.forest options.attributeCursor 0).size⟩, doc) ∧
      doc.text = text ∧ doc.markup.elements = ph.forest options.attributeCursor 0 := by
  have hrun : Draft.run? options.attributeCursor {} ph.events =
      some ⟨[], [], ph.width options.attributeCursor none,
        ph.forest options.attributeCursor 0⟩ := by
    have hread : Draft.run? options.attributeCursor ⟨[], [], 0, .nil⟩ ph.events = some _ :=
      Draft.run?_outside hph (by rw [Nat.zero_add]; exact Nat.le_trans hlong hword)
    rwa [Nat.zero_add] at hread
  have hnests : Nests 0 _ (blank (ph.forest options.attributeCursor 0)) :=
    Draft.nested_empty.run hrun
  refine complete_of_text hrun ⟨rfl, rfl⟩ ⟨fun hne => absurd rfl hne, fun e he => ?_⟩
  have hmem : (⟨e, 0⟩ : Node) ∈ (blank (ph.forest options.attributeCursor 0)).preorder := by
    refine Forest.labels_subset_preorder ?_
    rw [blank, Forest.labels_map]
    exact List.mem_map_of_mem he
  exact Nat.le_trans (hnests.bounds hmem).2.2 hlong

/-- Attributes in one another that share their terminals, one of them committed twice, an element
with the span of its parent, and two elements without characters at one offset. -/
theorem complete_phrase_nested :
    let ph : Phrase := .nonterminal "p"
      (.attr "a" (.terminal 120 (.attr "b" (.terminal 121 .nil) (.terminal 122 .nil)))
        (.nonterminal "q" (.terminal 120 (.excluded 2 .nil))
          (.nonterminal "m" .nil (.nonterminal "m" .nil (.attr "a" (.terminal 119 .nil) .nil))))) .nil
    ph.Valid .outside ∧ "abcd".length ≤ maxCursor ∧ ph.width .hold none ≤ "abcd".length ∧
      ph.forest .hold 0 = .node ⟨"p", ⟨0, 3⟩, .setAll [("b", "y"), ("a", "w")] {}⟩
        (.node ⟨"q", ⟨0, 3⟩, {}⟩ .nil
          (.node ⟨"m", ⟨3, 3⟩, {}⟩ .nil (.node ⟨"m", ⟨3, 3⟩, {}⟩ .nil .nil))) .nil ∧
      ∀ merge, ∃ doc, (start (Document.ofText "abcd") { merge }).complete ph.events =
          .ok (⟨3, 1, 4⟩, doc) ∧
        doc.text = "abcd" ∧ doc.markup.elements = ph.forest .hold 0 := by
  intro ph
  have hph : ph.Valid .outside := by decide
  have hlong : ph.width .hold none ≤ "abcd".length := by decide
  exact ⟨hph, by decide, hlong, by decide, fun merge =>
    complete_phrase ph hph { merge } "abcd" (by decide) hlong⟩

end Builder

end Standoff
