import Mathlib.Data.List.Sort
import Standoff.Proofs.Bytes
import Standoff.Trace

/-!
# Lines out of text in any pieces

A writer looks for the bytes that end lines and cuts each piece there, so what it gives out and
what it holds have to be told from bytes; but an end of line is a character of one byte, and no
other character has that byte in it, so the cuts are those of the text itself.  With `parts` for a
text split at its ends of line,

    parts (text so far) = lines given out so far ++ [what is pending]

and this is kept by every piece, whatever it holds.

* `Text.Finds`: what a search for a byte answers; `Text.search_eq` turns bytes into characters.
* `LineWriter.Holds`: what a writer has given out and what it holds.
* `LineWriter.writeFrom?_holds`, `LineWriter.Holds.write`: one piece.
* `LineWriter.Holds.writeAll`: pieces one after another.
* `LineWriter.lines_of_pieces`: what a writer gives out before its end, and at its end.
-/

namespace Standoff

namespace Text

open String (utf8Len utf8EncodeChar)

/-! ## Bytes that end lines -/

/-- The search answers with all positions of a byte, in ascending order. -/
def Finds (search : UInt8 → ByteArray → List Nat) : Prop :=
  ∀ b bytes, (search b bytes).Pairwise (· < ·) ∧ ∀ i, i ∈ search b bytes ↔ bytes[i]? = some b

theorem finds_occurrences : Finds occurrences := by
  intro b bytes
  refine ⟨List.pairwise_lt_range.filter _, ?_⟩
  intro i
  rw [occurrences, List.mem_filter, List.mem_range, beq_iff_eq]
  constructor
  · exact And.right
  · intro h
    refine ⟨?_, h⟩
    by_contra hi
    rw [getElem?_neg bytes i hi] at h
    cases h

/-- A byte of less than 128 stands for the character of its number. -/
theorem toNat_of_byte {b : UInt8} {c : Char} (h : b ∈ utf8EncodeChar c) (hb : b.toNat < 128) :
    c.toNat = b.toNat := by
  have hbyte {n : Nat} (hn : b = UInt8.ofNat n) : b.toNat = n % 256 := by
    rw [hn]
    rfl
  rw [utf8EncodeChar] at h
  split at h
  · rw [List.mem_singleton] at h
    have := hbyte h
    show c.val.toNat = b.toNat
    omega
  -- the bytes of wider characters start at 128
  · exfalso
    split at h
    · simp only [List.mem_cons, List.not_mem_nil, or_false] at h
      rcases h with h | h <;> have := hbyte h <;> omega
    · split at h
      · simp only [List.mem_cons, List.not_mem_nil, or_false] at h
        rcases h with h | h | h <;> have := hbyte h <;> omega
      · simp only [List.mem_cons, List.not_mem_nil, or_false] at h
        rcases h with h | h | h | h <;> have := hbyte h <;> omega

theorem endOfLine_mem_iff {c : Char} : LineWriter.endOfLine ∈ utf8EncodeChar c ↔ c = '\n' := by
  constructor
  · intro h
    exact Char.toNat_inj.mp (toNat_of_byte h (by decide))
  · rintro rfl
    decide

/-- The bytes at which lines end in a text that starts at byte `start`. -/
def breaks (start : Nat) : List Char → List Nat
  | [] => []
  | c :: cs =>
    if c = '\n' then start :: breaks (start + c.utf8Size) cs else breaks (start + c.utf8Size) cs

theorem le_of_mem_breaks {start i : Nat} {cs : List Char} (h : i ∈ breaks start cs) :
    start ≤ i := by
  induction cs generalizing start with
  | nil => cases h
  | cons c cs ih =>
    rw [breaks] at h
    split at h
    · rcases List.mem_cons.mp h with rfl | h
      · exact Nat.le_refl i
      · exact Nat.le_of_add_right_le (ih h)
    · exact Nat.le_of_add_right_le (ih h)

theorem pairwise_breaks (start : Nat) (cs : List Char) :
    (breaks start cs).Pairwise (· < ·) := by
  induction cs generalizing start with
  | nil => exact .nil
  | cons c cs ih =>
    rw [breaks]
    split
    · refine List.pairwise_cons.mpr ⟨?_, ih _⟩
      intro i hi
      have hle := le_of_mem_breaks hi
      have hpos := c.utf8Size_pos
      omega
    · exact ih _

/-- Breaks are where the bytes of the text have the one that ends lines. -/
theorem mem_breaks {start i : Nat} {cs : List Char} : start + i ∈ breaks start cs ↔
    (cs.flatMap utf8EncodeChar)[i]? = some LineWriter.endOfLine := by
  induction cs generalizing start i with
  | nil => simp [breaks]
  | cons c cs ih =>
    rw [breaks, List.flatMap_cons]
    by_cases hc : c = '\n'
    · subst hc
      have hbyte : utf8EncodeChar '\n' = [LineWriter.endOfLine] := by decide
      have hwidth : '\n'.utf8Size = 1 := rfl
      rw [if_pos rfl, hbyte, hwidth]
      cases i with
      | zero => simp
      | succ i =>
        have hplace : start + (i + 1) = start + 1 + i := by omega
        have hne : ¬ start + 1 + i = start := by omega
        rw [hplace, List.mem_cons, ih, List.singleton_append, List.getElem?_cons_succ]
        exact or_iff_right hne
    · rw [if_neg hc, List.getElem?_append, String.length_utf8EncodeChar]
      by_cases hi : i < c.utf8Size
      -- a wider character has no such byte
      · rw [if_pos hi]
        refine iff_of_false ?_ ?_
        · intro h
          have := le_of_mem_breaks h
          omega
        · intro h
          exact hc (endOfLine_mem_iff.mp (List.mem_of_getElem? h))
      · have hplace : start + i = start + c.utf8Size + (i - c.utf8Size) := by omega
        rw [if_neg hi, hplace, ih]

theorem getElem?_toUTF8 (s : String) (i : Nat) :
    s.toUTF8[i]? = (s.toList.flatMap utf8EncodeChar)[i]? := by
  have hbytes : s.toUTF8 = (s.toList.flatMap utf8EncodeChar).toByteArray :=
    String.utf8Encode_toList.symm
  rw [hbytes]
  by_cases hi : i < (s.toList.flatMap utf8EncodeChar).length
  · rw [getElem?_pos _ i (by rwa [List.size_toByteArray]), getElem?_pos _ i hi,
      List.getElem_toByteArray]
  · rw [getElem?_neg _ i (by rwa [List.size_toByteArray]), getElem?_neg _ i hi]

/-- A search for the byte that ends lines finds the breaks of the text. -/
theorem search_eq {search : UInt8 → ByteArray → List Nat} (h : Finds search) (s : String) :
    search LineWriter.endOfLine s.toUTF8 = breaks 0 s.toList := by
  obtain ⟨hsorted, hmem⟩ := h LineWriter.endOfLine s.toUTF8
  refine hsorted.eq_of_mem_iff (pairwise_breaks 0 s.toList) ?_
  intro i
  rw [hmem, getElem?_toUTF8, ← mem_breaks, Nat.zero_add]

/-! ## Parts of a text -/

/-- A text split at its ends of line. -/
def parts (cs : List Char) : List (List Char) := cs.splitOn '\n'

/-- The lines of a text: whatever an end of line comes after, and what is behind the last one
unless nothing is. -/
def lines (s : String) : List String :=
  let all := (parts s.toList).map String.ofList
  if all.getLast? = some "" then all.dropLast else all

/-- The lines of a text that an end of line comes after. -/
def complete (s : String) : List String := ((parts s.toList).map String.ofList).dropLast

theorem parts_of_not_mem {cs : List Char} (h : '\n' ∉ cs) : parts cs = [cs] :=
  List.splitOn_eq_singleton h

theorem parts_line {cs : List Char} (h : '\n' ∉ cs) (ds : List Char) :
    parts (cs ++ '\n' :: ds) = cs :: parts ds :=
  List.splitOn_append_cons_self_of_not_mem h ds

/-- A text is one part, or a part in front of those that come after an end of line. -/
theorem parts_cases (cs : List Char) : ('\n' ∉ cs ∧ parts cs = [cs]) ∨
    ∃ part rest, '\n' ∉ part ∧ cs = part ++ '\n' :: rest ∧ parts cs = part :: parts rest := by
  by_cases h : '\n' ∈ cs
  · obtain ⟨part, rest, rfl, hpart⟩ := List.eq_append_cons_of_mem h
    exact .inr ⟨part, rest, hpart, rfl, parts_line hpart rest⟩
  · exact .inl ⟨h, parts_of_not_mem h⟩

/-- More text goes on from the last part. -/
theorem parts_append {cs : List Char} {init : List (List Char)} {last : List Char}
    (h : parts cs = init ++ [last]) (ds : List Char) :
    parts (cs ++ ds) = init ++ parts (last ++ ds) := by
  induction init generalizing cs with
  | nil =>
    rcases parts_cases cs with ⟨-, hparts⟩ | ⟨part, rest, -, -, hparts⟩
    · obtain rfl := List.singleton_inj.mp (hparts.symm.trans h)
      rfl
    · have hnone : parts rest = [] := (List.cons.inj (hparts.symm.trans h)).2
      exact absurd hnone (List.splitOn_ne_nil _ _)
  | cons first init ih =>
    rcases parts_cases cs with ⟨-, hparts⟩ | ⟨part, rest, hplain, rfl, hparts⟩
    · have hnone : [] = init ++ [last] := (List.cons.inj (hparts.symm.trans h)).2
      simp at hnone
    · obtain ⟨rfl, hrest⟩ := List.cons.inj (hparts.symm.trans h)
      rw [List.append_assoc, List.cons_append, parts_line hplain, ih hrest, List.cons_append]

end Text

namespace LineWriter

open Text
open String (utf8Len)

variable {search : UInt8 → ByteArray → List Nat} {w : LineWriter} {piece pending : String}
  {given : List String} {cs : List Char}

/-! ## One piece after another -/

/-- Takes pieces one after another. -/
def writeAllWith? (search : UInt8 → ByteArray → List Nat) :
    LineWriter → List String → Option (LineWriter × List String)
  | w, [] => some (w, [])
  | w, piece :: rest =>
    match w.writeWith? search piece with
    | none => none
    | some (w, given) =>
      (writeAllWith? search w rest).map fun (w, more) => (w, given ++ more)

/-- What a writer has given out of a text, and what it holds, are the parts of that text. -/
structure Holds (w : LineWriter) (given : List String) (cs : List Char) : Prop where
  parts : parts cs = given.map String.toList ++ [w.pending.toList]
  plain : '\n' ∉ w.pending.toList

/-- A writer goes on at byte `start`, with `ys` between it and the next break that is looked for.
The characters `zs` behind that are taken one by one, so `ys` grows until there is a break. -/
theorem writeFrom?_holds {xs ys zs : List Char} (hpiece : piece.toList = xs ++ (ys ++ zs))
    (hys : '\n' ∉ ys) (hpending : '\n' ∉ pending.toList) :
    ∃ w given, writeFrom? piece pending (utf8Len xs) (breaks (utf8Len xs + utf8Len ys) zs) =
        some (w, given) ∧ Holds w given (pending.toList ++ (ys ++ zs)) := by
  induction zs generalizing xs ys pending with
  | nil =>
    have hsize : piece.utf8ByteSize = utf8Len xs + utf8Len ys := by
      rw [← utf8Len_toList, hpiece]
      simp
    have hplain : '\n' ∉ pending.toList ++ ys := by
      simp [hys, hpending]
    refine ⟨⟨pending ++ String.ofList ys⟩, [], ?_, ?_⟩
    · rw [breaks, writeFrom?, between?_eq hpiece rfl hsize, Option.map_some]
    · refine ⟨?_, ?_⟩
      · rw [List.append_nil, parts_of_not_mem hplain]
        simp
      · simpa using hplain
  | cons c zs ih =>
    by_cases hc : c = '\n'
    · subst hc
      have hnext : piece.toList = (xs ++ (ys ++ ['\n'])) ++ ([] ++ zs) := by
        rw [hpiece]
        simp
      have hstart : utf8Len (xs ++ (ys ++ ['\n'])) = utf8Len xs + utf8Len ys + 1 := by
        rw [String.utf8Len_append, String.utf8Len_append, Nat.add_assoc]
        rfl
      have hnone : '\n' ∉ "".toList := List.not_mem_nil
      obtain ⟨w, given, hwrite, hholds⟩ := ih hnext List.not_mem_nil hnone
      have hline : (if pending.isEmpty then String.ofList ys else pending ++ String.ofList ys) =
          pending ++ String.ofList ys := by
        split
        · next hempty => rw [String.isEmpty_iff.mp hempty, String.empty_append]
        · rfl
      rw [hstart] at hwrite
      refine ⟨w, (pending ++ String.ofList ys) :: given, ?_, ?_, hholds.plain⟩
      · rw [breaks, if_pos rfl, writeFrom?, between?_eq hpiece rfl rfl]
        dsimp only
        rw [hline, show '\n'.utf8Size = 1 from rfl]
        have hwrite' : writeFrom? piece "" (utf8Len xs + utf8Len ys + 1)
            (breaks (utf8Len xs + utf8Len ys + 1) zs) = some (w, given) := hwrite
        rw [hwrite', Option.map_some]
      · have hplain : '\n' ∉ pending.toList ++ ys := by
          simp [hys, hpending]
        have hrest : parts zs = given.map String.toList ++ [w.pending.toList] := hholds.parts
        rw [← List.append_assoc, parts_line hplain, hrest]
        simp
    · have hgrown : piece.toList = xs ++ ((ys ++ [c]) ++ zs) := by
        rw [hpiece]
        simp
      have hplain : '\n' ∉ ys ++ [c] := by
        simp [hys, Ne.symm hc]
      obtain ⟨w, given, hwrite, hholds⟩ := ih hgrown hplain hpending
      refine ⟨w, given, ?_, ?_⟩
      · rw [breaks, if_neg hc, ← hwrite]
        simp [Nat.add_assoc]
      · simpa using hholds

/-- A piece is taken without fail, and what was held of the text goes on with it. -/
theorem Holds.write (h : Finds search) (hw : Holds w given cs) (piece : String) :
    ∃ w' more, w.writeWith? search piece = some (w', more) ∧
      Holds w' (given ++ more) (cs ++ piece.toList) := by
  have hpiece : piece.toList = [] ++ ([] ++ piece.toList) := rfl
  obtain ⟨w', more, hwrite, hholds⟩ := writeFrom?_holds hpiece List.not_mem_nil hw.plain
  refine ⟨w', more, ?_, ?_, hholds.plain⟩
  · rw [writeWith?, search_eq h]
    exact hwrite
  · have hparts := hholds.parts
    rw [List.nil_append] at hparts
    rw [parts_append hw.parts, hparts, List.map_append, List.append_assoc]

/-- Pieces are taken one after another without fail. -/
theorem Holds.writeAll (h : Finds search) (hw : Holds w given cs) (pieces : List String) :
    ∃ w' more, writeAllWith? search w pieces = some (w', more) ∧
      Holds w' (given ++ more) (cs ++ (String.join pieces).toList) := by
  induction pieces generalizing w given cs with
  | nil => exact ⟨w, [], rfl, by simpa using hw⟩
  | cons piece pieces ih =>
    obtain ⟨w₁, first, hwrite, hw₁⟩ := hw.write h piece
    obtain ⟨w₂, more, hall, hw₂⟩ := ih hw₁
    refine ⟨w₂, first ++ more, ?_, ?_⟩
    · rw [writeAllWith?, hwrite]
      dsimp only
      rw [hall, Option.map_some]
    · simpa using hw₂

theorem holds_new : Holds {} [] [] := ⟨rfl, List.not_mem_nil⟩

/-! ## The end -/

/-- Before its end a writer has given out the lines that are complete. -/
theorem Holds.given_eq {s : String} (hw : Holds w given s.toList) : given = Text.complete s := by
  rw [complete, hw.parts]
  simp

/-- At its end a writer has given out all lines. -/
theorem Holds.finish {s : String} (hw : Holds w given s.toList) :
    given ++ w.finish.2 = Text.lines s := by
  have hall : (Text.parts s.toList).map String.ofList = given ++ [w.pending] := by
    rw [hw.parts]
    simp
  unfold LineWriter.finish Text.lines
  dsimp only
  rw [hall, List.getLast?_concat, List.dropLast_concat]
  by_cases hpending : w.pending = ""
  · rw [if_pos (String.isEmpty_iff.mpr hpending), if_pos (congrArg some hpending), List.append_nil]
  · rw [if_neg fun h => hpending (String.isEmpty_iff.mp h),
      if_neg fun h => hpending (Option.some.inj h)]

/-- After its end a writer has nothing left to give out. -/
theorem drop_finish (w : LineWriter) : w.finish.1.drop = [] := by
  unfold drop finish
  by_cases hpending : w.pending.isEmpty = true
  · simp [hpending]
  · simp [hpending]

/-- The lines of a text that is written in any pieces, with any search that finds a byte.  Before
its end a writer has given out the lines that are complete; at its end, or when it is given up, or
both, all of them.  Nothing of that depends on where the text is cut. -/
theorem lines_of_pieces (h : Finds search) (pieces : List String) :
    ∃ w given, writeAllWith? search {} pieces = some (w, given) ∧
      given = Text.complete (String.join pieces) ∧
      given ++ w.finish.2 = Text.lines (String.join pieces) ∧
      given ++ w.drop = Text.lines (String.join pieces) ∧
      given ++ w.finish.2 ++ w.finish.1.drop = Text.lines (String.join pieces) ∧
      ∀ others, String.join others = String.join pieces →
        writeAllWith? search {} others = some (w, given) := by
  obtain ⟨w, given, hall, hholds⟩ := holds_new.writeAll h pieces
  rw [List.nil_append, List.nil_append] at hholds
  refine ⟨w, given, hall, hholds.given_eq, hholds.finish, hholds.finish, ?_, ?_⟩
  · rw [drop_finish, List.append_nil, hholds.finish]
  · intro others hothers
    obtain ⟨w', given', hall', hholds'⟩ := holds_new.writeAll h others
    rw [List.nil_append, List.nil_append, hothers] at hholds'
    obtain rfl : given' = given := hholds'.given_eq.trans hholds.given_eq.symm
    have hlast := List.append_cancel_left (hholds'.parts.symm.trans hholds.parts)
    obtain rfl : w' = w := by
      cases w
      cases w'
      rw [mk.injEq]
      exact String.toList_inj.mp (List.singleton_inj.mp hlast)
    exact hall'

/-- Ends of line in a row, at the end of a piece and at the start of the next one, an empty piece,
characters of two bytes, and a last line without an end. -/
theorem lines_of_pieces_wide :
    Finds Text.occurrences ∧ ∃ w given,
      writeAllWith? Text.occurrences {} ["gr", "ö\n", "", "\n\nß", "e"] = some (w, given) ∧
        given = ["grö", "", ""] ∧ given ++ w.drop = ["grö", "", "", "ße"] := by
  obtain ⟨w, given, hall, hgiven, -, hdrop, -⟩ :=
    lines_of_pieces finds_occurrences ["gr", "ö\n", "", "\n\nß", "e"]
  exact ⟨finds_occurrences, w, given, hall, hgiven.trans (by decide +kernel),
    hdrop.trans (by decide +kernel)⟩

/-! ## The search that is used -/

theorem writeAllWith?_occurrences (hw : Holds w given cs) (pieces : List String) :
    writeAllWith? Text.occurrences w pieces = some (w.writeAll pieces) := by
  induction pieces generalizing w given cs with
  | nil => rfl
  | cons piece pieces ih =>
    obtain ⟨w', more, hwrite, hw'⟩ := hw.write finds_occurrences piece
    have hsame : w.write piece = (w', more) := by
      rw [LineWriter.write, hwrite, Option.getD_some]
    rw [writeAllWith?, hwrite]
    dsimp only
    rw [ih hw', Option.map_some, LineWriter.writeAll, hsame]

/-- The lines of a summary do not depend on the pieces that it is written in. -/
theorem linesOf_eq (pieces : List String) : linesOf pieces = Text.lines (String.join pieces) := by
  obtain ⟨w, given, hall, hholds⟩ := holds_new.writeAll finds_occurrences pieces
  rw [List.nil_append, List.nil_append] at hholds
  have hrun := (writeAllWith?_occurrences holds_new pieces).symm.trans hall
  rw [linesOf, Option.some.inj hrun]
  exact hholds.finish

end LineWriter

end Standoff
