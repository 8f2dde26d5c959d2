import Mathlib.Data.String.Basic
import Standoff.Text.Bytes

/-!
# Characters and their bytes

A text that is cut where characters start falls into the texts on the two sides, and the places
where characters start are the numbers of bytes in front of them:

    (boundaries n cs)[i]? = n + the bytes of the first i characters of cs
    between? s a b = the characters from a to b, if a and b are boundaries

* `Text.bytes?_eq`, `Text.between?_eq`: a part of a text is found by the bytes before it.
* `Text.getElem?_boundaries`: the boundary in front of each character.
-/

namespace Standoff

namespace Text

open String (utf8Len)

/-! ## Parts of a text -/

theorem dropBytes?_append (xs ys : List Char) : dropBytes? (utf8Len xs) (xs ++ ys) = some ys := by
  induction xs with
  | nil => simp [dropBytes?]
  | cons c xs ih =>
    have hc := c.utf8Size_pos
    obtain ⟨n, hn⟩ : ∃ n, utf8Len (c :: xs) = n + 1 := ⟨utf8Len (c :: xs) - 1, by simp; omega⟩
    have hlen : utf8Len xs + c.utf8Size = n + 1 := by simpa using hn
    rw [hn, List.cons_append, dropBytes?, if_neg (by omega),
      show n + 1 - c.utf8Size = utf8Len xs by omega]
    exact ih

theorem takeBytes?_append (xs ys : List Char) : takeBytes? (utf8Len xs) (xs ++ ys) = some xs := by
  induction xs with
  | nil => simp [takeBytes?]
  | cons c xs ih =>
    have hc := c.utf8Size_pos
    obtain ⟨n, hn⟩ : ∃ n, utf8Len (c :: xs) = n + 1 := ⟨utf8Len (c :: xs) - 1, by simp; omega⟩
    have hlen : utf8Len xs + c.utf8Size = n + 1 := by simpa using hn
    rw [hn, List.cons_append, takeBytes?, if_neg (by omega),
      show n + 1 - c.utf8Size = utf8Len xs by omega, ih]
    rfl

/-- What was found in a text is found in a longer one. -/
theorem dropBytes?_longer {n : Nat} {cs ds : List Char} (h : dropBytes? n cs = some ds)
    (es : List Char) : dropBytes? n (cs ++ es) = some (ds ++ es) := by
  induction cs generalizing n with
  | nil =>
    cases n with
    | zero =>
      obtain rfl : [] = ds := Option.some.inj h
      simp [dropBytes?]
    | succ n => cases h
  | cons c cs ih =>
    cases n with
    | zero =>
      obtain rfl : c :: cs = ds := Option.some.inj h
      simp [dropBytes?]
    | succ n =>
      rw [dropBytes?] at h
      rw [List.cons_append, dropBytes?]
      by_cases hc : n + 1 < c.utf8Size
      · rw [if_pos hc] at h
        cases h
      · rw [if_neg hc] at h ⊢
        exact ih h

theorem takeBytes?_longer {n : Nat} {cs ds : List Char} (h : takeBytes? n cs = some ds)
    (es : List Char) : takeBytes? n (cs ++ es) = some ds := by
  induction cs generalizing n ds with
  | nil =>
    cases n with
    | zero => simpa [takeBytes?] using h
    | succ n => cases h
  | cons c cs ih =>
    cases n with
    | zero => simpa [takeBytes?] using h
    | succ n =>
      rw [takeBytes?] at h
      rw [List.cons_append, takeBytes?]
      by_cases hc : n + 1 < c.utf8Size
      · rw [if_pos hc] at h
        cases h
      · rw [if_neg hc] at h ⊢
        obtain ⟨ds', hds, rfl⟩ := Option.map_eq_some_iff.mp h
        rw [ih hds]
        rfl

theorem utf8Len_toList (s : String) : utf8Len s.toList = s.utf8ByteSize := by
  rw [← String.utf8ByteSize_ofList, String.ofList_toList]

/-- A part of a text is found by the bytes before it and its own, whatever follows. -/
theorem bytes?_eq {s : String} {xs ys zs : List Char} (hs : s.toList = xs ++ (ys ++ zs)) :
    bytes? s (utf8Len xs) (utf8Len ys) = some (String.ofList ys) := by
  rw [bytes?, hs, dropBytes?_append, Option.bind_some, takeBytes?_append, Option.map_some]

theorem bytes?_between (s t : String) : bytes? (s ++ t) s.utf8ByteSize t.utf8ByteSize = some t := by
  have hs : (s ++ t).toList = s.toList ++ (t.toList ++ []) := by simp
  rw [← utf8Len_toList s, ← utf8Len_toList t, bytes?_eq hs, String.ofList_toList]

theorem bytes?_longer {s t : String} {offset length : Nat} (h : bytes? s offset length = some t)
    (u : String) : bytes? (s ++ u) offset length = some t := by
  unfold bytes? at h ⊢
  obtain ⟨ts, hts, rfl⟩ := Option.map_eq_some_iff.mp h
  obtain ⟨ds, hds, htake⟩ := Option.bind_eq_some_iff.mp hts
  rw [String.toList_append, dropBytes?_longer hds, Option.bind_some, takeBytes?_longer htake]
  rfl

/-- A part of a text is found by the bytes before it and those up to its end. -/
theorem between?_eq {s : String} {xs ys zs : List Char} {start stop : Nat}
    (hs : s.toList = xs ++ (ys ++ zs)) (hstart : start = utf8Len xs)
    (hstop : stop = utf8Len xs + utf8Len ys) : between? s start stop = some (String.ofList ys) := by
  subst hstart hstop
  rw [between?, if_pos (Nat.le_add_right _ _), Nat.add_sub_cancel_left, bytes?_eq hs]

/-! ## Boundaries -/

/-- The boundary in front of a character comes after the bytes of those before it. -/
theorem getElem?_boundaries (start : Nat) (cs : List Char) (i : Nat) :
    (boundaries start cs)[i]? =
      if i ≤ cs.length then some (start + utf8Len (cs.take i)) else none := by
  induction cs generalizing start i with
  | nil =>
    cases i with
    | zero => simp [boundaries]
    | succ i => simp [boundaries]
  | cons c cs ih =>
    cases i with
    | zero => simp [boundaries]
    | succ i =>
      have hwidth : start + c.utf8Size + utf8Len (cs.take i) =
          start + utf8Len ((c :: cs).take (i + 1)) := by
        rw [List.take_succ_cons, String.utf8Len_cons]
        omega
      rw [boundaries, List.getElem?_cons_succ, ih, hwidth]
      simp

end Text

end Standoff
