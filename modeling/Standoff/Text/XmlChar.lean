/-! # Characters and names of XML text

* `isXmlChar`: the code points that the production `Char` of XML 1.0 admits.
* `contentChar?`: a code point as a character of content.
* `isQualified`: names with a namespace part. -/

namespace Standoff.Text

/-- `#x9 | #xA | #xD | [#x20-#xD7FF] | [#xE000-#xFFFD] | [#x10000-#x10FFFF]`. -/
def isXmlChar (n : Nat) : Bool :=
  n == 0x9 || n == 0xA || n == 0xD
    || (decide (0x20 ≤ n) && decide (n ≤ 0xD7FF))
    || (decide (0xE000 ≤ n) && decide (n ≤ 0xFFFD))
    || (decide (0x10000 ≤ n) && decide (n ≤ 0x10FFFF))

/-- The character of an admitted code point. -/
def contentChar? (n : Nat) : Option Char :=
  if isXmlChar n then some (Char.ofNat n) else none

/-- Admitted code points are scalar values, so no character is replaced on the way. -/
theorem toNat_of_contentChar? {n : Nat} {c : Char} (h : contentChar? n = some c) :
    c.toNat = n := by
  unfold contentChar? at h
  split at h
  · rename_i hx
    cases h
    have hv : n.isValidChar := by
      simp [isXmlChar] at hx
      show n < 0xD800 ∨ (0xDFFF < n ∧ n < 0x110000)
      omega
    rw [Char.ofNat, dif_pos hv]
    rfl
  · cases h

/-- A colon splits a name into a namespace part and a local part. -/
def isQualified (name : String) : Bool := name.toList.contains ':'

end Standoff.Text
