import LayeredConfig.Text.Basic

/-!
# `LayeredConfig.Text.Blank` — white space at the edges

The characters with the Unicode property `White_Space`, and the removal of them from both ends.

## Contents
- **`isBlank`.** The 25 characters of the property.
- **`Text.trim`.** No blank character is left at either end (`isBlank_head_trim`, `isBlank_getLast_trim`).
-/

namespace LayeredConfig

/-- Whether a character has the Unicode property `White_Space`. -/
def isBlank (c : Char) : Bool :=
  let n := c.toNat
  (9 ≤ n && n ≤ 13) || n == 0x20 || n == 0x85 || n == 0xa0 || n == 0x1680 ||
    (0x2000 ≤ n && n ≤ 0x200a) || n == 0x2028 || n == 0x2029 || n == 0x202f || n == 0x205f ||
    n == 0x3000

namespace Text

/-- Drops blank characters from the left end. -/
def trimLeft (t : Text) : Text := t.dropWhile isBlank

/-- Drops blank characters from both ends. -/
def trim (t : Text) : Text := dropRightWhile isBlank (trimLeft t)

@[simp] theorem trim_nil : trim [] = [] := rfl

/-- Trimming leaves no blank character on the right. -/
theorem isBlank_getLast_trim {t : Text} {c : Char} (h : (trim t).getLast? = some c) :
    isBlank c = false := by
  rw [trim, dropRightWhile, List.getLast?_reverse] at h
  obtain ⟨r, hr⟩ := List.head?_eq_some_iff.mp h
  exact eq_false_of_dropWhile hr

/-- Trimming leaves no blank character on the left. -/
theorem isBlank_head_trim {t : Text} {c : Char} (h : (trim t).head? = some c) : isBlank c = false := by
  obtain ⟨r, hr⟩ := List.head?_eq_some_iff.mp h
  obtain ⟨s, hs⟩ := dropRightWhile_prefix isBlank (trimLeft t)
  have e : trimLeft t = c :: (r ++ s) := by
    rw [← hs, show dropRightWhile isBlank (trimLeft t) = c :: r from hr]
    rfl
  exact eq_false_of_dropWhile e

end Text

end LayeredConfig
