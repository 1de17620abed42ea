import LayeredConfig.Text.Basic

/-!
# `LayeredConfig.Text.Utf8` — text as its encoded units

Some spellings are defined on the UTF-8 units of a text and not on its characters. A unit is written as
the character of the same number, so that the units of a text are a text again.

## Contents
- **`toUnits`.** The units of a text; an ASCII text is its own (`toUnits_of_ascii`).
- **`ofUnits`.** The text of a sequence of units.
-/

namespace LayeredConfig.Text

/-- The units of one character. -/
def charUnits (c : Char) : Text :=
  let n := c.toNat
  if n < 0x80 then [c]
  else if n < 0x800 then [Char.ofNat (0xc0 + n / 64), Char.ofNat (0x80 + n % 64)]
  else if n < 0x10000 then
    [Char.ofNat (0xe0 + n / 4096), Char.ofNat (0x80 + n / 64 % 64), Char.ofNat (0x80 + n % 64)]
  else
    [Char.ofNat (0xf0 + n / 262144), Char.ofNat (0x80 + n / 4096 % 64),
      Char.ofNat (0x80 + n / 64 % 64), Char.ofNat (0x80 + n % 64)]

/-- The units of a text. -/
def toUnits (t : Text) : Text := t.flatMap charUnits

/-- An ASCII text is the sequence of its units. -/
theorem toUnits_of_ascii {t : Text} (h : ∀ c ∈ t, c.toNat < 0x80) : toUnits t = t := by
  induction t with
  | nil => rfl
  | cons c r ih =>
      have hc : c.toNat < 0x80 := h c (by simp)
      have hr := ih fun d hd => h d (by simp [hd])
      simp only [toUnits, List.flatMap_cons] at hr ⊢
      rw [hr]
      simp [charUnits, hc]

/-- The low six bits of a unit. -/
def payload (c : Char) : Nat := c.toNat % 64

/-- Reads characters back from units; the first unit says how many belong to its character. -/
def ofUnits : Text → Text
  | [] => []
  | [a] => [a]
  | [a, b] =>
      if a.toNat < 0x80 then a :: ofUnits [b]
      else [Char.ofNat (a.toNat % 32 * 64 + payload b)]
  | [a, b, c] =>
      if a.toNat < 0x80 then a :: ofUnits [b, c]
      else if a.toNat < 0xe0 then Char.ofNat (a.toNat % 32 * 64 + payload b) :: ofUnits [c]
      else [Char.ofNat ((a.toNat % 16 * 64 + payload b) * 64 + payload c)]
  | a :: b :: c :: d :: r =>
      if a.toNat < 0x80 then a :: ofUnits (b :: c :: d :: r)
      else if a.toNat < 0xe0 then
        Char.ofNat (a.toNat % 32 * 64 + payload b) :: ofUnits (c :: d :: r)
      else if a.toNat < 0xf0 then
        Char.ofNat ((a.toNat % 16 * 64 + payload b) * 64 + payload c) :: ofUnits (d :: r)
      else
        Char.ofNat (((a.toNat % 8 * 64 + payload b) * 64 + payload c) * 64 + payload d) ::
          ofUnits r

end LayeredConfig.Text
