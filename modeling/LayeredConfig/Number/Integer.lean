import LayeredConfig.Text.Basic

/-!
# `LayeredConfig.Number.Integer` — integers from their decimal text

A decimal integer is an optional sign and one or more ASCII digits. It has to fit the range asked for; the
first offending character from the left decides what is reported.

## Contents
- **`Range`.** The bounds of a type of integers.
- **`IntegerError`.** Why a text is no integer of a range, and the wording of it.
- **`Range.parse`.** The integer of a text.
-/

namespace LayeredConfig.Number

/-- The least and the greatest integer of a type. -/
structure Range where
  least : Int
  greatest : Int
  deriving DecidableEq, Repr

namespace Range

/-- The integers of a number of bits without sign. -/
def unsigned (bits : Nat) : Range := ⟨0, Nat.pow 2 bits - 1⟩

/-- The integers of a number of bits in two's complement. -/
def signed (bits : Nat) : Range := ⟨-Nat.pow 2 (bits - 1), Nat.pow 2 (bits - 1) - 1⟩

/-- Whether the range holds negative integers. -/
def hasNegatives (r : Range) : Bool := r.least < 0

end Range

/-- Why a text is no integer of a range. -/
inductive IntegerError where
  | empty
  | invalidDigit
  | tooLarge
  | tooSmall
  deriving DecidableEq, Repr

/-- The wording of an integer error. -/
def IntegerError.message : IntegerError → Text
  | .empty => "cannot parse integer from empty string".toList
  | .invalidDigit => "invalid digit found in string".toList
  | .tooLarge => "number too large to fit in target type".toList
  | .tooSmall => "number too small to fit in target type".toList

namespace Range

/-- Reads digits onto the number read so far, away from zero in the direction of the sign. -/
def readDigits (r : Range) (negative : Bool) : Int → Text → Except IntegerError Int
  | n, [] => .ok n
  | n, c :: rest =>
      if c.isDigit then
        let d : Int := c.toNat - '0'.toNat
        if negative then
          let n' := 10 * n - d
          if n' < r.least then .error .tooSmall else readDigits r negative n' rest
        else
          let n' := 10 * n + d
          if r.greatest < n' then .error .tooLarge else readDigits r negative n' rest
      else .error .invalidDigit

/-- The integer of a text. A sign `-` is read as one only in a range that holds negative integers. -/
def parse (r : Range) : Text → Except IntegerError Int
  | [] => .error .empty
  | ['+'] => .error .invalidDigit
  | ['-'] => .error .invalidDigit
  | '+' :: digits => r.readDigits false 0 digits
  | '-' :: digits =>
      if r.hasNegatives then r.readDigits true 0 digits else .error .invalidDigit
  | digits => r.readDigits false 0 digits

end Range

end LayeredConfig.Number
