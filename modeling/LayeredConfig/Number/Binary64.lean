import LayeredConfig.Text.Basic

/-!
# `LayeredConfig.Number.Binary64` — floating-point numbers of 64 bits

A finite number is a mantissa of at most 53 bits times a power of two. All arithmetic is exact on natural
numbers and rounds once, to the nearest number and of two equally near ones to the one with the even
mantissa.

## Contents
- **`Binary64`.** The numbers, the infinities and the value that is no number.
- **Rounding.** `roundEven` rounds a quotient, `ofRatio` rounds a ratio to a number.
- **Arithmetic.** `ofNat`, `ofDecimal`, `scale` by a power of ten.
-/

namespace LayeredConfig.Number

/-- A floating-point number: `mantissa * 2 ^ exponent` with a sign, an infinity, or no number. -/
inductive Binary64 where
  | finite (negative : Bool) (mantissa : Nat) (exponent : Int)
  | infinite (negative : Bool)
  | notANumber
  deriving DecidableEq, Repr

/-! ## Rounding -/

/-- The natural number nearest to `num / den`; of two equally near ones the even one. -/
def roundEven (num den : Nat) : Nat :=
  let q := num / den
  let r := num % den
  if 2 * r < den then q
  else if den < 2 * r then q + 1
  else if q % 2 = 0 then q else q + 1

namespace Binary64

/-- The least exponent of a number. -/
def leastExponent : Int := -1074

/-- The greatest exponent of a finite number. -/
def greatestExponent : Int := 971

/-- One more than the greatest mantissa. -/
def mantissaBound : Nat := Nat.pow 2 53

/-- Zero with a sign. -/
def zero (negative : Bool) : Binary64 := .finite negative 0 leastExponent

/-- The numerator and the denominator of `num / den / 2 ^ e`. -/
def shifted (num den : Nat) (e : Int) : Nat × Nat :=
  if 0 ≤ e then (num, den * Nat.pow 2 e.toNat) else (num * Nat.pow 2 (-e).toNat, den)

/-- The number nearest to the positive ratio `num / den`. -/
def ofRatio (negative : Bool) (num den : Nat) : Binary64 :=
  if num = 0 then zero negative
  else
    let guess : Int := (num.log2 : Int) - den.log2 - 53
    let e := max guess leastExponent
    let (a, b) := shifted num den e
    let e := if mantissaBound ≤ a / b then e + 1 else e
    let (a, b) := shifted num den e
    let m := roundEven a b
    let (m, e) := if m = mantissaBound then (mantissaBound / 2, e + 1) else (m, e)
    if greatestExponent < e then .infinite negative else .finite negative m e

/-! ## Arithmetic -/

/-- The number nearest to a natural number. -/
def ofNat (negative : Bool) (n : Nat) : Binary64 := ofRatio negative n 1

/-- The number nearest to `digits * 10 ^ power`, where `count` is the number of decimal digits. Powers far
outside the range of all numbers are decided without computing them. -/
def ofDecimal (negative : Bool) (digits : Nat) (power : Int) : Binary64 :=
  let count : Int := (Nat.toDigits 10 digits).length
  if digits = 0 then zero negative
  else if 400 < count + power then .infinite negative
  else if count + power < -400 then zero negative
  else if 0 ≤ power then ofRatio negative (digits * Nat.pow 10 power.toNat) 1
  else ofRatio negative digits (Nat.pow 10 (-power).toNat)

/-- The numerator and the denominator of a finite number without its sign. -/
def ratio (mantissa : Nat) (exponent : Int) : Nat × Nat :=
  if 0 ≤ exponent then (mantissa * Nat.pow 2 exponent.toNat, 1) else (mantissa, Nat.pow 2 (-exponent).toNat)

/-- The product or the quotient of two finite numbers without signs, rounded once. -/
def times (divide : Bool) : Binary64 → Binary64 → Binary64
  | .finite s m e, .finite _ m' e' =>
      let (a, b) := ratio m e
      let (c, d) := ratio m' e'
      if divide then ofRatio s (a * d) (b * c) else ofRatio s (a * c) (b * d)
  | x, _ => x

/-- Whether a number is zero. -/
def isZero : Binary64 → Bool
  | .finite _ 0 _ => true
  | _ => false

/-- Whether a number is finite. -/
def isFinite : Binary64 → Bool
  | .finite .. => true
  | _ => false

end Binary64

end LayeredConfig.Number
