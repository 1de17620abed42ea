import LayeredConfig.Number.Binary64

/-!
# `LayeredConfig.Number.Shortest` — the shortest text of a floating-point number

A number is written with the fewest decimal digits that read back as the same number, and of those with the
digits nearest to it. The digits stand in positional notation without an exponent; an integer has no point.

## Contents
- **Interval.** `Interval` holds the reals that round to a number.
- **Digits.** `shortest` tries one digit, two digits and so on; on each grid only the two neighbours of the
  number can be the nearest hit.
- **`Binary64.toText`.** The text.
-/

namespace LayeredConfig.Number

/-! ## The reals that round to a number -/

/-- A positive number and the bounds of the reals that round to it, all over one denominator; the bounds
belong to the interval when `closed` holds. -/
structure Interval where
  low : Nat
  value : Nat
  high : Nat
  den : Nat
  closed : Bool

namespace Interval

/-- The reals that round to `mantissa * 2 ^ exponent`: half a step to both sides, and only a quarter below a
power of two, where the steps below are half as wide. -/
def ofFinite (mantissa : Nat) (exponent : Int) : Interval :=
  let narrow := mantissa = Binary64.mantissaBound / 2 ∧ Binary64.leastExponent < exponent
  let (num, den) := Binary64.ratio 1 exponent
  { low := (4 * mantissa - (if narrow then 1 else 2)) * num
    value := 4 * mantissa * num
    high := (4 * mantissa + 2) * num
    den := 4 * den
    closed := mantissa % 2 = 0 }

/-- Whether the fraction `num / den` lies in the interval. -/
def holds (i : Interval) (num den : Nat) : Bool :=
  if i.closed then i.low * den ≤ num * i.den && num * i.den ≤ i.high * den
  else i.low * den < num * i.den && num * i.den < i.high * den

end Interval

/-! ## Digits -/

/-- The numerator and the denominator of `10 ^ k`. -/
def powerOfTen (k : Int) : Nat × Nat := if 0 ≤ k then (Nat.pow 10 k.toNat, 1) else (1, Nat.pow 10 (-k).toNat)

/-- The least `p` with `num / den < 10 ^ p`, found downwards from `p`. -/
def magnitudeFrom (num den : Nat) : Nat → Int → Int
  | 0, p => p
  | steps + 1, p =>
      let (a, b) := powerOfTen (p - 1)
      if num * b < a * den then magnitudeFrom num den steps (p - 1) else p

/-- The grid point `d * 10 ^ k` nearest to the value, if it or its neighbour lies in the interval: of two
hits the nearer, and of two equally near ones the greater. -/
def gridPoint (i : Interval) (k : Int) : Option Nat :=
  let (a, b) := powerOfTen k
  let below := i.value * b / (i.den * a)
  let hitBelow := below != 0 && i.holds (below * a) b
  let hitAbove := i.holds ((below + 1) * a) b
  match hitBelow, hitAbove with
  | true, true =>
      if 2 * (i.value * b) < (2 * below + 1) * (i.den * a) then some below else some (below + 1)
  | true, false => some below
  | false, true => some (below + 1)
  | false, false => none

/-- The shortest digits and the power of ten that they stand at; `steps` bounds the number of further digits
to try. -/
def shortestFrom (i : Interval) : Nat → Int → Nat × Int
  | 0, k => ((gridPoint i k).getD 0, k)
  | steps + 1, k => match gridPoint i k with
    | some d => (d, k)
    | none => shortestFrom i steps (k - 1)

/-- The shortest digits of a positive number, and the power of ten that they stand at. -/
def shortest (mantissa : Nat) (exponent : Int) : Nat × Int :=
  let i := Interval.ofFinite mantissa exponent
  let p := magnitudeFrom i.value i.den 640 310
  shortestFrom i 16 (p - 1)

/-! ## Text -/

/-- Digits at a power of ten in positional notation, without zeros at the end of a fraction. -/
def positional (digits : Nat) (k : Int) : Text :=
  let ds := Nat.toDigits 10 digits
  if 0 ≤ k then ds ++ List.replicate k.toNat '0'
  else
    let places := (-k).toNat
    let padded := List.replicate (places + 1 - ds.length) '0' ++ ds
    let whole := padded.take (padded.length - places)
    let fraction := Text.dropRightWhile (· == '0') (padded.drop (padded.length - places))
    if fraction.isEmpty then whole else whole ++ '.' :: fraction

/-- The shortest text of a number. -/
def Binary64.toText : Binary64 → Text
  | .notANumber => ['N', 'a', 'N']
  | .infinite s => (if s then ['-'] else []) ++ ['i', 'n', 'f']
  | .finite s 0 _ => (if s then ['-'] else []) ++ ['0']
  | .finite s m e =>
      let (d, k) := shortest m e
      (if s then ['-'] else []) ++ positional d k

end LayeredConfig.Number
