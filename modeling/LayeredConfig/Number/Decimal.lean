import LayeredConfig.Number.Binary64

/-!
# `LayeredConfig.Number.Decimal` — numbers in decimal notation

A decimal number is a sign, digits with at most one point among them, and an exponent. It becomes the nearest
floating-point number.

## Contents
- **`Decimal`.** Sign, digits and the power of ten of the last digit.
- **`Decimal.parse`.** The number of a text; `Decimal.toBinary` rounds it.
-/

namespace LayeredConfig.Number

open Text

/-- A number `digits * 10 ^ power` with a sign. -/
structure Decimal where
  negative : Bool
  digits : Nat
  power : Int
  deriving DecidableEq, Repr

namespace Decimal

/-- The nearest floating-point number. -/
def toBinary (d : Decimal) : Binary64 := .ofDecimal d.negative d.digits d.power

/-- Reads an optional sign: whether it is a minus, and the rest. -/
def readSign : Text → Bool × Text
  | '-' :: r => (true, r)
  | '+' :: r => (false, r)
  | r => (false, r)

/-- Reads an exponent to the end of the text; no exponent is zero. -/
def readExponent : Text → Option Int
  | [] => some 0
  | c :: r =>
      if c = 'e' ∨ c = 'E' then
        let (negative, digits) := readSign r
        if isNumeric digits then
          some (if negative then -(digitsValue digits : Int) else digitsValue digits)
        else none
      else none

/-- Reads the digits before and behind a point, of which there is at least one, and an exponent. -/
def readUnsigned (negative : Bool) (t : Text) : Option Decimal :=
  let whole := t.takeWhile Char.isDigit
  let rest := t.dropWhile Char.isDigit
  let (fraction, rest) := match rest with
    | '.' :: r => (r.takeWhile Char.isDigit, r.dropWhile Char.isDigit)
    | r => ([], r)
  if whole.isEmpty && fraction.isEmpty then none
  else (readExponent rest).map fun e => ⟨negative, digitsValue (whole ++ fraction), e - fraction.length⟩

/-- The number of a text. -/
def parse (t : Text) : Option Decimal :=
  let (negative, r) := readSign t
  readUnsigned negative r

end Decimal

end LayeredConfig.Number
