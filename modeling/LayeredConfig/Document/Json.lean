import LayeredConfig.Document.Value
import LayeredConfig.Number.Decimal
import LayeredConfig.Number.Integer

/-!
# `LayeredConfig.Document.Json` — JSON texts

Reads a JSON text. Nesting is limited; a repeated key keeps its last value.

## Contents
- **Strings.** Escapes; two halves of a wide character have to follow each other.
- **Numbers.** An integer of 64 bits stays one, every other number is read as a floating-point number by
  scaling its leading digits with a power of ten.
- **`Json.parse`.** The value of a whole text.
-/

namespace LayeredConfig.Document.Json

open Text Number

/-- Drops the blanks of the format. -/
def skipBlanks (t : Text) : Text :=
  t.dropWhile fun c => c == ' ' || c == '\n' || c == '\t' || c == '\r'

/-! ## Strings -/

/-- The value of a hexadecimal digit. -/
def hexDigit? (c : Char) : Option Nat :=
  if c.isDigit then some (c.toNat - '0'.toNat)
  else if 'a' ≤ c ∧ c ≤ 'f' then some (c.toNat - 'a'.toNat + 10)
  else if 'A' ≤ c ∧ c ≤ 'F' then some (c.toNat - 'A'.toNat + 10)
  else none

/-- The number of hexadecimal digits. -/
def hexValue? (t : Text) : Option Nat :=
  t.foldlM (fun n c => (hexDigit? c).map fun d => 16 * n + d) 0

/-- The character of a one-letter escape. -/
def escape? : Char → Option Char
  | '"' => some '"'
  | '\\' => some '\\'
  | '/' => some '/'
  | 'b' => some (Char.ofNat 8)
  | 'f' => some (Char.ofNat 12)
  | 'n' => some '\n'
  | 'r' => some '\r'
  | 't' => some '\t'
  | _ => none

/-- Whether a number is the first half of a wide character. -/
def isHighHalf (n : Nat) : Bool := 0xd800 ≤ n && n < 0xdc00

/-- Whether a number is the second half of a wide character. -/
def isLowHalf (n : Nat) : Bool := 0xdc00 ≤ n && n < 0xe000

/-- The wide character of two halves. -/
def wideChar (high low : Nat) : Char := Char.ofNat (0x10000 + (high - 0xd800) * 0x400 + (low - 0xdc00))

/-- Reads a string behind its opening quote; `high` is the first half of a wide character that waits for
the second. -/
def stringFrom (high : Option Nat) : Text → Option (Text × Text)
  | [] => none
  | '\\' :: 'u' :: a :: b :: c :: d :: r => do
      let n ← hexValue? [a, b, c, d]
      match high with
      | some h =>
          if isLowHalf n then (stringFrom none r).map fun p => (wideChar h n :: p.1, p.2) else none
      | none =>
          if isHighHalf n then stringFrom (some n) r
          else if isLowHalf n then none
          else (stringFrom none r).map fun p => (Char.ofNat n :: p.1, p.2)
  | '\\' :: c :: r =>
      match high, escape? c with
      | none, some x => (stringFrom none r).map fun p => (x :: p.1, p.2)
      | _, _ => none
  | c :: r =>
      if high.isSome then none
      else if c = '"' then some ([], r)
      else if c.toNat < 0x20 then none
      else (stringFrom none r).map fun p => (c :: p.1, p.2)

/-! ## Numbers -/

/-- The greatest number that leading digits may make. -/
def maxLeading : Nat := Nat.pow 2 64 - 1

/-- Reads digits onto leading digits as long as they make a number of 64 bits: the number, and how many
digits were left out. -/
def leadingDigits (n : Nat) : Text → Nat × Nat
  | [] => (n, 0)
  | c :: r =>
      let n' := 10 * n + (c.toNat - '0'.toNat)
      if maxLeading < n' then (n, r.length + 1) else leadingDigits n' r

/-- Scales a number by a power of ten: the power is one factor as long as it has one, and smaller ones are
taken in steps. There is no result when the number would be too large. -/
def scale (x : Binary64) : Nat → Int → Option Binary64
  | 0, _ => some x
  | steps + 1, e =>
      if e.natAbs ≤ 308 then
        let y := x.times (decide (e < 0)) (.ofDecimal false 1 e.natAbs)
        if y.isFinite then some y else none
      else if x.isZero then some x
      else if 0 ≤ e then none
      else scale (x.times true (.ofDecimal false 1 308)) steps (e + 308)

/-- The number of digits before and behind the point and an exponent. -/
def floatOf (negative : Bool) (whole fraction : Text) (exponent : Int) : Option Value :=
  let (n, dropped) := leadingDigits 0 whole
  let (n, unread) := leadingDigits n fraction
  let power : Int := exponent + dropped - (fraction.length - unread : Nat)
  (scale (.ofNat negative n) 8 power).map .float

/-- The number of digits alone. -/
def integerOf (negative : Bool) (whole : Text) : Option Value :=
  let n := digitsValue whole
  if negative then
    if n = 0 then some (.float (.zero true))
    else if n ≤ Nat.pow 2 63 then some (.integer (-n))
    else if n ≤ maxLeading then some (.float (.ofNat true n))
    else floatOf true whole [] 0
  else if n < Nat.pow 2 63 then some (.integer n)
  else if n ≤ maxLeading then some (.float (.ofNat false n))
  else floatOf false whole [] 0

/-- Reads digits of which there has to be one. -/
def digits (t : Text) : Option (Text × Text) :=
  let ds := t.takeWhile Char.isDigit
  if ds.isEmpty then none else some (ds, t.dropWhile Char.isDigit)

/-- Reads an exponent behind its letter. -/
def exponent (t : Text) : Option (Int × Text) := do
  let (negative, r) := Decimal.readSign t
  let (ds, rest) ← digits r
  return (if negative then -(digitsValue ds : Int) else digitsValue ds, rest)

/-- Reads a number behind its sign. A zero at the start stands alone. -/
def numberFrom (negative : Bool) (t : Text) : Option (Value × Text) := do
  let (whole, rest) ← digits t
  if whole.head? = some '0' ∧ 1 < whole.length then failure
  let (fraction, rest) ← match rest with
    | '.' :: r => do
        let (ds, rest) ← digits r
        pure (some ds, rest)
    | r => pure (none, r)
  let (e, rest) ← match rest with
    | c :: r =>
        if c = 'e' ∨ c = 'E' then do
          let (n, rest) ← exponent r
          pure (some n, rest)
        else pure (none, c :: r)
    | [] => pure (none, [])
  match fraction, e with
  | none, none => return (← integerOf negative whole, rest)
  | _, _ => return (← floatOf negative whole (fraction.getD []) (e.getD 0), rest)

/-- Reads a number. -/
def number : Text → Option (Value × Text)
  | '-' :: r => numberFrom true r
  | t => numberFrom false t

/-! ## Values -/

/-- The greatest depth of nesting. -/
def maxDepth : Nat := 127

mutual

/-- Reads a value that may be nested so deep; `room` bounds the steps. -/
def valueFrom : Nat → Nat → Text → Option (Value × Text)
  | 0, _, _ => none
  | room + 1, depth, t =>
      match skipBlanks t with
      | '"' :: r => (stringFrom none r).map fun p => (.text p.1, p.2)
      | '[' :: r => match depth with
        | 0 => none
        | d + 1 => match skipBlanks r with
          | ']' :: rest => some (.list [], rest)
          | r => (itemsFrom room d r).map fun p => (.list p.1, p.2)
      | '\x7b' :: r => match depth with
        | 0 => none
        | d + 1 => match skipBlanks r with
          | '\x7d' :: rest => some (.table [], rest)
          | r => (entriesFrom room d [] r).map fun p => (.table p.1, p.2)
      | 't' :: 'r' :: 'u' :: 'e' :: r => some (.bool true, r)
      | 'f' :: 'a' :: 'l' :: 's' :: 'e' :: r => some (.bool false, r)
      | 'n' :: 'u' :: 'l' :: 'l' :: r => some (.null, r)
      | r => number r

/-- Reads items up to the closing bracket. -/
def itemsFrom : Nat → Nat → Text → Option (List Value × Text)
  | 0, _, _ => none
  | room + 1, depth, t => do
      let (v, r) ← valueFrom room depth t
      match skipBlanks r with
      | ',' :: r =>
          let (vs, rest) ← itemsFrom room depth r
          return (v :: vs, rest)
      | ']' :: rest => return ([v], rest)
      | _ => none

/-- Reads entries up to the closing brace onto those read before. -/
def entriesFrom : Nat → Nat → List (Text × Value) → Text → Option (List (Text × Value) × Text)
  | 0, _, _, _ => none
  | room + 1, depth, es, t =>
      match skipBlanks t with
      | '"' :: r => do
          let (key, r) ← stringFrom none r
          match skipBlanks r with
          | ':' :: r =>
              let (v, r) ← valueFrom room depth r
              let es := Value.alterEntry (fun _ => v) key es
              match skipBlanks r with
              | ',' :: r => entriesFrom room depth es r
              | '\x7d' :: rest => return (es, rest)
              | _ => none
          | _ => none
      | _ => none

end

/-- The value of a whole text. -/
def parse (t : Text) : Option Value :=
  match valueFrom (2 * t.length + 2) maxDepth t with
  | some (v, rest) => if (skipBlanks rest).isEmpty then some v else none
  | none => none

end LayeredConfig.Document.Json
