import LayeredConfig.Document.Yaml.Token
import LayeredConfig.Number.Decimal
import LayeredConfig.Number.Integer

/-!
# `LayeredConfig.Document.Yaml.Tree` — values of tokens

Reads a value from tokens. A value that is left out is null, and a key has to be a text or an integer.

## Contents
- **Scalars.** `resolve?` gives a scalar without quotes its type.
- **`Key`, `Entries`.** The entries of a mapping; `addNew?` refuses a key that stands there already.
- **`node`.** Reads a value, in block form or between brackets.
-/

namespace LayeredConfig.Document.Yaml

open Text Number

/-! ## Scalars -/

/-- The sign and the digits of an integer in a base, if it has 64 bits. -/
def basedInteger (base : Nat) (t : Text) : Option Int := do
  let (negative, ds) := Decimal.readSign t
  if ds.isEmpty then failure
  let n ← ds.foldlM (fun n c => ((Json.hexDigit? c).filter (· < base)).map fun d => base * n + d) 0
  let i : Int := if negative then -(n : Int) else n
  if (Range.signed 64).least ≤ i ∧ i ≤ (Range.signed 64).greatest then return i else failure

/-- The integer of a plain scalar, in decimal notation or behind `0x` or `0o`. -/
def integer? (t : Text) : Option Int :=
  let decimal (t : Text) : Option Int := ((Range.signed 64).parse t).toOption
  match t with
  | '0' :: 'x' :: r => (basedInteger 16 r).or (decimal t)
  | '0' :: 'o' :: r => (basedInteger 8 r).or (decimal t)
  | '+' :: r => (decimal r).or (decimal t)
  | _ => decimal t

/-- The value that a word names which is no number in digits: an infinity or the value that is no number,
in letters of any size. -/
def namedFloat? (t : Text) : Option Binary64 :=
  let (negative, r) := Decimal.readSign t
  let word := asciiLower r
  if word = "inf".toList ∨ word = "infinity".toList then some (.infinite negative)
  else if word = "nan".toList then some .notANumber
  else none

/-- The floating-point number of a plain scalar. -/
def float? (t : Text) : Option Binary64 :=
  (namedFloat? t).or ((Decimal.parse t).map Decimal.toBinary)

/-- The value of a plain scalar: null, a truth value, an integer or a floating-point number where it reads as
one, and a text otherwise. -/
def resolve (t : Text) : Value :=
  if t = [] ∨ t = ['~'] ∨ t = "null".toList then .null
  else if t = "true".toList then .bool true
  else if t = "false".toList then .bool false
  else match integer? t, float? t with
    | some n, _ => .integer n
    | none, some x => .float x
    | none, none => .text t

/-- The plain scalars with a point that name an infinity or the value that is no number; a file that holds
one is refused. -/
def isDottedName (t : Text) : Bool :=
  let (_, r) := Decimal.readSign t
  [".inf".toList, ".Inf".toList, ".INF".toList].contains r || [".nan".toList, ".NAN".toList].contains t

/-- The value of a plain scalar that is allowed. -/
def resolve? (t : Text) : Option Value := if isDottedName t then none else some (resolve t)

/-! ## Entries -/

/-- The key of an entry of a mapping. -/
inductive Key where
  | text (t : Text)
  | integer (n : Int)
  deriving DecidableEq, Repr

namespace Key

/-- The key that a value makes. -/
def ofValue? : Value → Option Key
  | .text t => some (.text t)
  | .integer n => some (.integer n)
  | _ => none

/-- The spelling of a key. -/
def toText : Key → Text
  | .text t => t
  | .integer n => Text.ofInt n

end Key

/-- The entries of a mapping in order. -/
abbrev Entries := List (Key × Value)

/-- Adds an entry whose key is new. -/
def addNew? (es : Entries) (key : Key) (v : Value) : Option Entries :=
  if (es.map Prod.fst).contains key then none else some (es ++ [(key, v)])

/-- The table of the entries of a mapping. Of two keys with one spelling, an integer and a text, the later one
counts. -/
def tableOf (es : Entries) : Value :=
  .table (es.foldl (fun t e => Value.alterEntry (fun _ => e.2) e.1.toText t) [])

/-! ## Values -/

/-- Where a value stands: alone or as an item in a block, as the key or the value of an entry of a block, where
the items of a sequence may stand at the column of the key, or between brackets. -/
inductive Place where
  | block
  | entry
  | flow
  deriving DecidableEq, Repr

namespace Place

/-- Whether a token shows that the value in front of it was left out. -/
def omits (p : Place) (t : Token) : Bool :=
  match p, t with
  | .block, .dash => true
  | .block, .key => true
  | .block, .value => true
  | .block, .blockEnd => true
  | .entry, .key => true
  | .entry, .value => true
  | .entry, .blockEnd => true
  | .flow, .comma => true
  | .flow, .closing _ => true
  | _, _ => false

end Place

mutual

/-- Reads a value; `room` bounds the steps. -/
def node : Nat → Place → List Token → Option (Value × List Token)
  | 0, _, _ => none
  | room + 1, p, ts =>
      match p, ts with
      | _, .plain t :: r => (resolve? t).map fun v => (v, r)
      | _, .quoted t :: r => some (.text t, r)
      | _, .opening .square :: r => (flowItems room true r).map fun q => (.list q.1, q.2)
      | _, .opening .curly :: r => (flowEntries room true [] r).map fun q => (tableOf q.1, q.2)
      | .entry, .dash :: r => (looseItems room (.dash :: r)).map fun q => (.list q.1, q.2)
      | .flow, _ => none
      | _, .sequenceStart :: r => (blockItems room r).map fun q => (.list q.1, q.2)
      | _, .mappingStart :: r => (blockEntries room [] r).map fun q => (tableOf q.1, q.2)
      | _, _ => none

/-- Reads a value that may be left out. -/
def optionalNode : Nat → Place → List Token → Option (Value × List Token)
  | 0, _, _ => none
  | room + 1, p, ts => if ts.head?.any p.omits then some (.null, ts) else node room p ts

/-- Reads the value of an entry, if its token stands here. -/
def valuePart : Nat → Place → List Token → Option (Value × List Token)
  | 0, _, _ => none
  | room + 1, p, .value :: r => optionalNode room p r
  | _ + 1, _, ts => some (.null, ts)

/-- Reads the items of a sequence in block form. -/
def blockItems : Nat → List Token → Option (List Value × List Token)
  | 0, _ => none
  | _ + 1, .blockEnd :: r => some ([], r)
  | room + 1, .dash :: r => do
      let (v, r) ← optionalNode room .block r
      let (vs, rest) ← blockItems room r
      return (v :: vs, rest)
  | _ + 1, _ => none

/-- Reads the items of a sequence in block form at the column of its key; no token ends it. -/
def looseItems : Nat → List Token → Option (List Value × List Token)
  | 0, _ => none
  | room + 1, .dash :: r => do
      let (v, r) ← optionalNode room .block r
      let (vs, rest) ← looseItems room r
      return (v :: vs, rest)
  | _ + 1, ts => some ([], ts)

/-- Reads the entries of a mapping in block form onto those read before. -/
def blockEntries : Nat → Entries → List Token → Option (Entries × List Token)
  | 0, _, _ => none
  | _ + 1, es, .blockEnd :: r => some (es, r)
  | room + 1, es, .key :: r => do
      let (k, r) ← node room .entry r
      let key ← Key.ofValue? k
      let (v, r) ← valuePart room .entry r
      blockEntries room (← addNew? es key v) r
  | _ + 1, _, _ => none

/-- Reads the items of a sequence between brackets; `first` says whether none was read before. An item with a
key is a mapping of one entry. -/
def flowItems : Nat → Bool → List Token → Option (List Value × List Token)
  | 0, _, _ => none
  | _ + 1, _, .closing .square :: r => some ([], r)
  | room + 1, true, .key :: r => do
      let (k, r) ← node room .flow r
      let key ← Key.ofValue? k
      let (v, r) ← valuePart room .flow r
      let (vs, rest) ← flowItems room false r
      return (tableOf [(key, v)] :: vs, rest)
  | room + 1, true, ts => do
      let (v, r) ← node room .flow ts
      let (vs, rest) ← flowItems room false r
      return (v :: vs, rest)
  | room + 1, false, .comma :: r => flowItems room true r
  | _ + 1, false, _ => none

/-- Reads the entries of a mapping between brackets onto those read before; `first` says whether no comma has
to stand here. An entry without a colon has no value. -/
def flowEntries : Nat → Bool → Entries → List Token → Option (Entries × List Token)
  | 0, _, _, _ => none
  | _ + 1, _, es, .closing .curly :: r => some (es, r)
  | room + 1, true, es, ts => do
      let isMarked := match ts with
        | .key :: _ => true
        | _ => false
      let (k, r) ← node room .flow (if isMarked then ts.tail else ts)
      let key ← Key.ofValue? k
      let (v, r) ← if isMarked then valuePart room .flow r else some (.null, r)
      flowEntries room false (← addNew? es key v) r
  | room + 1, false, es, .comma :: r => flowEntries room true es r
  | _ + 1, false, _, _ => none

end

/-- Reads a value from tokens in a block. -/
def blockNode (ts : List Token) : Option (Value × List Token) := node (4 * ts.length + 4) .block ts

end LayeredConfig.Document.Yaml
