import LayeredConfig.Document.Json

/-!
# `LayeredConfig.Document.Toml` — TOML texts

Reads a TOML text: assignments, tables and arrays of tables. Nothing may be defined twice.

## Contents
- **`Node`.** What is defined so far; `assign`, `openTable`, `openItem` add to it or refuse.
- **Scalars.** Strings, integers of 64 bits, floating-point numbers, truth values.
- **Values.** Arrays and inline tables.
- **`Toml.parse`.** The entries of a whole text.
-/

namespace LayeredConfig.Document.Toml

open Text Number

/-! ## Definitions -/

/-- How a table came to be: by a table below it, by its own header, or by a dotted key. -/
inductive TableOrigin where
  | implied
  | header
  | dotted
  deriving DecidableEq, Repr

/-- What is defined under a key. -/
inductive Node where
  | value (v : Value)
  | table (origin : TableOrigin) (entries : List (Text × Node))
  /-- An array of tables, the last one first. -/
  | tables (last : List (Text × Node)) (before : List (List (Text × Node)))

/-- The entries of a table or of the last table of an array. -/
abbrev Entries := List (Text × Node)

/-- Puts a node under a key, in the place of the one that stands there. -/
def setEntry (key : Text) (n : Node) : Entries → Entries
  | [] => [(key, n)]
  | e :: r => if e.1 = key then (key, n) :: r else e :: setEntry key n r

/-- Defines a value under a dotted key. The tables on the way are new, or were made by dotted keys or by
headers of tables below them, or are the last ones of arrays; the last table was made by a dotted key.
`origin` is that of the table at hand. -/
def assign (v : Value) : List Text → TableOrigin → Bool → Entries → Option Entries
  | [], _, _, _ => none
  | [key], origin, below, es =>
      if below && origin != .dotted then none
      else match lookupKey key es with
        | none => some (setEntry key (.value v) es)
        | some _ => none
  | key :: rest, _, _, es =>
      match lookupKey key es with
      | none => (assign v rest .dotted true []).map fun t => setEntry key (.table .dotted t) es
      | some (.table .header _) => none
      | some (.table o t) => (assign v rest o true t).map fun t => setEntry key (.table o t) es
      | some (.tables t before) =>
          (assign v rest .header true t).map fun t => setEntry key (.tables t before) es
      | some (.value _) => none

/-- Changes the entries that a path of headers leads to; missing tables on the way are implied. -/
def descend (f : Entries → Option Entries) : List Text → Entries → Option Entries
  | [], es => f es
  | key :: rest, es =>
      match lookupKey key es with
      | none => (descend f rest []).map fun t => setEntry key (.table .implied t) es
      | some (.table o t) => (descend f rest t).map fun t => setEntry key (.table o t) es
      | some (.tables t before) => (descend f rest t).map fun t => setEntry key (.tables t before) es
      | some (.value _) => none

/-- Opens a table by its header; one that was only implied so far may be opened once. -/
def openTable (key : Text) (es : Entries) : Option Entries :=
  match lookupKey key es with
  | none => some (setEntry key (.table .header []) es)
  | some (.table .implied t) => some (setEntry key (.table .header t) es)
  | some _ => none

/-- Opens the next table of an array of tables. -/
def openItem (key : Text) (es : Entries) : Option Entries :=
  match lookupKey key es with
  | none => some (setEntry key (.tables [] []) es)
  | some (.tables last before) => some (setEntry key (.tables [] (last :: before)) es)
  | some _ => none

mutual

/-- The value of a node. -/
def Node.toValue : Node → Value
  | .value v => v
  | .table _ es => .table (entryValues es)
  | .tables last before => .list ((tableValues before).reverse ++ [.table (entryValues last)])

/-- The values of entries. -/
def entryValues : List (Text × Node) → List (Text × Value)
  | [] => []
  | (key, n) :: r => (key, n.toValue) :: entryValues r

/-- The values of tables. -/
def tableValues : List (List (Text × Node)) → List Value
  | [] => []
  | es :: r => .table (entryValues es) :: tableValues r

end

/-! ## Blanks and comments -/

/-- Drops blanks inside a line. -/
def skipSpaces (t : Text) : Text := t.dropWhile fun c => c == ' ' || c == '\t'

/-- Whether a character may stand in a text as it is: it controls nothing but the distance. -/
def isTextChar (c : Char) : Bool := c == '\t' || (0x20 ≤ c.toNat && c.toNat != 0x7f)

/-- Drops a comment up to the first character that it may not hold. -/
def skipComment : Text → Text
  | '#' :: r => r.dropWhile isTextChar
  | t => t

/-- Drops one end of line; there may be a carriage return before it. -/
def lineEnd? : Text → Option Text
  | '\n' :: r => some r
  | '\r' :: '\n' :: r => some r
  | _ => none

/-- Drops blanks, comments and ends of lines; `room` bounds the number of lines. -/
def skipLines : Nat → Text → Text
  | 0, t => t
  | room + 1, t =>
      let r := skipComment (skipSpaces t)
      match lineEnd? r with
      | some rest => skipLines room rest
      | none => r

/-! ## Strings and keys -/

/-- The character of a one-letter escape. -/
def escape? : Char → Option Char
  | '/' => none
  | c => Json.escape? c

/-- The character of a number, if there is one. -/
def charOf? (n : Nat) : Option Char := if n.isValidChar then some (Char.ofNat n) else none

/-- Reads a string in double quotes behind the opening one. -/
def basicFrom : Text → Option (Text × Text)
  | [] => none
  | '\\' :: 'u' :: a :: b :: c :: d :: r => do
      let x ← charOf? (← Json.hexValue? [a, b, c, d])
      (basicFrom r).map fun p => (x :: p.1, p.2)
  | '\\' :: 'U' :: a :: b :: c :: d :: e :: f :: g :: h :: r => do
      let x ← charOf? (← Json.hexValue? [a, b, c, d, e, f, g, h])
      (basicFrom r).map fun p => (x :: p.1, p.2)
  | '\\' :: c :: r => do
      let x ← escape? c
      (basicFrom r).map fun p => (x :: p.1, p.2)
  | c :: r =>
      if c = '"' then some ([], r)
      else if isTextChar c then (basicFrom r).map fun p => (c :: p.1, p.2)
      else none

/-- Reads a string in single quotes behind the opening one; it has no escapes. -/
def literalFrom : Text → Option (Text × Text)
  | [] => none
  | c :: r =>
      if c.toNat = 0x27 then some ([], r)
      else if isTextChar c then (literalFrom r).map fun p => (c :: p.1, p.2)
      else none

/-- Whether a character may stand in a bare key. -/
def isBareChar (c : Char) : Bool := c.isAlphanum || c == '_' || c == '-'

/-- Reads one part of a key. -/
def keyPart (t : Text) : Option (Text × Text) :=
  match t with
  | [] => none
  | c :: r =>
      if c = '"' then basicFrom r
      else if c.toNat = 0x27 then literalFrom r
      else
        let key := t.takeWhile isBareChar
        if key.isEmpty then none else some (key, t.dropWhile isBareChar)

/-- Reads a dotted key of at most so many parts. -/
def keyParts : Nat → Text → Option (List Text × Text)
  | 0, _ => none
  | room + 1, t => do
      let (k, r) ← keyPart (skipSpaces t)
      match skipSpaces r with
      | '.' :: r =>
          let (ks, rest) ← keyParts room r
          return (k :: ks, rest)
      | rest => return ([k], rest)

/-- How deep arrays and inline tables may be nested. A dotted key has fewer parts. -/
def maxDepth : Nat := 80

/-- Reads a dotted key. -/
def dottedKey (t : Text) : Option (List Text × Text) := keyParts (maxDepth - 1) t

/-! ## Numbers and truth values -/

/-- Whether a character may stand in a scalar without quotes. -/
def isScalarChar (c : Char) : Bool := c.isAlphanum || c == '_' || c == '+' || c == '-' || c == '.'

/-- Removes underscores, each of which has to stand between two digits. -/
def removeUnderscores (digit : Char → Bool) : Text → Option Text
  | [] => some []
  | [c] => if c = '_' then none else some [c]
  | '_' :: _ => none
  | a :: '_' :: b :: r =>
      if digit a && digit b then (removeUnderscores digit (b :: r)).map (a :: ·) else none
  | a :: r => (removeUnderscores digit r).map (a :: ·)

/-- The digits of a base. -/
def digitOf? (base : Nat) (c : Char) : Option Nat :=
  (Json.hexDigit? c).filter fun d => d < base

/-- The integer of digits in a base, if it has 63 bits. -/
def basedInteger (base : Nat) (t : Text) : Option Value := do
  let ds ← removeUnderscores (fun c => (digitOf? base c).isSome) t
  if ds.isEmpty then failure
  let n ← ds.foldlM (fun n c => (digitOf? base c).map fun d => base * n + d) 0
  if n < Nat.pow 2 63 then return .integer n else failure

/-- Whether digits start with a zero that is not their only one. -/
def hasLeadingZero (t : Text) : Bool := t.head? == some '0' && 1 < t.length

/-- A floating-point number that is not too large. -/
def finiteFloat (t : Text) : Option Value := do
  let x := (← Decimal.parse t).toBinary
  if x = .infinite false then failure else return .float x

/-- The number of a text in decimal notation: an integer of 64 bits when it has neither a point nor an
exponent. -/
def decimalNumber (t : Text) : Option Value := do
  let t ← removeUnderscores Char.isDigit t
  let (_, r) := Decimal.readSign t
  let whole := r.takeWhile Char.isDigit
  let rest := r.dropWhile Char.isDigit
  if whole.isEmpty || hasLeadingZero whole then failure
  match rest with
  | [] => match (Range.signed 64).parse t with
    | .ok n => return .integer n
    | .error _ => none
  | '.' :: c :: _ =>
      if c.isDigit then finiteFloat t else none
  | '.' :: [] => none
  | _ => finiteFloat t

/-- The value of a scalar without quotes. -/
def plainScalar (t : Text) : Option Value :=
  match t with
  | ['t', 'r', 'u', 'e'] => some (.bool true)
  | ['f', 'a', 'l', 's', 'e'] => some (.bool false)
  | '0' :: 'x' :: r => basedInteger 16 r
  | '0' :: 'o' :: r => basedInteger 8 r
  | '0' :: 'b' :: r => basedInteger 2 r
  | _ =>
      let (negative, r) := Decimal.readSign t
      if r = ['i', 'n', 'f'] then some (.float (.infinite negative))
      else if r = ['n', 'a', 'n'] then some (.float .notANumber)
      else decimalNumber t

/-! ## Values -/

mutual

/-- Reads a value with so many levels below it; `room` bounds the steps. -/
def valueFrom : Nat → Nat → Text → Option (Value × Text)
  | 0, _, _ => none
  | room + 1, levels, t =>
      match t, levels with
      | [], _ => none
      | '[' :: _, 0 => none
      | '[' :: r, levels + 1 => match skipLines r.length r with
        | ']' :: rest => some (.list [], rest)
        | r => (itemsFrom room levels r).map fun p => (.list p.1, p.2)
      | '\x7b' :: _, 0 => none
      | '\x7b' :: r, levels + 1 => match skipSpaces r with
        | '\x7d' :: rest => some (.table [], rest)
        | r => (entriesFrom room levels [] r).map fun p => (.table (entryValues p.1), p.2)
      | c :: r, _ =>
          if c = '"' then (basicFrom r).map fun p => (.text p.1, p.2)
          else if c.toNat = 0x27 then (literalFrom r).map fun p => (.text p.1, p.2)
          else (plainScalar (t.takeWhile isScalarChar)).map fun v => (v, t.dropWhile isScalarChar)

/-- Reads the items of an array, the first of which stands at the start. -/
def itemsFrom : Nat → Nat → Text → Option (List Value × Text)
  | 0, _, _ => none
  | room + 1, levels, t => do
      let (v, r) ← valueFrom room levels t
      match skipLines r.length r with
      | ']' :: rest => return ([v], rest)
      | ',' :: r => match skipLines r.length r with
        | ']' :: rest => return ([v], rest)
        | r =>
            let (vs, rest) ← itemsFrom room levels r
            return (v :: vs, rest)
      | _ => none

/-- Reads the entries of an inline table onto those read before. -/
def entriesFrom : Nat → Nat → Entries → Text → Option (Entries × Text)
  | 0, _, _, _ => none
  | room + 1, levels, es, t => do
      let (keys, r) ← dottedKey t
      match r with
      | '=' :: r =>
          let (v, r) ← valueFrom room levels (skipSpaces r)
          let es ← assign v keys .dotted false es
          match skipSpaces r with
          | ',' :: r => entriesFrom room levels es r
          | '\x7d' :: rest => return (es, rest)
          | _ => none
      | _ => none

end

/-! ## Lines -/

/-- What a text defines so far, and the header under which it goes on. -/
structure Draft where
  entries : Entries
  header : List Text

/-- Opens the table or the item that a header names. -/
def openHeader (opens : Text → Entries → Option Entries) (keys : List Text) (d : Draft) : Option Draft :=
  match keys.getLast? with
  | some last => (descend (opens last) keys.dropLast d.entries).map fun es => ⟨es, keys⟩
  | none => none

/-- Reads the rest of a header behind its keys. -/
def closeHeader (closing : Text) (t : Text) : Option Text := afterPrefix? closing t

/-- Reads one statement: a header or an assignment. -/
def statement (t : Text) (d : Draft) : Option (Draft × Text) :=
  match t with
  | '[' :: '[' :: r => do
      let (keys, r) ← dottedKey r
      let rest ← closeHeader [']', ']'] r
      return (← openHeader openItem keys d, rest)
  | '[' :: r => do
      let (keys, r) ← dottedKey r
      let rest ← closeHeader [']'] r
      return (← openHeader openTable keys d, rest)
  | _ => do
      let (keys, r) ← dottedKey t
      match r with
      | '=' :: r =>
          let (v, rest) ← valueFrom (2 * r.length + 2) maxDepth (skipSpaces r)
          let es ← descend (assign v keys .dotted false) d.header d.entries
          return (⟨es, d.header⟩, rest)
      | _ => none

/-- Reads statements to the end of the text; `room` bounds their number. -/
def statementsFrom : Nat → Text → Draft → Option Draft
  | 0, _, _ => none
  | room + 1, t, d =>
      match skipLines t.length t with
      | [] => some d
      | t => do
          let (d, r) ← statement t d
          match skipComment (skipSpaces r) with
          | [] => return d
          | r => match lineEnd? r with
            | some rest => statementsFrom room rest d
            | none => none

/-- The entries of a whole text. -/
def parse (t : Text) : Option (List (Text × Value)) :=
  let t := dropEncodingMark t
  (statementsFrom (t.length + 1) t ⟨[], []⟩).map fun d => entryValues d.entries

end LayeredConfig.Document.Toml
