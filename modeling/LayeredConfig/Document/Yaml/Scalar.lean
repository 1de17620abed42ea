import LayeredConfig.Document.Json
import LayeredConfig.Document.Yaml.Cursor

/-!
# `LayeredConfig.Document.Yaml.Scalar` — scalars in and without quotes

A scalar may go on over several lines. A single end of line inside it is a blank; of more than one, each but
the first counts.

## Contents
- **Folding.** `skipFold` moves over the blanks and ends of lines inside a scalar.
- **`quoted`.** Reads a scalar in single or double quotes.
- **`plain`.** Reads a scalar without quotes.
-/

namespace LayeredConfig.Document.Yaml

/-! ## Folding -/

/-- Moves over blanks and ends of lines inside a scalar. `lines` is the number of ends of lines that count,
or nothing as long as there was none; `onTab` moves over a tab where the line has to be indented by blanks.
`room` bounds the steps. -/
def skipFold (indent : Int) (onTab : Cursor → Option Cursor) :
    Nat → Option Nat → Cursor → Option (Option Nat × Cursor)
  | 0, lines, c => some (lines, c)
  | room + 1, lines, c =>
      match c.rest with
      | [] => some (lines, c)
      | x :: _ =>
          if isLineEnd x then
            skipFold indent onTab room (if c.fresh then lines.map (· + 1) else some (lines.getD 0)) c.nextLine
          else if c.atForeignTab indent then (onTab c).bind (skipFold indent onTab room lines)
          else if isSpace x then skipFold indent onTab room lines c.step
          else some (lines, c)

/-- What the blanks and ends of lines at a place amount to: the blanks as they are within a line, a blank for
one end of line. -/
def foldedText (c : Cursor) : Option Nat → Text
  | none => c.rest.takeWhile isSpace
  | some 0 => [' ']
  | some n => List.replicate n '\n'

/-! ## Escapes -/

/-- The character of a one-letter escape. -/
def escape? (c : Char) : Option Char :=
  match c with
  | '0' => some (Char.ofNat 0)
  | 'a' => some (Char.ofNat 7)
  | 'b' => some (Char.ofNat 8)
  | 't' => some '\t'
  | '\t' => some '\t'
  | 'n' => some '\n'
  | 'v' => some (Char.ofNat 11)
  | 'f' => some (Char.ofNat 12)
  | 'r' => some '\r'
  | 'e' => some (Char.ofNat 27)
  | ' ' => some ' '
  | '"' => some '"'
  | '/' => some '/'
  | '\\' => some '\\'
  | 'N' => some (Char.ofNat 0x85)
  | '_' => some (Char.ofNat 0xa0)
  | 'L' => some (Char.ofNat 0x2028)
  | 'P' => some (Char.ofNat 0x2029)
  | _ => none

/-- The number of hexadecimal digits behind the letter of an escape. -/
def escapeWidth? : Char → Option Nat
  | 'x' => some 2
  | 'u' => some 4
  | 'U' => some 8
  | _ => none

/-- The character that an escape of so many hexadecimal digits stands for. -/
def numericEscape? (width : Nat) (t : Text) : Option Char := do
  if t.length < width then failure
  let n ← Json.hexValue? (t.take width)
  if n.isValidChar then return Char.ofNat n else failure

/-- The character of an escape behind the backslash, and the number of characters that it takes. -/
def readEscape : Text → Option (Char × Nat)
  | [] => none
  | c :: r => match escapeWidth? c with
    | some width => (numericEscape? width r).map fun x => (x, width + 1)
    | none => (escape? c).map fun x => (x, 1)

/-! ## Quoted scalars -/

/-- The two kinds of quotes. -/
inductive Quote where
  | single
  | double
  deriving DecidableEq, Repr

namespace Quote

/-- The quote that a character is. -/
def ofChar? (c : Char) : Option Quote :=
  if c = '"' then some double else if c.toNat = 0x27 then some single else none

/-- Whether a text goes on with the quote. -/
def startsAt (q : Quote) (t : Text) : Bool := t.head?.bind ofChar? == some q

end Quote

/-- Whether a scalar in quotes may go on at a place: the text is not over, and the line is indented. -/
def continues (indent : Int) (c : Cursor) : Bool :=
  !c.rest.isEmpty && !c.atMarker && decide (indent ≤ (c.column : Int))

/-- Moves over blanks and ends of lines inside quotes, behind which the scalar has to go on. -/
def quotedFold (indent : Int) (room : Nat) (lines : Option Nat) (c : Cursor) : Option (Option Nat × Cursor) :=
  (skipFold indent (fun _ => none) room lines c).filter fun p => continues indent p.2

/-- Reads a scalar in quotes behind the opening one. A quote stands for itself when it is doubled between
single ones; an escaped end of line between double ones does not count. `room` bounds the steps. -/
def quotedFrom (q : Quote) (indent : Int) : Nat → Cursor → Option (Text × Cursor)
  | 0, _ => none
  | room + 1, c =>
      match c.rest with
      | [] => none
      | x :: r =>
          if isGap x then do
            let (lines, next) ← quotedFold indent room none c
            let (t, last) ← quotedFrom q indent room next
            return (foldedText c lines ++ t, last)
          else if Quote.ofChar? x = some q then
            if q = .single ∧ q.startsAt r then do
              let (t, last) ← quotedFrom q indent room (c.steps 2)
              return (x :: t, last)
            else some ([], c.step)
          else if q = .double ∧ x = '\\' then
            if r.head?.any isLineEnd then
              let below := c.step.nextLine
              if q.startsAt below.rest then some ([], below.step)
              else do
                let (lines, next) ← quotedFold indent room (some 0) below
                let (t, last) ← quotedFrom q indent room next
                return (List.replicate (lines.getD 0) '\n' ++ t, last)
            else do
              let (y, width) ← readEscape r
              let (t, last) ← quotedFrom q indent room (c.steps (width + 1))
              return (y :: t, last)
          else do
            let (t, last) ← quotedFrom q indent room c.step
            return (x :: t, last)

/-- Whether what follows a scalar in quotes may stand there: the end of the line, a mark between brackets, or
the colon of a key, which outside brackets stands on the line where the scalar starts. -/
def endsQuoted (flow : Bool) (first : Cursor) (c : Cursor) : Bool :=
  c.atLineEnd ||
    match c.rest with
    | ':' :: _ => flow || c.line == first.line
    | x :: _ => flow && (x == ',' || x == ']' || x == '\x7d')
    | [] => true

/-- Reads a scalar in quotes to the end of its line or to the next token; `room` bounds the steps. -/
def quoted (q : Quote) (flow : Bool) (indent : Int) (room : Nat) (c : Cursor) : Option (Text × Cursor) := do
  let (t, last) ← quotedFrom q indent room c.step
  let last ← last.skipTrail?
  if endsQuoted flow c last then return (t, last) else failure

/-! ## Plain scalars -/

/-- Whether a scalar without quotes ends here: at a colon that ends a key, and between brackets at a mark. -/
def endsPlain (flow : Bool) : Text → Bool
  | [] => true
  | c :: r => (c == ':' && (atGap r || (flow && atFlowMark r))) || (flow && isFlowMark c)

/-- The part of a scalar without quotes up to a blank or its end. -/
def plainRun (flow : Bool) : Text → Text
  | [] => []
  | c :: r => if isGap c || endsPlain flow (c :: r) then [] else c :: plainRun flow r

/-- Reads a scalar without quotes whose further lines are indented by a column. It ends before a comment, a
marker of documents and a line that is not indented; between brackets no word may be a dash before a mark.
`room` bounds the steps. -/
def plainFrom (flow : Bool) (indent : Int) : Nat → Cursor → Option (Text × Cursor)
  | 0, c => some ([], c)
  | room + 1, c =>
      if c.atMarker || c.rest.head? == some '#' then some ([], c)
      else if flow && c.rest.head? == some '-' && atFlowMark c.rest.tail then none
      else
        let run := plainRun flow c.rest
        let here := c.steps run.length
        if here.rest.head?.any isGap then do
          let (lines, next) ← skipFold indent Cursor.skipEmptyLine? room none here
          if !flow && decide ((next.column : Int) < indent) then return (run, next)
          else
            let (more, last) ← plainFrom flow indent room next
            return (if more.isEmpty then run else run ++ foldedText here lines ++ more, last)
        else some (run, here)

/-- Reads a scalar without quotes in a block at a column; between brackets it has to be indented itself.
`room` bounds the steps. -/
def plain (flow : Bool) (indent : Int) (room : Nat) (c : Cursor) : Option (Text × Cursor) :=
  if flow && decide ((c.column : Int) < indent + 1) then none
  else plainFrom flow (indent + 1) room c

end LayeredConfig.Document.Yaml
