import LayeredConfig.Document.Yaml.Scalar

/-!
# `LayeredConfig.Document.Yaml.Token` — a text as tokens

Cuts a text into tokens. The start and the end of a block are tokens as well, although nothing is written for
them: a block ends where a token stands to the left of its column. A key shows only when its colon is read,
so the place of every token that may start one is kept until then.

## Contents
- **`Token`.** The tokens.
- **`Scan`.** What is read so far, the open blocks and the keys that wait for a colon.
- **Blocks.** `openBlock`, `closeBlocks`.
- **Keys.** `awaitColon`, `forgetKey`, `dropStaleKey`.
- **Steps.** One function for each kind of token; `step` chooses.
- **`tokens`.** The tokens of a whole text.
-/

namespace LayeredConfig.Document.Yaml

/-! ## Tokens -/

/-- The two kinds of brackets. -/
inductive Bracket where
  | square
  | curly
  deriving DecidableEq, Repr

/-- A part of a text. -/
inductive Token where
  | documentStart
  | documentEnd
  /-- The start of a sequence in block form. -/
  | sequenceStart
  /-- The start of a mapping in block form. -/
  | mappingStart
  | blockEnd
  | dash
  | key
  | value
  | opening (b : Bracket)
  | closing (b : Bracket)
  | comma
  | quoted (t : Text)
  | plain (t : Text)
  deriving DecidableEq, Repr

/-! ## State -/

/-- A place where a key may start: how many tokens stand before it, and whether a colon has to follow. -/
structure Candidate where
  required : Bool
  position : Nat
  line : Nat
  index : Nat
  column : Nat
  deriving DecidableEq, Repr

/-- An indentation that is left again: the one around it, and whether a block ends with it. -/
structure Indent where
  around : Int
  isBlock : Bool
  deriving DecidableEq, Repr

/-- What is read so far. -/
structure Scan where
  here : Cursor
  /-- The tokens, the last one first. -/
  found : List Token
  /-- Whether a key may start here. -/
  keyAllowed : Bool
  /-- The key that waits for its colon between the innermost brackets. -/
  candidate : Option Candidate
  /-- The keys that wait for their colons around each open bracket, the innermost first. -/
  outer : List (Option Candidate)
  /-- The least column of a token; there is no block as long as it is negative. -/
  indent : Int
  indents : List Indent
  /-- Whether a mapping was opened by a brace or by a question mark. -/
  mappingStarted : Bool
  /-- Whether an item of a sequence in brackets is a mapping without braces. -/
  bareMapping : Bool
  /-- The place behind a quoted scalar or a bracket, where a colon needs no blank behind it. -/
  adjacentAt : Nat
  /-- A bound of the steps that anything takes: there are more than characters. -/
  room : Nat
  deriving Repr

namespace Scan

/-- The start of a text. -/
def start (t : Text) : Scan := ⟨.start t, [], true, none, [], -1, [], false, false, 0, t.length + 1⟩

/-- Whether the place is between brackets. -/
def inFlow (s : Scan) : Bool := !s.outer.isEmpty

/-- Adds a token. -/
def emit (t : Token) (s : Scan) : Scan := { s with found := t :: s.found }

/-- Adds a token in front of those that stand behind a position. -/
def emitAt (position : Nat) (t : Token) (s : Scan) : Scan :=
  let later := s.found.length - position
  { s with found := s.found.take later ++ t :: s.found.drop later }

/-- Moves to another place. -/
def moveTo (here : Cursor) (s : Scan) : Scan := { s with here }

/-- Moves over blanks and a comment of the line. -/
def skipTrail? (s : Scan) : Option Scan := s.here.skipTrail?.map fun c => s.moveTo c

/-- Moves to the next token. In a block a key may start on a new line. -/
def skipGaps? (s : Scan) : Option Scan :=
  (s.here.skipGaps s.indent s.room).map fun c =>
    { s with here := c, keyAllowed := s.keyAllowed || (!s.inFlow && c.line != s.here.line) }

/-! ## Blocks -/

/-- Whether the innermost indentation is that of a block. -/
def inBlock (s : Scan) : Bool := s.indents.head?.any Indent.isBlock

/-- Asks for one more column than the block has. -/
def indentMore (s : Scan) : Scan :=
  if !s.inFlow && s.inBlock then
    { s with indents := ⟨s.indent, false⟩ :: s.indents, indent := s.indent + 1 }
  else s

/-- Takes back the columns that were asked for without a block. -/
def indentLess (s : Scan) : Scan :=
  match s.indents.span fun i => !i.isBlock with
  | (asked, blocks) => { s with indents := blocks, indent := (asked.getLast?.map Indent.around).getD s.indent }

/-- Opens a block at a column unless one stands there, and adds the token of its start at a position. -/
def openBlock (column : Nat) (position : Nat) (t : Token) (s : Scan) : Scan :=
  if s.inFlow then s
  else
    let s := match s.indents with
      | ⟨around, false⟩ :: r => if s.indent ≤ (column : Int) then { s with indents := r, indent := around } else s
      | _ => s
    if s.indent < (column : Int) then
      emitAt position t { s with indents := ⟨s.indent, true⟩ :: s.indents, indent := column }
    else s

/-- Opens a block at a column; the token of its start is the next one. -/
def openBlockHere (column : Nat) (t : Token) (s : Scan) : Scan := s.openBlock column s.found.length t

/-- Ends the blocks among open indentations to the right of a column: the tokens that are added, and the
indentations and the column that are left. -/
def closeTo (column : Int) : List Indent → Int → List Token → List Token × List Indent × Int
  | [], indent, found => (found, [], indent)
  | i :: r, indent, found =>
      if column < indent then
        closeTo column r i.around (if i.isBlock then .blockEnd :: found else found)
      else (found, i :: r, indent)

/-- Ends the blocks to the right of a column. -/
def closeBlocks (column : Int) (s : Scan) : Scan :=
  if s.inFlow then s
  else
    let (found, indents, indent) := closeTo column s.indents s.indent s.found
    { s with found, indents, indent }

/-! ## Keys -/

/-- Notes that a key may start with the next token. A token at the column of its block has to be one. -/
def awaitColon (s : Scan) : Scan :=
  if s.keyAllowed then
    let c := s.here
    let required := !s.inFlow && s.indent == (c.column : Int) && s.inBlock
    { s with candidate := some ⟨required, s.found.length, c.line, c.index, c.column⟩ }
  else s

/-- Gives up the key that waits for its colon, which must not be required. -/
def forgetKey (s : Scan) : Option Scan :=
  if s.candidate.any Candidate.required then none else some { s with candidate := none }

/-- The greatest number of characters of a key with what parts it from its colon. -/
def maxKeyLength : Nat := 1024

/-- Gives up a key in a block that began on a line before or too far away. -/
def dropStaleKey (s : Scan) : Option Scan :=
  match s.candidate with
  | none => some s
  | some k =>
      if !s.inFlow && (k.line < s.here.line || k.index + maxKeyLength < s.here.index) then s.forgetKey
      else some s

/-! ## Steps between brackets -/

/-- Ends a mapping without braces. -/
def endBareMapping (s : Scan) : Scan :=
  if s.bareMapping then emit (.closing .curly) { s with bareMapping := false, mappingStarted := false } else s

/-- How deep brackets may be nested. -/
def maxBrackets : Nat := 255

/-- Reads an opening bracket. -/
def openBracket (b : Bracket) (s : Scan) : Option Scan := do
  let s := s.awaitColon.indentMore
  if maxBrackets ≤ s.outer.length then failure
  let s := { s with
    here := s.here.step, candidate := none, outer := s.candidate :: s.outer, keyAllowed := true,
    mappingStarted := s.mappingStarted || b == Bracket.curly }
  return (← s.skipTrail?).emit (.opening b)

/-- Reads a closing bracket. -/
def closeBracket (b : Bracket) (s : Scan) : Option Scan := do
  let s ← s.forgetKey
  let s := { s with candidate := s.outer.head?.join, outer := s.outer.tail, keyAllowed := false }
  let s ← (s.endBareMapping.moveTo s.here.step).skipTrail?
  return { s with adjacentAt := if s.inFlow then s.here.index else s.adjacentAt }.emit (.closing b)

/-- Reads a comma. -/
def readComma (s : Scan) : Option Scan := do
  let s ← s.forgetKey
  let s := { s with keyAllowed := true }.endBareMapping
  return (← (s.moveTo s.here.step).skipTrail?).emit .comma

/-! ## Steps in blocks -/

/-- Reads a dash that starts an item of a sequence. A further dash may not follow behind a tab. -/
def readDash (s : Scan) : Option Scan := do
  if s.inFlow || !s.keyAllowed then failure
  let behind := s.here.step
  let s := (s.openBlockHere s.here.column .sequenceStart).moveTo behind
  let s ← s.skipTrail?
  if (behind.rest.takeWhile isSpace).contains '\t' && startsItem s.here.rest then failure
  let s := if s.here.rest.head?.any isLineEnd || atFlowMark s.here.rest then s.indentMore else s
  let s ← s.forgetKey
  return { s with keyAllowed := true }.emit .dash

/-! ## Steps of keys and values -/

/-- Moves over blanks other than tabs, comments and ends of lines. `room` bounds the steps. -/
def skipPlainGaps : Nat → Cursor → Cursor
  | 0, c => c
  | room + 1, c =>
      match c.rest with
      | [] => c
      | x :: _ =>
          if x = ' ' then skipPlainGaps room c.step
          else if isLineEnd x then skipPlainGaps room c.nextLine
          else if x = '#' then skipPlainGaps room c.skipLine
          else c

/-- Reads a question mark that starts a key. A blank or the end of the line has to follow, and no tab. -/
def readQuestion (s : Scan) : Option Scan := do
  if !s.inFlow && !s.keyAllowed then failure
  let s := if s.inFlow then { s with mappingStarted := true } else s.openBlockHere s.here.column .mappingStart
  let s ← s.forgetKey
  let behind := s.here.step
  let next := skipPlainGaps s.room behind
  if next.index = behind.index ∨ next.rest.head? = some '\t' then failure
  return { s with here := next, keyAllowed := !s.inFlow }.emit .key

/-- Moves behind a colon. Behind tabs alone a word may not follow. -/
def skipColon? (c : Cursor) : Option Cursor :=
  let behind := c.step
  if behind.rest.head? = some '\t' then do
    let next ← behind.skipTrail?
    let isWord := next.rest.head?.any fun x => x.isAlphanum || x == '_' || x == '-'
    if isWord && !(behind.rest.takeWhile isSpace).contains ' ' then none else some next
  else some behind

/-- Turns the token that waits for its colon into a key. In a mapping without braces the colon stands on the
line of its key. -/
def makeKey (k : Candidate) (colonLine : Nat) (s : Scan) : Option Scan := do
  let s := s.emitAt k.position .key
  if s.bareMapping && decide (k.line < colonLine) then failure
  let s := if s.bareMapping then s.emitAt k.position (.opening .curly) else s
  let s := (s.openBlock k.column k.position .mappingStart).indentMore
  return { s with candidate := none, keyAllowed := false }

/-- Starts a value for which no key waits. -/
def makeBareValue (column : Nat) (s : Scan) : Option Scan := do
  let s := if s.bareMapping then s.emit (.opening .curly) else s
  if !s.inFlow && !s.keyAllowed then failure
  let s := (s.openBlockHere column .mappingStart).indentMore
  return { s with keyAllowed := !s.inFlow }

/-- Reads a colon that ends a key. -/
def readColon (s : Scan) : Option Scan := do
  let colon := s.here
  let next ← skipColon? colon
  let s := { s with here := next, bareMapping := s.inFlow && !s.mappingStarted }
  let s ← match s.candidate with
    | some k => s.makeKey k colon.line
    | none => s.makeBareValue colon.column
  return s.emit .value

/-! ## Steps of scalars -/

/-- Reads a scalar in quotes. -/
def readQuoted (q : Quote) (s : Scan) : Option Scan := do
  let s := { s.awaitColon with keyAllowed := false }
  let (t, last) ← quoted q s.inFlow s.indent s.room s.here
  let s ← (s.moveTo last).skipGaps?
  return { s with adjacentAt := s.here.index }.emit (.quoted t)

/-- Reads a scalar without quotes. -/
def readPlain (s : Scan) : Option Scan := do
  let s := { s.awaitColon with keyAllowed := false }.indentLess
  let (t, last) ← plain s.inFlow s.indent s.room s.here
  return { s with here := last, keyAllowed := last.fresh }.emit (.plain t)

/-! ## Steps -/

/-- Reads a marker of documents, behind which nothing follows on its line when it ends one. -/
def readMarker (s : Scan) : Option Scan := do
  let isStart := s.here.rest.head? == some '-'
  let s ← (s.closeBlocks (-1)).forgetKey
  let s := { s with here := s.here.steps 3, keyAllowed := false }
  if isStart then return s.emit .documentStart
  let s := s.emit .documentEnd
  let s ← s.skipTrail?
  if s.here.atLineEnd then return s else failure

/-- Whether a colon at the start of a text ends a key. -/
def atColon (s : Scan) (r : Text) : Bool :=
  atGap r || (s.inFlow && (atFlowMark r || s.here.index == s.adjacentAt))

/-- Whether a character starts a form that is not read: a reference, a tag, a block of lines or a
reserved one. -/
def isForeign (s : Scan) (c : Char) : Bool :=
  c == '*' || c == '&' || c == '!' || c == '%' || c == '@' || c.toNat == 0x60 ||
    (!s.inFlow && (c == '|' || c == '>'))

/-- Reads the token that starts with a character. -/
def readToken (c : Char) (r : Text) (s : Scan) : Option Scan :=
  match c with
  | '[' => s.openBracket .square
  | '\x7b' => s.openBracket .curly
  | ']' => s.closeBracket .square
  | '\x7d' => s.closeBracket .curly
  | ',' => s.readComma
  | '-' => if atGap r then s.readDash else s.readPlain
  | '?' => if atGap r then s.readQuestion else s.readPlain
  | ':' => if s.atColon r then s.readColon else s.readPlain
  | c =>
      if s.isForeign c then none
      else match Quote.ofChar? c with
        | some q => s.readQuoted q
        | none => s.readPlain

/-- Moves to the next token and ends the keys and blocks that do not reach so far. -/
def approach (s : Scan) : Option Scan := do
  let s ← (← s.skipGaps?).dropStaleKey
  return s.closeBlocks s.here.column

/-- Reads one token, which may not stand to the left of its block. -/
def step (c : Char) (r : Text) (s : Scan) : Option Scan :=
  if s.here.atMarker then s.readMarker
  else if (s.here.column : Int) < s.indent then none
  else s.readToken c r

/-- The tokens when the text is over. -/
def finish (s : Scan) : Option (List Token) := do
  return (← s.forgetKey).closeBlocks (-1) |>.found.reverse

/-- Reads tokens to the end of the text; `room` bounds their number. -/
def run (s : Scan) : Nat → Option (List Token)
  | 0 => none
  | room + 1 => do
      let s ← s.approach
      match s.here.rest with
      | [] => s.finish
      | c :: r => (← s.step c r).run room

end Scan

/-- The tokens of a whole text. -/
def tokens (t : Text) : Option (List Token) :=
  let s := Scan.start t
  s.run s.room

end LayeredConfig.Document.Yaml
