import LayeredConfig.Text.Basic

/-!
# `LayeredConfig.Document.Yaml.Cursor` — places in a text

In this format the columns count: a block is what stands in or to the right of a column. A cursor is what is
left of a text together with the place where it starts.

## Contents
- **Characters.** Blanks, ends of lines, the marks between brackets.
- **`Cursor`.** The place; `step`, `nextLine` and `skipWhile` move it.
- **Gaps.** `skipTrail?` ends a line, `skipGaps` leads to the next token.
-/

namespace LayeredConfig.Document.Yaml

/-! ## Characters -/

/-- Whether a character is a blank inside a line. -/
def isSpace (c : Char) : Bool := c == ' ' || c == '\t'

/-- Whether a character ends a line. -/
def isLineEnd (c : Char) : Bool := c == '\n' || c == '\r'

/-- Whether a character parts two words. -/
def isGap (c : Char) : Bool := isSpace c || isLineEnd c

/-- Whether a text is over or goes on with a blank or the end of a line. -/
def atGap : Text → Bool
  | [] => true
  | c :: _ => isGap c

/-- Whether a character is a mark between brackets, or a bracket itself. -/
def isFlowMark (c : Char) : Bool := c == ',' || c == '[' || c == ']' || c == '\x7b' || c == '\x7d'

/-- Whether a text goes on with a mark between brackets. -/
def atFlowMark (t : Text) : Bool := t.head?.any isFlowMark

/-- Whether a dash that starts an item stands here. -/
def startsItem : Text → Bool
  | '-' :: r => atGap r
  | _ => false

/-- Whether a marker of documents stands here. -/
def startsMarker : Text → Bool
  | '-' :: '-' :: '-' :: r => atGap r
  | '.' :: '.' :: '.' :: r => atGap r
  | _ => false

/-! ## Places -/

/-- What is left of a text, and where it starts. -/
structure Cursor where
  rest : Text
  /-- The number of characters before. -/
  index : Nat
  /-- The number of lines before. -/
  line : Nat
  /-- The number of characters before on the same line. -/
  column : Nat
  /-- Whether only blanks stand before on the same line. -/
  fresh : Bool
  deriving DecidableEq, Repr

namespace Cursor

/-- The start of a text. -/
def start (t : Text) : Cursor := ⟨t, 0, 0, 0, true⟩

/-- Moves over a character inside a line. -/
def step (c : Cursor) : Cursor :=
  match c.rest with
  | [] => c
  | x :: r => ⟨r, c.index + 1, c.line, c.column + 1, c.fresh && isSpace x⟩

/-- Moves over so many characters inside a line. -/
def steps : Nat → Cursor → Cursor
  | 0, c => c
  | n + 1, c => steps n c.step

/-- Moves over the end of a line, which may be two characters. -/
def nextLine (c : Cursor) : Cursor :=
  match c.rest with
  | '\r' :: '\n' :: r => ⟨r, c.index + 2, c.line + 1, 0, true⟩
  | _ :: r => ⟨r, c.index + 1, c.line + 1, 0, true⟩
  | [] => c

/-- Moves over the characters of a class that holds no end of line. -/
def skipWhile (p : Char → Bool) (c : Cursor) : Cursor := c.steps (c.rest.takeWhile p).length

/-- Moves over blanks of the line. -/
def skipSpaces (c : Cursor) : Cursor := c.skipWhile isSpace

/-- Moves to the end of the line. -/
def skipLine (c : Cursor) : Cursor := c.skipWhile fun x => !isLineEnd x

/-- Whether the line is over. -/
def atLineEnd (c : Cursor) : Bool :=
  match c.rest with
  | [] => true
  | x :: _ => isLineEnd x

/-- Whether a marker of documents stands at the start of a line. -/
def atMarker (c : Cursor) : Bool := c.column == 0 && startsMarker c.rest

/-- Whether a tab stands here where a line has to be indented by blanks. -/
def atForeignTab (indent : Int) (c : Cursor) : Bool :=
  c.fresh && decide ((c.column : Int) < indent) && c.rest.head? == some '\t'

/-! ## Gaps -/

/-- Moves over blanks and a comment; the comment has to stand behind a blank. -/
def skipTrail? (c : Cursor) : Option Cursor :=
  let next := c.skipSpaces
  match next.rest with
  | '#' :: _ => if next.index = c.index then none else some next.skipLine
  | _ => some next

/-- Moves to the end of a line on which nothing but a comment is left. -/
def skipEmptyLine? (c : Cursor) : Option Cursor := c.skipTrail?.filter atLineEnd

/-- Moves over blanks, comments and ends of lines. A line that is indented by a tab short of a column has to
be empty. `room` bounds the steps. -/
def skipGaps (indent : Int) : Nat → Cursor → Option Cursor
  | 0, c => some c
  | room + 1, c =>
      match c.rest with
      | [] => some c
      | x :: _ =>
          if isLineEnd x then skipGaps indent room c.nextLine
          else if x = '#' then skipGaps indent room c.skipLine
          else if c.atForeignTab indent then c.skipEmptyLine?.bind (skipGaps indent room)
          else if isSpace x then skipGaps indent room c.step
          else some c

end Cursor

end LayeredConfig.Document.Yaml
