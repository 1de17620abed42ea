import LayeredConfig.Name.Segment

/-!
# `LayeredConfig.Family.Inline` — lists and maps written in one value

A list may be written as `a,b,c`, a map as `k=v;j=w`. A backslash makes the separator behind it, or a second
backslash, a plain character; before any other character it stands for itself.

## Contents
- **Marks.** `marks` reads the escapes: every character with the information whether it was escaped.
- **Lists.** `splitList` cuts at commas and drops empty items.
- **Maps.** `splitMap` cuts at semicolons and each entry at its first `=`.
-/

namespace LayeredConfig.Family

open Text Name

/-! ## Escapes -/

/-- A character of an inline value: one that separates, or one that is text. -/
inductive Mark where
  | separator (c : Char)
  | plain (c : Char)
  deriving DecidableEq, Repr

/-- Reads the escapes of an inline value whose separators are given. -/
def marks (separators : List Char) : Text → List Mark
  | [] => []
  | ['\\'] => [.plain '\\']
  | '\\' :: c :: r =>
      if c = '\\' ∨ c ∈ separators then .plain c :: marks separators r
      else .plain '\\' :: .plain c :: marks separators r
  | c :: r => (if c ∈ separators then .separator c else .plain c) :: marks separators r

/-- The runs between the occurrences of one separator. -/
def runs (x : Char) : List Mark → List (List Mark)
  | [] => [[]]
  | m :: r =>
      if m = .separator x then [] :: runs x r
      else match runs x r with
        | [] => [[m]]
        | t :: ts => (m :: t) :: ts

/-- The characters of a run. -/
def Mark.char : Mark → Char
  | .separator c => c
  | .plain c => c

/-- The text of a run. -/
def textOf (ms : List Mark) : Text := ms.map Mark.char

/-! ## Lists -/

/-- The items of an inline list. -/
def splitList (value : Text) : List Text :=
  ((runs ',' (marks [','] value)).map textOf).filter fun t => !t.isEmpty

/-! ## Maps -/

/-- The key and the value of an entry, cut at its first `=`; an entry without `=` has none. -/
def cutEntry : List Mark → Option (Text × Text)
  | [] => none
  | m :: r =>
      if m = .separator '=' then some ([], textOf r)
      else (cutEntry r).map fun p => (m.char :: p.1, p.2)

/-- The entries of an inline map in their order. An entry without `=` or with an empty key is left out; the
quotes around a key are removed. -/
def splitMap (value : Text) : List (Text × Text) :=
  (runs ';' (marks [';', '='] value)).filterMap fun run =>
    match cutEntry run with
    | some (key, v) => if key.isEmpty then none else some (unquoted key, v)
    | none => none

end LayeredConfig.Family
