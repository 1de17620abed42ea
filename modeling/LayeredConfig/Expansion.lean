import LayeredConfig.Record
import LayeredConfig.Template

/-!
# `LayeredConfig.Expansion` — references replaced by values

The references of a value are replaced by the values of the names they refer to, whose own references are
replaced in turn. Names and defaults may hold references as well. Nesting ends at a fixed depth, so that a
cycle of references ends too.

## Contents
- **`Trace`.** The problems met and the names asked so far, both in order.
- **`expand`.** The text of a value; `levels` is the number of levels that are left.
- **`Record.expanded`.** A record whose processed value is expanded, or removed when anything went wrong.
-/

namespace LayeredConfig

open Template

/-! ## Traces -/

/-- What an expansion leaves beside its text: the problems it met and the names it asked for. -/
structure Trace where
  problems : List Problem
  asked : List Text
  deriving DecidableEq, Repr

namespace Trace

/-- Nothing has happened yet. -/
def start : Trace := ⟨[], []⟩

/-- Records problems. -/
def report (s : Trace) (ps : List Problem) : Trace := { s with problems := s.problems ++ ps }

/-- Records that nesting was too deep, once. -/
def reportDepth (s : Trace) : Trace :=
  if s.problems.contains .expressionTooDeep then s else s.report [.expressionTooDeep]

/-- Records that a name was asked for. -/
def ask (s : Trace) (name : Text) : Trace := { s with asked := s.asked ++ [name] }

end Trace

/-! ## Expansion -/

/-- A step of an expansion: the text it contributes and what it leaves. -/
abbrev Expander := Text → Trace → Text × Trace

/-- Puts the pieces of a value together, with the given expander for the bodies of references. -/
def expandPieces (reference : Expander) : List Piece → Trace → Text × Trace
  | [], s => ([], s)
  | .plain t :: ps, s =>
      let rest := expandPieces reference ps s
      (t ++ rest.1, rest.2)
  | .reference body :: ps, s =>
      let here := reference body s
      let rest := expandPieces reference ps here.2
      (here.1 ++ rest.1, rest.2)

/-- The text of a reference with the given body: the expanded value of its expanded name, or its expanded
default when the name has no value. The problems of a record without value are carried over; where there are
none and no default either, the reference is reported. -/
def expandReference (lookup : Text → Option Record) (inner : Expander) : Expander := fun body s =>
  let parts := splitDefault body
  let name := inner parts.1 s
  let found := lookup name.1
  let s' := name.2.ask name.1
  match found.bind Record.value with
  | some value => inner value s'
  | none =>
      let carried := (found.map Record.problems).getD []
      let s'' := s'.report carried
      match parts.2 with
      | some default => inner default s''
      | none =>
          if carried.isEmpty then ([], s''.report [.expressionNotFound body]) else ([], s'')

/-- Expands a text with so many levels left; a reference on the last level is not followed. -/
def expand (lookup : Text → Option Record) : Nat → Expander
  | 0, t, s => expandPieces (fun _ s => ([], s.reportDepth)) (pieces t) s
  | levels + 1, t, s => expandPieces (expandReference lookup (expand lookup levels)) (pieces t) s

/-- The number of levels to which references are followed. -/
def maxLevels : Nat := 32

namespace Record

/-- The expansion of a processed value; a value without a dollar is left as it is. -/
def expansion (lookup : Text → Option Record) (r : Record) : Option (Text × Trace) :=
  match r.value with
  | some t => if t.contains '$' then some (expand lookup maxLevels t .start) else none
  | none => none

/-- The record with its processed value expanded. When anything went wrong the value is removed and the
problems are recorded. -/
def expanded (lookup : Text → Option Record) (r : Record) : Record :=
  match r.expansion lookup with
  | none => r
  | some (t, s) =>
      if s.problems.isEmpty then r.withValue (some t) else (r.withValue none).withProblems s.problems

/-- The names that the expansion of a record asks for. -/
def askedForExpansion (lookup : Text → Option Record) (r : Record) : List Text :=
  ((r.expansion lookup).map fun e => e.2.asked).getD []

end Record

end LayeredConfig
