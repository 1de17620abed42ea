import LayeredConfig.Text.Basic

/-!
# `LayeredConfig.Record` — what a lookup returns

A record is the value of a property together with where it came from and what went wrong on the way. The
processed value is what a reader gets; the raw value is what the source holds.

## Contents
- **`Problem`.** What can go wrong while one value is resolved, and its wording.
- **`Origin`.** The source a value came from; `Origin.compare` says which of two origins has precedence.
- **`Record`.** The record and the changes that stages make to it.
-/

namespace LayeredConfig

/-- What went wrong while a value was resolved. -/
inductive Problem where
  | expressionNotFound (expression : Text)
  | expressionTooDeep
  | secretAccessDenied
  deriving DecidableEq, Repr

/-- The wording of a problem. -/
def Problem.message : Problem → Text
  | .expressionNotFound e => "expression '$\x7b".toList ++ e ++ "\x7d' cannot be resolved".toList
  | .expressionTooDeep => "expression expansion exceeded the maximum depth".toList
  | .secretAccessDenied => "secret access denied".toList

/-- The source of a value: its name, its ordinal, its rank among all sources and the line of the value. -/
structure Origin where
  name : Text
  ordinal : Int
  position : Nat
  line : Option Nat
  deriving DecidableEq, Repr

namespace Origin

/-- The origin of a value that belongs to no source; every source has precedence at the same ordinal. -/
def none : Origin := ⟨[], 0, Nat.pow 2 64 - 1, .none⟩

/-- Compares by precedence: the higher ordinal wins, at equal ordinals the lower position. -/
def compare (a b : Origin) : Ordering :=
  (Ord.compare a.ordinal b.ordinal).then (Ord.compare b.position a.position)

/-- Whether the first origin has strict precedence over the second. -/
def outranks (a b : Origin) : Bool := a.compare b == .gt

end Origin

/-- A resolved property. -/
structure Record where
  name : Text
  value : Option Text
  rawValue : Option Text
  profile : Option Text
  origin : Origin
  problems : List Problem
  deriving DecidableEq, Repr

namespace Record

/-- A value that is not attached to any source. -/
def ofValue (name value : Text) : Record :=
  { name, value := some value, rawValue := some value, profile := none, origin := .none, problems := [] }

/-- The value that a source holds. -/
def ofSource (name value : Text) (origin : Origin) : Record := { ofValue name value with origin }

/-- The same record under another name. -/
def withName (r : Record) (name : Text) : Record := { r with name }

/-- The same record with another processed value. -/
def withValue (r : Record) (value : Option Text) : Record := { r with value }

/-- The same record, supplied by a profile. -/
def withProfile (r : Record) (profile : Text) : Record := { r with profile := some profile }

/-- The same record with problems added behind its own. -/
def withProblems (r : Record) (ps : List Problem) : Record := { r with problems := r.problems ++ ps }

/-- The same record without its values, and with the denial recorded. -/
def redacted (r : Record) : Record :=
  { r with value := none, rawValue := none, problems := r.problems ++ [.secretAccessDenied] }

/-- Whether the values were taken out because they are secret. -/
def isRedacted (r : Record) : Bool := r.problems.contains .secretAccessDenied

/-- Whether anything went wrong. -/
def hasProblems (r : Record) : Bool := !r.problems.isEmpty

/-- `source:line`, or only the source when the line is not known. -/
def location (r : Record) : Text :=
  match r.origin.line with
  | some n => r.origin.name ++ ':' :: Text.ofNat n
  | none => r.origin.name

/-- The name as the source spells it, with the qualifier of the profile. -/
def profiledName (r : Record) : Text :=
  match r.profile with
  | some p => '%' :: p ++ '.' :: r.name
  | none => r.name

/-- Whether the first record's source has strict precedence over the second's. -/
def outranks (a b : Record) : Bool := a.origin.outranks b.origin

end Record

end LayeredConfig
