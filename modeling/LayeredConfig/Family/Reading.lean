import LayeredConfig.Family.Inline
import LayeredConfig.Family.Member
import LayeredConfig.Record

/-!
# `LayeredConfig.Family.Reading` — one value or many members

A list or a map has two spellings, which are never merged: one inline value at the root, or a family of
members. The inline value is read only when its source has strict precedence over every source that defines
a member.

## Contents
- **Choice.** `best?` is the member of highest precedence, `preferInline` decides.
- **`ListReading`, `MapReading`.** What a root is read as: `readList`, `readMap`.
-/

namespace LayeredConfig.Family

/-! ## Choice -/

/-- Of the records of names, one of the highest precedence. -/
def best? (lookup : Text → Option Record) (names : List Text) : Option Record :=
  (names.filterMap lookup).foldl
    (fun best r => match best with
      | some b => if b.outranks r then some b else some r
      | none => some r)
    none

/-- The inline record, when it has a value and strict precedence over the family. -/
def preferInline (family inline : Option Record) : Option Record :=
  match inline with
  | none => none
  | some r =>
      if r.value.isNone then none
      else match family with
        | none => some r
        | some f => if r.outranks f then some r else none

/-! ## Readings -/

/-- What a list root is read as. -/
inductive ListReading where
  | indexed (names : List Text)
  | inline (record : Record) (items : List Text)
  deriving DecidableEq, Repr

/-- The number of elements. -/
def ListReading.size : ListReading → Nat
  | .indexed names => names.length
  | .inline _ items => items.length

/-- What a map root is read as. -/
inductive MapReading where
  | keyed (members : List (Text × Text))
  | inline (record : Record) (entries : List (Text × Text))
  deriving DecidableEq, Repr

/-- The number of entries. -/
def MapReading.size : MapReading → Nat
  | .keyed members => members.length
  | .inline _ entries => entries.length

/-- Reads a root as a list. -/
def readList (lookup : Text → Option Record) (names : List Text) (root : Text) : ListReading :=
  let family := best? lookup (names.filter fun n => (element? root n).isSome)
  match preferInline family (lookup root) with
  | some r => .inline r (splitList (r.value.getD []))
  | none => .indexed (elements root names)

/-- Reads a root as a map. -/
def readMap (lookup : Text → Option Record) (names : List Text) (root : Text) : MapReading :=
  let family := best? lookup (names.filter fun n => (keyedMember? root n).isSome)
  match preferInline family (lookup root) with
  | some r => .inline r (splitMap (r.value.getD []))
  | none => .keyed (keyedMembers root names)

end LayeredConfig.Family
