import LayeredConfig.Number.Integer
import LayeredConfig.Schema.Tree

/-!
# `LayeredConfig.Schema.Decode` — typed values from a tree of texts

A decoder reads one kind of value from a tree and fails on every other.

## Contents
- **Scalars.** `text`, `natural`, with the words that stand for one and zero.
- **Collections.** `list`, `table`.
- **Members.** `member` and `optionalMember` find one by its name in a table or by its place in a list.
-/

namespace LayeredConfig.Decode

/-- Reads a value from a tree, or fails. -/
abbrev Decoder (α : Type) := Tree → Option α

/-! ## Scalars -/

/-- A text. -/
def text : Decoder Text
  | .text t => some t
  | _ => none

/-- The words that stand for one. -/
def onWords : List Text := ["true".toList, "on".toList, "yes".toList]

/-- The words that stand for zero. -/
def offWords : List Text := ["false".toList, "off".toList, "no".toList]

/-- A natural number of so many bits: a word for one or zero in any letter case, or an integer. -/
def natural (bits : Nat) : Decoder Nat
  | .text t =>
      let n? := if onWords.contains (Text.asciiLower t) then some 1
        else if offWords.contains (Text.asciiLower t) then some 0
        else match (Number.Range.unsigned 64).parse t with
          | .ok n => some n.toNat
          | .error _ => none
      n?.filter fun n => n < Nat.pow 2 bits
  | _ => none

/-! ## Collections -/

variable {α : Type}

/-- A list of values. -/
def list (d : Decoder α) : Decoder (List α)
  | .list items => items.mapM d
  | _ => none

/-- A table of values by key. -/
def table (d : Decoder α) : Decoder (List (Text × α))
  | .table entries => entries.mapM fun e => (d e.2).map fun a => (e.1, a)
  | _ => none

/-! ## Members -/

/-- A member that has to be there: the one of that name in a table, the one at that place in a list. -/
def member (place : Nat) (name : Text) (d : Decoder α) : Decoder α
  | .table entries => (lookupKey name entries).bind d
  | .list items => items[place]?.bind d
  | .text _ => none

/-- A member that may be absent from a table; in a list its place has to be taken. -/
def optionalMember (place : Nat) (name : Text) (d : Decoder α) : Decoder (Option α)
  | .table entries => match lookupKey name entries with
    | none => some none
    | some t => (d t).map some
  | .list items => items[place]?.bind fun t => (d t).map some
  | .text _ => none

end LayeredConfig.Decode
