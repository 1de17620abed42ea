import LayeredConfig.Family.Reading
import LayeredConfig.Number.Integer
import LayeredConfig.Pipeline.Basic

/-!
# `LayeredConfig.Pipeline.Typed` — values read as something else than text

A typed read turns absence, a recorded problem and a failed conversion into errors. For all of them an empty
value counts as absent. They are described for names at which no look-up breaks off.

## Contents
- **`Converter`.** From a text to a value, or the reason why not.
- **Scalars, lists, maps.** `read` and `readOptional`, `readList` and `readOptionalList`, `readMap` and
  `readMapOfLists`.
-/

namespace LayeredConfig

/-! ## Converters -/

/-- Turns a text into a value, or says why it cannot. -/
abbrev Converter (α : Type) := Text → Except Text α

namespace Converter

/-- Every text is a text. -/
def text : Converter Text := .ok

/-- The integers of a range. -/
def integer (r : Number.Range) : Converter Int := fun t =>
  (r.parse t).mapError Number.IntegerError.message

/-- The two truth values by their names. -/
def boolean : Converter Bool := fun t =>
  if t = "true".toList then .ok true
  else if t = "false".toList then .ok false
  else .error "provided string was not `true` or `false`".toList

/-- A number of seconds: an integer of 64 bits without sign, behind which any number of `s` may stand. -/
def seconds : Converter Int := fun t => integer (.unsigned 64) (Text.dropRightWhile (· == 's') t)

end Converter

namespace Config

variable {κ α : Type}

/-! ## Scalars -/

/-- Converts the text of a property. -/
def convert (conv : Converter α) (name t : Text) : Except ConfigError α :=
  (conv t).mapError fun reason => .conversion name t reason

/-- An absent answer is an error. -/
def required (name : Text) : Option α → Except ConfigError α
  | some a => .ok a
  | none => .error (.notFound name)

/-- The value of a property, if it has one. -/
def readOptional (c : Config) (conv : Converter α) (name : Text) : Except ConfigError (Option α) := do
  match ← c.nonEmptyText name with
  | some t => some <$> convert conv name t
  | none => pure none

/-- The value of a property. -/
def read (c : Config) (conv : Converter α) (name : Text) : Except ConfigError α := do
  required name (← c.readOptional conv name)

/-! ## Lists -/

/-- What a root is read as when a list is wanted. -/
def listReading (c : Config) (root : Text) : Family.ListReading :=
  Family.readList c.value? c.propertyNames.toList root

/-- The elements of the list at a root; an element without value is left out. -/
def listItems (c : Config) (conv : Converter α) (root : Text) : Except ConfigError (List α) := do
  match c.listReading root with
  | .indexed names => return (← names.mapM (c.readOptional conv)).filterMap id
  | .inline _ _ =>
      let t := (← c.rawText root).getD []
      (Family.splitList t).mapM (convert conv root)

/-- The list at a root, if it has elements. -/
def readOptionalList (c : Config) (conv : Converter α) (root : Text) :
    Except ConfigError (Option (List α)) := do
  let xs ← c.listItems conv root
  return if xs.isEmpty then none else some xs

/-- The list at a root. -/
def readList (c : Config) (conv : Converter α) (root : Text) : Except ConfigError (List α) := do
  required root (← c.readOptionalList conv root)

/-! ## Maps -/

/-- What a root is read as when a map is wanted. -/
def mapReading (c : Config) (root : Text) : Family.MapReading :=
  Family.readMap c.value? c.propertyNames.toList root

/-- The name by which an entry of an inline map is reported. -/
def entryName (root key : Text) : Text := root ++ '.' :: key

variable [LT κ] [DecidableLT κ] [DecidableEq κ] [KeyOrder κ]

/-- A map that has entries. -/
def nonEmptyMap (root : Text) (d : Dict κ α) : Except ConfigError (Dict κ α) :=
  if d.entries.isEmpty then .error (.notFound root) else .ok d

/-- The map at a root. A member without value is left out; of two entries of one key the later stays. -/
def readMap (c : Config) (key : Converter κ) (conv : Converter α) (root : Text) :
    Except ConfigError (Dict κ α) := do
  let entries ← match c.mapReading root with
    | .keyed members => members.mapM fun (k, member) => do
        match ← c.readOptional conv member with
        | some v => return some (← convert key member k, v)
        | none => return none
    | .inline _ entries => entries.mapM fun (k, v) => do
        let name := entryName root k
        return some (← convert key name k, ← convert conv name v)
  nonEmptyMap root (.ofPairs (entries.filterMap id))

/-- The map at a root whose values are lists. A member without elements is left out; an entry of an inline
map is cut at commas. -/
def readMapOfLists (c : Config) (key : Converter κ) (conv : Converter α) (root : Text) :
    Except ConfigError (Dict κ (List α)) := do
  let entries ← match c.mapReading root with
    | .keyed members => members.mapM fun (k, member) => do
        match ← c.readOptionalList conv member with
        | some vs => return some (← convert key member k, vs)
        | none => return none
    | .inline _ entries => entries.mapM fun (k, v) => do
        let name := entryName root k
        let vs ← (Family.splitList v).mapM (convert conv name)
        return some (← convert key name k, vs)
  nonEmptyMap root (.ofPairs (entries.filterMap id))

end Config

end LayeredConfig
