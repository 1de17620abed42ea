import LayeredConfig.Dict
import LayeredConfig.Name.Segment
import LayeredConfig.Number.Shortest
import LayeredConfig.Text.Lowercase

/-!
# `LayeredConfig.Document.Value` — what a file says

The value that a file holds, whatever its format, and the flat properties that it amounts to.

## Contents
- **`Value`.** Scalars, lists and tables.
- **Keys.** `merge` puts a value over another with the keys of its tables lowered.
- **Properties.** `properties` flattens a value: a table adds a segment to the name, a list an index.
-/

namespace LayeredConfig.Document

open Name

/-- What a file says. -/
inductive Value where
  | null
  | bool (b : Bool)
  | integer (n : Int)
  | float (x : Number.Binary64)
  | text (t : Text)
  | list (items : List Value)
  | table (entries : List (Text × Value))

namespace Value

instance : Inhabited Value := ⟨null⟩

/-! ## Keys -/

/-- The entries of a table; every other value, and a missing one, has none. -/
def entries : Option Value → List (Text × Value)
  | some (table es) => es
  | _ => []

/-- The items of a list; every other value, and a missing one, has none. -/
def items : Option Value → List Value
  | some (list xs) => xs
  | _ => []

/-- Changes the value under a key, which may be missing. -/
def alterEntry (f : Option Value → Value) (key : Text) : List (Text × Value) → List (Text × Value)
  | [] => [(key, f none)]
  | e :: r => if e.1 = key then (key, f (some e.2)) :: r else e :: alterEntry f key r

mutual

/-- Puts a value over another, if there is one. A table is merged into a table, entry by entry and under the
small form of its keys, so that a table without entries leaves what stood there; any other value replaces
it. -/
def merge (old : Option Value) : Value → Value
  | table es => if es.isEmpty then old.getD (table []) else table (mergeEntries (entries old) es)
  | v => v

/-- Puts the entries of a table over those of another. -/
def mergeEntries (old : List (Text × Value)) : List (Text × Value) → List (Text × Value)
  | [] => old
  | (key, v) :: r =>
      mergeEntries (alterEntry (fun o => merge o v) (Text.lowercase key) old) r

end

/-! ## Properties -/

/-- The text of a scalar; a null and an empty list are the empty text. -/
def scalarText : Value → Text
  | bool b => if b then "true".toList else "false".toList
  | integer n => Text.ofInt n
  | float x => x.toText
  | text t => t
  | _ => []

/-- The name of an item of a list. -/
def itemName (name : Text) (i : Nat) : Text := name ++ '[' :: Text.ofNat i ++ [']']

mutual

/-- The properties of a value under a name. -/
def propertiesUnder (name : Text) : Value → List (Text × Text)
  | table es => entryProperties name es
  | list (x :: xs) => itemProperties name 0 (x :: xs)
  | v => [(name, v.scalarText)]

/-- The properties of entries below a name. -/
def entryProperties (name : Text) : List (Text × Value) → List (Text × Text)
  | [] => []
  | (key, v) :: r => propertiesUnder (join name (quotedIfNeeded key)) v ++ entryProperties name r

/-- The properties of items, the first of which has the given index. -/
def itemProperties (name : Text) (i : Nat) : List Value → List (Text × Text)
  | [] => []
  | v :: r => propertiesUnder (itemName name i) v ++ itemProperties name (i + 1) r

end

/-- The properties of the entries of a table, each under its own key. -/
def properties (es : List (Text × Value)) : List (Text × Text) :=
  es.flatMap fun e => propertiesUnder (quotedIfNeeded e.1) e.2

end Value

end LayeredConfig.Document
