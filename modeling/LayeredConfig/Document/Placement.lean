import LayeredConfig.Document.Value
import LayeredConfig.Number.Integer

/-!
# `LayeredConfig.Document.Placement` — keys that spell a path

A key at the top of a file may spell a path into nested tables and lists, such as `server.hosts[1].name`. A
key that does not read as a path stands for itself.

## Contents
- **`Step`, `readPath`.** The path that a key spells.
- **`place`.** Puts a value at a path; missing items of a list before it are null.
- **`collect`.** The table of all entries of a file, each at its place.
-/

namespace LayeredConfig.Document

open Text

/-! ## Paths -/

/-- A step of a path: into a table, or into a list, where a negative index counts from the end. -/
inductive Step where
  | key (k : Text)
  | index (i : Int)
  deriving DecidableEq, Repr

/-- Whether a character may stand in the key of a path. -/
def isPathChar (c : Char) : Bool := c.isAlphanum || c == ' ' || c == '_' || c == '-'

/-- Reads a key of a path. -/
def readKey (t : Text) : Option (Text × Text) :=
  let key := t.takeWhile isPathChar
  if key.isEmpty then none else some (key, t.dropWhile isPathChar)

/-- Drops the blanks around an index. -/
def trimIndex (t : Text) : Text :=
  dropRightWhile (fun c => c == ' ' || c == '\t') (t.dropWhile fun c => c == ' ' || c == '\t')

/-- Reads the index between two brackets: an integer of 64 bits without a plus, blanks around it aside. -/
def readIndex (t : Text) : Option Int :=
  match trimIndex t with
  | '+' :: _ => none
  | digits => ((Number.Range.signed 64).parse digits).toOption

/-- Reads the steps behind the first key; `room` bounds their number. -/
def readSteps : Nat → Text → Option (List Step)
  | _, [] => some []
  | 0, _ => none
  | room + 1, '.' :: r => do
      let (k, rest) ← readKey r
      return .key k :: (← readSteps room rest)
  | room + 1, '[' :: r => do
      let (digits, rest) ← cut ']' r
      let i ← readIndex digits
      return .index i :: (← readSteps room rest)
  | _ + 1, _ => none

/-- The path that a key spells, if all of it reads as one. -/
def readPath (key : Text) : Option (List Step) := do
  let (k, rest) ← readKey key
  return .key k :: (← readSteps rest.length rest)

/-! ## Placing values -/

/-- Changes the item at an index, which is null when the list is too short. -/
def alterItem (f : Value → Value) : Nat → List Value → List Value
  | 0, [] => [f .null]
  | 0, v :: r => f v :: r
  | i + 1, [] => .null :: alterItem f i []
  | i + 1, v :: r => v :: alterItem f i r

/-- Changes the item at an index that may count from the end; before the first item new ones are put. -/
def alterAt (f : Value → Value) (i : Int) (items : List Value) : List Value :=
  if 0 ≤ i then alterItem f i.toNat items
  else
    let back := (-i).toNat
    if back ≤ items.length then alterItem f (items.length - back) items
    else alterItem f 0 (List.replicate (back - items.length) .null ++ items)

/-- Puts a value at a path. A table is merged into what stands there under the small form of its keys; one
that becomes an item of a list keeps its keys as they are. -/
def place (value : Value) : List Step → Option Value → Value
  | [], old => Value.merge old value
  | .key k :: r, old => .table (Value.alterEntry (place value r) k (Value.entries old))
  | [.index i], old => .list (alterAt (fun _ => value) i (Value.items old))
  | .index i :: r, old => .list (alterAt (fun v => place value r (some v)) i (Value.items old))

/-- Puts an entry of a file at its place in the table. The path is read from the small form of the key. -/
def placeEntry (root : Value) (e : Text × Value) : Value :=
  let key := lowercase e.1
  place e.2 ((readPath key).getD [.key key]) (some root)

/-- The table of all entries of a file. -/
def collect (entries : List (Text × Value)) : List (Text × Value) :=
  Value.entries (some (entries.foldl placeEntry (.table [])))

end LayeredConfig.Document
