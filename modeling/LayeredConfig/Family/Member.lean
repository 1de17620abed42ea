import LayeredConfig.Dict
import LayeredConfig.Name.Segment

/-!
# `LayeredConfig.Family.Member` — the members of a list or a map among flat names

The elements of a list at `root` are the names that start with `root[N]`; the entries of a map at `root` are
those that start with `root.key`. Names that fit neither form contribute nothing.

## Contents
- **Elements.** `indexGroup` reads `[N]`, `elements` lists the elements in the order of their indexes.
- **Keys.** `keySegment` reads a key, `keyedMembers` lists the members that are a value or a list,
  `groupKeys` those at any depth.
-/

namespace LayeredConfig.Family

open Text Name

/-! ## Elements of a list -/

/-- The greatest index of an element. -/
def maxIndex : Nat := Nat.pow 2 64 - 1

/-- Reads `[N]` where the name ends behind it or goes on with a dot or a bracket: the index and its
digits. -/
def indexGroup (t : Text) : Option (Nat × Text) :=
  match t with
  | '[' :: r => match cut ']' r with
    | some (digits, rest) =>
        if isNumeric digits && digitsValue digits ≤ maxIndex &&
            (rest.isEmpty || rest.head? == some '.' || rest.head? == some '[') then
          some (digitsValue digits, digits)
        else none
    | none => none
  | _ => none

/-- The index of the element that a name belongs to, and the name of that element. -/
def element? (root name : Text) : Option (Nat × Text) :=
  (afterPrefix? root name).bind fun rest =>
    (indexGroup rest).map fun (i, digits) => (i, root ++ '[' :: digits ++ [']'])

/-- The names of the elements by index; of two spellings of one index the first stays. -/
def elementsByIndex (root : Text) (names : List Text) : Dict Nat Text :=
  .ofPairsFirst (names.filterMap (element? root))

/-- The names of the elements in the order of their indexes. -/
def elements (root : Text) (names : List Text) : List Text :=
  (elementsByIndex root names).entries.map Prod.snd

/-! ## Keys of a map -/

/-- Reads an unquoted key up to the first dot or opening bracket: the key, the text that spells it, and the
rest. A dot behind a backslash belongs to the key. -/
def plainKey : Text → Text × Text × Text
  | [] => ([], [], [])
  | '\\' :: '.' :: r =>
      let (key, written, rest) := plainKey r
      ('.' :: key, '\\' :: '.' :: written, rest)
  | c :: r =>
      if c = '.' ∨ c = '[' then ([], [], c :: r)
      else
        let (key, written, rest) := plainKey r
        (c :: key, c :: written, rest)

/-- Reads a key: the content of a quoted segment, or a plain key that is not empty. -/
def keySegment (t : Text) : Option (Text × Text × Text) :=
  match t with
  | '"' :: r => (cut '"' r).map fun (key, rest) => (key, '"' :: key ++ ['"'], rest)
  | _ => match plainKey t with
    | ([], _, _) => none
    | found => some found

/-- What follows the root and the dot behind it; the empty root has all names below it. -/
def below? (root name : Text) : Option Text :=
  if root.isEmpty then some name else afterPrefix? (root ++ ['.']) name

/-- The name of the member that a key text spells below a root. -/
def memberName (root written : Text) : Text :=
  if root.isEmpty then written else root ++ '.' :: written

/-- The key and the member that a name belongs to, at any depth. -/
def groupMember? (root name : Text) : Option (Text × Text) :=
  (below? root name).bind fun rest =>
    (keySegment rest).map fun (key, written, _) => (key, memberName root written)

/-- The key and the member that a name belongs to, when it is the member itself or below one of its
elements. -/
def keyedMember? (root name : Text) : Option (Text × Text) :=
  (below? root name).bind fun rest =>
    (keySegment rest).bind fun (key, written, tail) =>
      if tail.isEmpty || (indexGroup tail).isSome then some (key, memberName root written) else none

/-- The members that are a value or a list, in the order of their keys. -/
def keyedMembers (root : Text) (names : List Text) : List (Text × Text) :=
  (Dict.ofPairsFirst (names.filterMap (keyedMember? root))).entries

/-- The members at any depth, in the order of their keys. -/
def groupKeys (root : Text) (names : List Text) : List (Text × Text) :=
  (Dict.ofPairsFirst (names.filterMap (groupMember? root))).entries

end LayeredConfig.Family
