import LayeredConfig.Dict
import LayeredConfig.Text.Utf8

/-!
# `LayeredConfig.Environment.Alignment` — keys against declared names

An environment key has lost the difference between dots, hyphens, quotes and brackets. A declared name that
lines up with the key gives it back; `*` in the declared name takes a map key from the environment key and
`[*]` takes an index.

Both are walked from the right, on their encoded units, so every function here takes reversed units.

## Contents
- **`keyPart`.** The map key at the end of an environment key.
- **`alignRev`, `align`.** The name that a key spells against one declared name.
- **`alignProfiled`.** The same with a leading `_PROFILE_`.
- **`reconcile`.** The first declared name that lines up wins.
-/

namespace LayeredConfig.Environment

open Text

/-! ## Map keys -/

/-- The text before the first `__` and the text behind it. -/
def cutPair : Text → Option (Text × Text)
  | '_' :: '_' :: r => some ([], r)
  | c :: r => (cutPair r).map fun p => (c :: p.1, p.2)
  | [] => none

/-- The characters of reversed units, with ASCII letters lowered. -/
def lowered (rev : Text) : Text := asciiLower (ofUnits rev.reverse)

/-- A map key written in quotes, its underscores read as dots. -/
def quotedKey (rev : Text) : Text := '"' :: replaceChar '_' '.' (lowered rev) ++ ['"']

/-- The map key at the end of a reversed key, and what is left behind it. A key that ends in `_` is a quoted
one and opens with `__`, of which the outer `_` stays as the separator; `whole` asks for a map key that
reaches to the start. -/
def keyPart (whole : Bool) (key : Text) : Option (Text × Text) :=
  match key with
  | [] => none
  | '_' :: r =>
      if whole then
        match r.reverse with
        | '_' :: inner => if inner.isEmpty then none else some (quotedKey inner.reverse, [])
        | _ => none
      else match cutPair r with
        | some (inner, rest) => if inner.isEmpty then none else some (quotedKey inner, '_' :: rest)
        | none => none
  | _ :: _ =>
      if whole then some (lowered key, [])
      else match key.dropWhile (· != '_') with
        | [] => none
        | rest => some (lowered (key.takeWhile (· != '_')), rest)

/-! ## Lining up -/

/-- Whether a unit of the declared name can stand over a unit of the key: a letter or digit in either case,
any other unit over itself or `_`. -/
def unitAligns (d k : Char) : Bool :=
  if d.isAlphanum then d.toLower == k.toLower else k == '_' || k == d

/-- The digits of an index at the end of a reversed key, between two `_`, and what is left. -/
def indexPart (key : Text) : Option (Text × Text) :=
  match key with
  | '_' :: r =>
      let digits := r.takeWhile Char.isDigit
      match r.dropWhile Char.isDigit with
      | '_' :: rest => if digits.isEmpty then none else some (digits, rest)
      | _ => none
  | _ => none

/-- The name that a reversed key spells against a reversed declared name. -/
def alignRev (declared key : Text) : Option Text :=
  match declared, key with
  | [], [] => some []
  | [], _ :: _ => none
  | _ :: _, [] => none
  | d :: ds, k :: ks =>
      if d = ']' then
        match hc : cut '[' ds with
        | none => none
        | some (index, ds') =>
            have : ds'.length < ds.length + 1 := by
              have := length_of_cut hc
              omega
            match indexPart (k :: ks) with
            | none => none
            | some (digits, ks') =>
                if index = ['*'] ∨ index = digits then
                  (alignRev ds' ks').map fun n => n ++ '[' :: digits.reverse ++ [']']
                else none
      else if d = '*' ∧ (ds = [] ∨ ds.head? = some '.') then
        match keyPart ds.isEmpty (k :: ks) with
        | none => none
        | some (part, ks') => (alignRev ds ks').map fun n => n ++ part
      else if unitAligns d k then (alignRev ds ks).map fun n => n ++ [d]
      else none
termination_by declared.length

/-- The name that the units of a key spell against a declared name. -/
def align (declared units : Text) : Option Text := alignRev (toUnits declared).reverse units.reverse

/-- The same for a key that opens with `_PROFILE_`: the name is then qualified with the profile. -/
def alignProfiled (declared key : Text) : Option Text :=
  match key with
  | '_' :: r => match cut '_' r with
    | some (profile, rest) =>
        if profile.isEmpty then none
        else (align declared (toUnits rest)).map fun n => '%' :: asciiLower profile ++ '.' :: n
    | none => none
  | _ => none

/-- The name that a key spells against a declared name, qualified or not. -/
def nameOf? (declared key : Text) : Option Text :=
  (align declared (toUnits key)).or (alignProfiled declared key)

/-- The name that a key spells: that of the first declared name that lines up with it. -/
def declaredName? (declared : List Text) (key : Text) : Option Text :=
  declared.findSome? fun d => nameOf? d key

/-- The names that keys spell; a key that lines up with no declared name has none. -/
def reconcile (declared keys : List Text) : Dict Text Text :=
  Dict.ofPairs (keys.filterMap fun k => (declaredName? declared k).map fun n => (k, n))

end LayeredConfig.Environment
