import LayeredConfig.Text.Utf8

/-!
# `LayeredConfig.Environment.Spelling` — names as environment keys

An environment key holds letters, digits and `_` only. Every other character of a name is spelled `_`; the
way back is a best effort on the units of the key.

## Contents
- **`keyOf`.** The spelling of a name, of the same length (`length_keyOf`).
- **`dottedOf`.** The name that a key most likely spells: a single `_` is a dot, `_N_` an index, a leading
  `_` opens a profile qualifier, and a `__` pair opens or closes a quoted key.
-/

namespace LayeredConfig.Environment

open Text

/-! ## From a name to a key -/

/-- The spelling of one character. -/
def keyChar (c : Char) : Char := if c.isAlphanum then c else '_'

/-- The spelling of a name: every character that is no ASCII letter or digit becomes `_`. -/
def keyOf (name : Text) : Text := name.map keyChar

@[simp] theorem length_keyOf (name : Text) : (keyOf name).length = name.length := by
  simp [keyOf]

/-! ## From a key to a name -/

/-- Reads `digits_` where the key ends behind it or goes on with another `_`: the digits, and what follows
that other `_`. -/
def indexAt (t : Text) : Option (Text × Option Text) :=
  let digits := t.takeWhile Char.isDigit
  match t.dropWhile Char.isDigit with
  | '_' :: rest =>
      if digits.isEmpty then none
      else match rest with
        | [] => some (digits, none)
        | '_' :: rest' => some (digits, some rest')
        | _ => none
  | _ => none

theorem length_indexAt {t d rest : Text} (h : indexAt t = some (d, some rest)) :
    rest.length < t.length := by
  unfold indexAt at h
  have hlen := congrArg List.length (List.takeWhile_append_dropWhile (p := Char.isDigit) (l := t))
  rw [List.length_append] at hlen
  dsimp only at h
  split at h
  · next r hr =>
      rw [hr] at hlen
      simp only [List.length_cons] at hlen
      split at h
      · simp at h
      · split at h
        · simp at h
        · simp only [Option.some.injEq, Prod.mk.injEq] at h
          rw [← h.2]
          simp only [List.length_cons] at hlen
          omega
        · simp at h
  · simp at h

/-- Reads a key behind its first unit; `quoted` says whether a quoted key is open. -/
def dottedFrom (quoted : Bool) (t : Text) : Text :=
  match t with
  | [] => []
  | '_' :: '_' :: r =>
      if quoted then '"' :: (if r.isEmpty then [] else '.' :: dottedFrom false r)
      else '.' :: '"' :: dottedFrom true r
  | '_' :: r =>
      if quoted then '.' :: dottedFrom quoted r
      else match _h : indexAt r with
        | none => '.' :: dottedFrom quoted r
        | some (digits, none) => '[' :: digits ++ [']']
        | some (digits, some rest) => '[' :: digits ++ ']' :: '.' :: dottedFrom quoted rest
  | c :: r => c.toLower :: dottedFrom quoted r
termination_by t.length
decreasing_by
  · exact Nat.lt_succ_of_lt (Nat.lt_succ_self _)
  · exact Nat.lt_succ_of_lt (Nat.lt_succ_self _)
  · exact Nat.lt_succ_self _
  · exact Nat.lt_succ_self _
  · exact Nat.lt_succ_of_lt (length_indexAt _h)
  · exact Nat.lt_succ_self _

/-- The dotted name that a key most likely spells. -/
def dottedOf (key : Text) : Text :=
  match toUnits key with
  | '_' :: r => '%' :: dottedFrom false r
  | t => dottedFrom false t

end LayeredConfig.Environment
