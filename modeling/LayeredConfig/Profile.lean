import LayeredConfig.Text.Blank

/-!
# `LayeredConfig.Profile` — lists of active profiles

The active profiles are given as a comma-separated list in which a later profile is the more specific one.
They are kept the most specific first, with the profile that all of them inherit from at the end.

## Contents
- **`distinct`.** The first occurrence of every entry of a list.
- **`listed`, `withParent`, `parse`.** From the text to the profiles.
- **`qualifier`.** How a profile qualifies a name.
-/

namespace LayeredConfig.Profile

open Text

/-- Adds an entry at the end unless it is there already. -/
def addNew (ps : List Text) (p : Text) : List Text := if p ∈ ps then ps else ps ++ [p]

/-- The entries of a list in the order of their first occurrence. -/
def distinct (ps : List Text) : List Text := ps.foldl addNew []

/-- The trimmed entries of a comma-separated list that are not empty, the last one first. -/
def entries (value : Text) : List Text :=
  (((fields ',' value).map trim).filter fun p => !p.isEmpty).reverse

/-- The profiles of a comma-separated list, the most specific first. -/
def listed (value : Text) : List Text := distinct (entries value)

/-- Adds the parent at the end: trimmed, and unless it is empty or there already. -/
def withParent (ps : List Text) (parent : Option Text) : List Text :=
  match parent with
  | some p => if (trim p).isEmpty then ps else addNew ps (trim p)
  | none => ps

/-- The profiles of a comma-separated list and a parent. -/
def parse (value : Text) (parent : Option Text) : List Text := withParent (listed value) parent

/-- The qualifier that a profile puts before a name. -/
def qualifier (profile : Text) : Text := '%' :: profile ++ ['.']

/-- The name of a property under a profile. -/
def qualified (profile name : Text) : Text := qualifier profile ++ name

end LayeredConfig.Profile
