import LayeredConfig.Name.Wildcard

/-!
# `LayeredConfig.Secret` — secret names

Names are secret by pattern. Patterns are kept as a set under wildcard equality, in which a pattern that
equals an older one is dropped. Two names are compared only when their shape hashes agree.

## Contents
- **`Access`.** Whether a reader may see secret values.
- **`SecretSet`.** `insert`, `ofPatterns`; `contains` says whether a name is secret, with or without the
  qualifier of a profile.
-/

namespace LayeredConfig

open Name

/-- Whether a reader may see secret values. -/
inductive Access where
  | locked
  | unlocked
  deriving DecidableEq, Repr

/-- Secret patterns, the oldest first. -/
structure SecretSet where
  patterns : List Text
  deriving DecidableEq, Repr

namespace SecretSet

/-- Whether a set of patterns takes two names for the same entry. -/
def sameEntry (a b : Text) : Bool := shapeHash a == shapeHash b && alike a b

/-- Whether a name or pattern equals an entry. -/
def holds (s : SecretSet) (name : Text) : Bool := s.patterns.any fun p => sameEntry p name

/-- Adds a pattern unless it equals an entry. -/
def insert (s : SecretSet) (p : Text) : SecretSet := if s.holds p then s else ⟨s.patterns ++ [p]⟩

/-- The set of a list of patterns, added in order. -/
def ofPatterns (ps : List Text) : SecretSet := ps.foldl insert ⟨[]⟩

/-- Whether a name is secret; the qualifier of a profile does not count. -/
def contains (s : SecretSet) (name : Text) : Bool := s.holds (unprofiled name)

end SecretSet

end LayeredConfig
