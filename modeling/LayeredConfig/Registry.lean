import LayeredConfig.Source
import LayeredConfig.Text.Summary

/-!
# `LayeredConfig.Registry` — ranked sources

Sources rank by ordinal, the highest first; of equal ordinals the one registered later ranks first. A lookup
is answered by the first source that defines the name.

## Contents
- **`RankedSource`.** A source with its ordinal and the place in the order of registration.
- **`Registry`.** `ofSources` ranks, `resolve` looks a name up, `names` and `values` list everything.
- **Attempts.** `tryResolve` and `tryValues` break off where a source that is asked does.
-/

namespace LayeredConfig

/-- A source, its ordinal and its place in the order of registration. -/
structure RankedSource where
  source : Source
  ordinal : Int
  sequence : Nat

namespace RankedSource

/-- Whether the first source may stand before the second: higher ordinal, then later registration. -/
def before (a b : RankedSource) : Bool :=
  b.ordinal < a.ordinal || (a.ordinal == b.ordinal && b.sequence ≤ a.sequence)

/-- The record of a name in this source, when the source stands at the given position. -/
def record? (s : RankedSource) (position : Nat) (name : Text) : Option Record :=
  (s.source.get? name).map fun v =>
    .ofSource name v ⟨s.source.name, s.ordinal, position, s.source.line? name⟩

/-- The record of a name in this source, once the source has been asked. -/
def tryRecord (s : RankedSource) (position : Nat) (name : Text) : Attempt (Option Record) :=
  (s.source.tryGet name).map fun found => found.map fun v =>
    .ofSource name v ⟨s.source.name, s.ordinal, position, s.source.line? name⟩

end RankedSource

/-- Sources in rank order. -/
structure Registry where
  ranked : List RankedSource

namespace Registry

/-- Numbers the sources in the order of registration. -/
def numbered (sources : List Source) : List RankedSource :=
  sources.zipIdx.map fun (s, i) => ⟨s, s.ordinal, i⟩

/-- Ranks sources; their order is that of registration. -/
def ofSources (sources : List Source) : Registry := ⟨(numbered sources).mergeSort RankedSource.before⟩

/-- The record of the first source that defines a name; the first source of the list has the given
position. -/
def resolveFrom (name : Text) : Nat → List RankedSource → Option Record
  | _, [] => none
  | i, s :: rest => (s.record? i name).or (resolveFrom name (i + 1) rest)

/-- The record of a name. -/
def resolve (r : Registry) (name : Text) : Option Record := resolveFrom name 0 r.ranked

/-- The names that any source reports. -/
def names (r : Registry) : NameSet := .ofList (r.ranked.flatMap fun s => s.source.names.toList)

/-- The records of all reported names; a name that no source defines has none. -/
def values (r : Registry) : List Record := r.names.toList.filterMap r.resolve

/-! ## Attempts -/

/-- The record of the first source that defines a name; no source behind it is asked. -/
def tryResolveFrom (name : Text) : Nat → List RankedSource → Attempt (Option Record)
  | _, [] => .ok none
  | i, s :: rest => do
      match ← s.tryRecord i name with
      | some r => return some r
      | none => tryResolveFrom name (i + 1) rest

/-- The record of a name. -/
def tryResolve (r : Registry) (name : Text) : Attempt (Option Record) := tryResolveFrom name 0 r.ranked

/-- The records of all reported names. -/
def tryValues (r : Registry) : Attempt (List Record) := do
  Attempt.each r.tryResolve r.names.toList
  return r.values

/-! ## In writing -/

/-- The names of the sources in rank order. -/
def sourceNames (r : Registry) : List Text := r.ranked.map fun s => s.source.name

/-- One line that shows every source in rank order. -/
def summary (r : Registry) : Text :=
  Summary.object "SourceRegistry".toList
    [("sources".toList, Summary.list (r.ranked.map fun s =>
      Summary.object "RankedSource".toList
        [("name".toList, Summary.quoted s.source.name), ("ordinal".toList, Text.ofInt s.ordinal),
          ("sequence".toList, Text.ofNat s.sequence)]))]

end Registry

end LayeredConfig
