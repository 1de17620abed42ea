import LayeredConfig.Registry
import LayeredConfig.Stage

/-!
# `LayeredConfig.Chain` — stages around the ranked sources

A chain lists its stages from the outermost to the innermost; what lies inside the innermost is the registry.

## Contents
- **Order.** `ofStages` sorts by priority and keeps the given order of equal ones, `insert` puts one more
  stage at its place, `inside` are the stages inside a priority.
- **Lookups.** `lookup`, `names`, `values` ask the outermost stage; with no stage left the registry answers.
- **Attempts.** `tryLookup`, `tryValues` and `tryActiveProfiles` do the same where sources may break off.
-/

namespace LayeredConfig

/-- Stages from the outermost to the innermost. -/
structure Chain where
  stages : List Stage

namespace Chain

/-! ## Order -/

/-- Sorts stages by priority, the highest first; equal priorities keep their order. -/
def ofStages (stages : List Stage) : Chain :=
  ⟨stages.mergeSort fun a b => decide (b.priority ≤ a.priority)⟩

/-- The stages of at least a priority at the outer end. -/
def outside (c : Chain) (priority : Int) : List Stage :=
  c.stages.takeWhile fun s => decide (priority ≤ s.priority)

/-- The stages behind those of at least a priority. -/
def inside (c : Chain) (priority : Int) : Chain :=
  ⟨c.stages.dropWhile fun s => decide (priority ≤ s.priority)⟩

/-- Puts a stage behind every stage of equal or higher priority. -/
def insert (c : Chain) (s : Stage) : Chain :=
  ⟨c.outside s.priority ++ s :: (c.inside s.priority).stages⟩

/-- The names of the stages, outermost first. -/
def stageNames (c : Chain) : List Text := c.stages.map Stage.name

/-! ## Lookups -/

/-- The record that a list of stages around a registry answers for a name. -/
def lookupIn (registry : Registry) (access : Access) : List Stage → Text → Option Record
  | [], name => registry.resolve name
  | s :: inner, name => s.get access (lookupIn registry access inner) name

/-- The names that a list of stages around a registry shows. -/
def namesIn (registry : Registry) : List Stage → NameSet
  | [] => registry.names
  | s :: inner => s.names (namesIn registry inner)

/-- The records that a list of stages around a registry lists. -/
def valuesIn (registry : Registry) (access : Access) : List Stage → List Record
  | [] => registry.values
  | s :: inner =>
      s.values access (lookupIn registry access inner) (namesIn registry inner)
        (valuesIn registry access inner)

/-- The record of a name. -/
def lookup (c : Chain) (registry : Registry) (access : Access) (name : Text) : Option Record :=
  lookupIn registry access c.stages name

/-- The names that the chain shows. -/
def names (c : Chain) (registry : Registry) : NameSet := namesIn registry c.stages

/-- The records that the chain lists. -/
def values (c : Chain) (registry : Registry) (access : Access) : List Record :=
  valuesIn registry access c.stages

/-! ## Profiles read through a chain -/

/-- The profiles that a comma-separated property lists; none when it has no value. -/
def listedProfiles (c : Chain) (registry : Registry) (access : Access) (property : Text) : List Text :=
  Profile.listed (((c.lookup registry access property).bind Record.value).getD [])

/-- Adds the parent of listed profiles: the value of a property under these profiles. -/
def withParentProfile (c : Chain) (registry : Registry) (access : Access) (ps : List Text)
    (property : Text) : List Text :=
  Profile.withParent ps ((Stage.overlaid (c.lookup registry access) ps property).bind Record.value)

/-- The active profiles by a property that lists them and one that names their parent. -/
def activeProfiles (c : Chain) (registry : Registry) (access : Access) (property parent : Text) :
    List Text :=
  c.withParentProfile registry access (c.listedProfiles registry access property) parent

/-! ## Attempts -/

/-- The record that a list of stages around a registry answers for a name. -/
def tryLookupIn (registry : Registry) (access : Access) : List Stage → Text → Attempt (Option Record)
  | [], name => registry.tryResolve name
  | s :: inner, name => s.tryGet access (tryLookupIn registry access inner) name

/-- The records that a list of stages around a registry lists. -/
def tryValuesIn (registry : Registry) (access : Access) : List Stage → Attempt (List Record)
  | [] => registry.tryValues
  | s :: inner =>
      s.tryValues access (tryLookupIn registry access inner) (namesIn registry inner)
        (tryValuesIn registry access inner)

/-- The record of a name. -/
def tryLookup (c : Chain) (registry : Registry) (access : Access) (name : Text) : Attempt (Option Record) :=
  tryLookupIn registry access c.stages name

/-- The records that the chain lists. -/
def tryValues (c : Chain) (registry : Registry) (access : Access) : Attempt (List Record) :=
  tryValuesIn registry access c.stages

/-- Adds the parent of listed profiles. -/
def tryWithParentProfile (c : Chain) (registry : Registry) (access : Access) (ps : List Text) (property : Text) :
    Attempt (List Text) := do
  let parent ← (Stage.profile ps).tryGet access (c.tryLookup registry access) property
  return Profile.withParent ps (parent.bind Record.value)

/-- The active profiles by a property that lists them and one that names their parent. -/
def tryActiveProfiles (c : Chain) (registry : Registry) (access : Access) (property parent : Text) :
    Attempt (List Text) := do
  let listed ← c.tryLookup registry access property
  c.tryWithParentProfile registry access (Profile.listed ((listed.bind Record.value).getD [])) parent

end Chain

end LayeredConfig
