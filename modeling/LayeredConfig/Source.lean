import LayeredConfig.Environment.Alignment
import LayeredConfig.Environment.Snapshot
import LayeredConfig.Name.Trie
import LayeredConfig.Number.Integer
import LayeredConfig.Record
import LayeredConfig.Text.Blank

/-!
# `LayeredConfig.Source` — where values come from

A source is asked for the value of a name and lists the names it knows. Sources are never merged: of all
that define a name, one answers.

## Contents
- **Kinds.** `TableSource` holds a table of properties, `EnvironmentSource` a set of variables, the defaults
  are a tree of patterns, and `CustomSource` answers by functions of its own.
- **`Source`.** Name, ordinal, `get?`, `names`, `line?`; `reconcile` tells a source the declared names.
- **Attempts.** The defaults break off at a path without steps: `tryDefaults` makes them, `tryGet` asks a source.
-/

namespace LayeredConfig

open Text

/-! ## Ordinals -/

/-- The property that sets the ordinal of the source that holds it. -/
def ordinalProperty : Text := "config_ordinal".toList

/-- The ordinal of a source that does not say otherwise. -/
def ordinaryOrdinal : Int := 100

/-- The ordinal of an environment that does not say otherwise. -/
def environmentOrdinal : Int := 300

/-- The ordinals: integers of 32 bits. -/
def ordinalRange : Number.Range := .signed 32

/-- The ordinal of a source by its ordinal property: an integer of 32 bits, blanks around it aside. -/
def ordinalOf (property : Option Text) : Int :=
  match property with
  | some t => match ordinalRange.parse (trim t) with
    | .ok n => n
    | .error _ => ordinaryOrdinal
  | none => ordinaryOrdinal

/-! ## Kinds of sources -/

/-- A table of properties, with the lines some of them were read from. -/
structure TableSource where
  name : Text
  properties : Dict Text Text
  ordinal : Int
  lines : Dict Text Nat

/-- A table of properties whose ordinal is that of its ordinal property. -/
def TableSource.ofProperties (name : Text) (properties : Dict Text Text) : TableSource :=
  ⟨name, properties, ordinalOf (properties.get? ordinalProperty), .empty⟩

/-- A set of variables, and the declared names that their keys spell. -/
structure EnvironmentSource where
  name : Text
  vars : Environment.Variables
  spelled : Dict Text Text
  ordinal : Int

namespace EnvironmentSource

/-- The name of an environment. -/
def baseName : Text := "EnvConfigSource".toList

/-- An environment of given variables. -/
def ofVariables (vars : Environment.Variables) : EnvironmentSource :=
  ⟨baseName, vars, .empty, environmentOrdinal⟩

/-- Only the variables that start with `PREFIX_`, without it; trailing `_` of the prefix do not count. -/
def withPrefix (e : EnvironmentSource) (pre : Text) : EnvironmentSource :=
  let pre := dropRightWhile (· == '_') pre ++ ['_']
  ⟨baseName ++ '[' :: pre ++ ['*', ']'], Environment.stripPrefix e.vars pre, .empty, e.ordinal⟩

/-- Learns the declared names, so that keys are reported in their declared spelling. -/
def reconcile (e : EnvironmentSource) (declared : List Text) : EnvironmentSource :=
  { e with spelled := Environment.reconcile declared e.vars.keys }

/-- The names under which one key is reported: the key, its dotted form and its declared spelling. -/
def namesOfKey (e : EnvironmentSource) (key : Text) : List Text :=
  key :: Environment.dottedOf key :: (e.spelled.get? key).toList

/-- The names of all keys. -/
def names (e : EnvironmentSource) : NameSet := .ofList (e.vars.keys.flatMap e.namesOfKey)

end EnvironmentSource

/-- A source of an application, which answers by functions of its own. -/
structure CustomSource where
  name : Text
  ordinal : Int
  get? : Text → Option Text
  names : NameSet
  line? : Text → Option Nat
  validatesNames : Bool

/-- A source that answers for names and lists them; its ordinal is that of its ordinal property. -/
def CustomSource.ofLookup (name : Text) (get? : Text → Option Text) (names : NameSet) : CustomSource :=
  ⟨name, ordinalOf (get? ordinalProperty), get?, names, fun _ => none, true⟩

/-- A configuration source. -/
inductive Source where
  | table (t : TableSource)
  | environment (e : EnvironmentSource)
  | defaults (d : Trie Text)
  | custom (c : CustomSource)

namespace Source

/-- The tree of default values; the first value of a path stays. -/
def defaultsOfPairs (ps : List (Text × Text)) : Trie Text :=
  ps.foldl (fun t p => t.putNew p.1 p.2) .empty

/-- The name of the defaults. -/
def defaultsName : Text := "DefaultValuesConfigSource".toList

/-- The name of a source. -/
def name : Source → Text
  | table t => t.name
  | environment e => e.name
  | defaults _ => defaultsName
  | custom c => c.name

/-- The value that a source holds under a name; the empty text is a value. -/
def get? : Source → Text → Option Text
  | table t => t.properties.get?
  | environment e => Environment.lookup e.vars
  | defaults d => d.get?
  | custom c => c.get?

/-- The ordinal of a source; the defaults have the least one there is. -/
def ordinal : Source → Int
  | table t => t.ordinal
  | environment e => e.ordinal
  | defaults _ => ordinalRange.least
  | custom c => c.ordinal

/-- The names that a source reports. A default for a pattern reports no name. -/
def names : Source → NameSet
  | table t => t.properties.keySet
  | environment e => e.names
  | defaults d => d.flatten.keySet.filter fun n => !n.contains '*'
  | custom c => c.names

/-- The line from which a property was read, where it is known. -/
def line? : Source → Text → Option Nat
  | table t => t.lines.get?
  | custom c => c.line?
  | _ => fun _ => none

/-- Tells the source the declared names. -/
def reconcile (declared : List Text) : Source → Source
  | environment e => environment (e.reconcile declared)
  | s => s

/-- Whether the names of the source are spelled exactly, so that an undeclared one is a mistake. -/
def validatesNames : Source → Bool
  | environment _ => false
  | custom c => c.validatesNames
  | _ => true

/-! ## Attempts -/

/-- The tree of default values; the first value of a path stays. -/
def tryDefaults (ps : List (Text × Text)) : Attempt (Trie Text) :=
  ps.foldlM (fun t p => t.tryPutNew p.1 p.2) .empty

/-- The value that a source holds under a name. Only the defaults cut the name into steps. -/
def tryGet (s : Source) (name : Text) : Attempt (Option Text) :=
  match s with
  | defaults d => d.tryGet name
  | table t => .ok (t.properties.get? name)
  | environment e => .ok (Environment.lookup e.vars name)
  | custom c => .ok (c.get? name)

end Source

end LayeredConfig
