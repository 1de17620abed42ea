import LayeredConfig.Attempt
import LayeredConfig.Expansion
import LayeredConfig.Profile
import LayeredConfig.Secret
import LayeredConfig.Dict

/-!
# `LayeredConfig.Stage` — one stage of a lookup

A lookup passes through stages on its way to the sources. A stage is asked for a name and may ask the stages
inside it, for this name or for others; it may change what they answer. It also lists names and values.

## Contents
- **`Stage`.** The stages of the library, and `CustomStage` for those of an application.
- **Order.** `name`, `priority`; the higher priority lies further out.
- **Answers.** `get`, `names`, `values`, each from the answers of the stages inside.
- **Questions.** `asked` lists the names that `get` asks inward for.
- **Attempts.** `tryGet` and `tryValues` break off where an attempt inside does that they ask for.
-/

namespace LayeredConfig

/-- A stage of an application: what it answers from the answers of the stages inside it. -/
structure CustomStage where
  label : Text
  priority : Int
  get : (Text → Option Record) → Text → Option Record
  /-- The names that `get` asks inward for, in order. -/
  asked : (Text → Option Record) → Text → List Text
  names : NameSet → NameSet
  values : List Record → List Record

/-- A stage of a lookup. -/
inductive Stage where
  /-- Reads a property under a new name first. -/
  | relocate (target : Text → Option Text)
  /-- Replaces references by values. -/
  | expression
  /-- Lays the values of active profiles over the plain ones. -/
  | profile (active : List Text)
  /-- Reads a property under another name when it is not defined. -/
  | fallback (target : Text → Option Text)
  /-- Reports every lookup and changes nothing. -/
  | logging
  /-- Takes out the values of secret names unless the reader may see them. -/
  | secret (secrets : SecretSet)
  | custom (stage : CustomStage)

namespace Stage

/-! ## Order -/

/-- The name of a stage. -/
def name : Stage → Text
  | relocate _ => "relocate".toList
  | expression => "expression".toList
  | profile _ => "profile".toList
  | fallback _ => "fallback".toList
  | logging => "logging".toList
  | secret _ => "secret-keys".toList
  | custom c => c.label

/-- The priority of the profile stage. -/
def profilePriority : Int := 3800

/-- The priority of a stage of an application that does not say otherwise. -/
def applicationPriority : Int := 5000

/-- The priority of a stage; a stage of higher priority lies further out. -/
def priority : Stage → Int
  | relocate _ => 4000
  | expression => 3900
  | profile _ => profilePriority
  | fallback _ => 3600
  | logging => 3200
  | secret _ => 3100
  | custom c => c.priority

/-- Whether a stage belongs to the library. -/
def isBuiltin : Stage → Bool
  | custom _ => false
  | _ => true

/-! ## Renaming -/

/-- The other name that a renaming gives, when it is another one. -/
def renamed (target : Text → Option Text) (name : Text) : Option Text :=
  (target name).filter fun n => n != name

/-- A renaming by a table. -/
def byTable (table : Dict Text Text) : Text → Option Text := table.get?

/-- A renaming that exchanges one beginning for another. -/
def byPrefix (before after : Text) (name : Text) : Option Text :=
  (Text.afterPrefix? before name).map fun rest => after ++ rest

/-! ## Profiles -/

/-- The first record that an active profile has for a name, under the plain name. -/
def profiled (inner : Text → Option Record) (active : List Text) (name : Text) : Option Record :=
  active.findSome? fun p =>
    (inner (Profile.qualified p name)).map fun r => (r.withName name).withProfile p

/-- Whether the profile stage looks a name up under the active profiles. -/
def overlays (active : List Text) (name : Text) : Bool := !active.isEmpty && name.head? != some '%'

/-- The record of a name under the active profiles: the profiled one, unless the plain one comes from a
source of strictly higher precedence. -/
def overlaid (inner : Text → Option Record) (active : List Text) (name : Text) : Option Record :=
  if overlays active name then
    match profiled inner active name, inner name with
    | some p, some r => if r.outranks p then some r else some p
    | some p, none => some p
    | none, r => r
  else inner name

/-- The names under which the active profiles are tried, up to the first that has a record. -/
def profileQuestions (inner : Text → Option Record) (name : Text) : List Text → List Text
  | [] => []
  | p :: ps =>
      let q := Profile.qualified p name
      if (inner q).isSome then [q] else q :: profileQuestions inner name ps

/-- A name without the qualifier of an active profile. -/
def plainName (active : List Text) (name : Text) : Text :=
  (active.findSome? fun p => Text.afterPrefix? (Profile.qualifier p) name).getD name

/-! ## Answers -/

/-- Whether a secret name is hidden from a reader. -/
def hides (secrets : SecretSet) (access : Access) (name : Text) : Bool :=
  access == .locked && secrets.contains name

/-- The record of a name, from the records that the stages inside answer. -/
def get (access : Access) (inner : Text → Option Record) (name : Text) : Stage → Option Record
  | relocate target => ((renamed target name).bind inner).or (inner name)
  | expression => (inner name).map (Record.expanded inner)
  | profile active => overlaid inner active name
  | fallback target => (inner name).or ((renamed target name).bind inner)
  | logging => inner name
  | secret secrets =>
      (inner name).map fun r => if hides secrets access name then r.redacted else r
  | custom c => c.get inner name

/-- The names that a stage shows, from those that the stages inside show. -/
def names (inner : NameSet) : Stage → NameSet
  | relocate target => inner.union (.ofList (inner.toList.filterMap (renamed target)))
  | profile active => .ofList (inner.toList.map (plainName active))
  | custom c => c.names inner
  | _ => inner

/-- The records that a stage lists, from what the stages inside answer, show and list. -/
def values (access : Access) (inner : Text → Option Record) (innerNames : NameSet)
    (innerValues : List Record) (s : Stage) : List Record :=
  match s with
  | expression => innerValues.map (Record.expanded inner)
  | profile _ => (s.names innerNames).toList.filterMap fun n => s.get access inner n
  | secret secrets => innerValues.map fun r => if hides secrets access r.name then r.redacted else r
  | custom c => c.values innerValues
  | _ => innerValues

/-! ## Questions -/

/-- The names that a stage asks inward for while it answers for a name, in order. -/
def asked (inner : Text → Option Record) (name : Text) : Stage → List Text
  | relocate target => match renamed target name with
    | some n => if (inner n).isSome then [n] else [n, name]
    | none => [name]
  | expression => name :: (((inner name).map (Record.askedForExpansion inner)).getD [])
  | profile active =>
      if overlays active name then profileQuestions inner name active ++ [name] else [name]
  | fallback target => match inner name, renamed target name with
    | none, some n => [name, n]
    | _, _ => [name]
  | logging => [name]
  | secret _ => [name]
  | custom c => c.asked inner name

/-! ## Attempts -/

/-- The record of a name, from attempts to look names up inside. -/
def tryGet (access : Access) (inner : Text → Attempt (Option Record)) (name : Text) (s : Stage) :
    Attempt (Option Record) := do
  Attempt.each inner (s.asked (Attempt.found inner) name)
  return s.get access (Attempt.found inner) name

/-- The records that a stage lists. The profile stage looks up every name that it shows and leaves the listing inside
alone; of the others only the expressions ask for names, those of the references in what is listed inside. -/
def tryValues (access : Access) (inner : Text → Attempt (Option Record)) (innerNames : NameSet)
    (innerValues : Attempt (List Record)) (s : Stage) : Attempt (List Record) :=
  let found := Attempt.found inner
  match s with
  | profile _ => do
      Attempt.each (fun n => s.tryGet access inner n) (s.names innerNames).toList
      return s.values access found innerNames []
  | expression => do
      let listed ← innerValues
      Attempt.each inner (listed.flatMap (Record.askedForExpansion found))
      return s.values access found innerNames listed
  | _ => do
      let listed ← innerValues
      return s.values access found innerNames listed

end Stage

end LayeredConfig
