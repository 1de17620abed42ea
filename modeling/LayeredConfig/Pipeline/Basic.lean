import LayeredConfig.Chain
import LayeredConfig.Error
import LayeredConfig.Log
import LayeredConfig.Name.PatternIndex
import LayeredConfig.Schema

/-!
# `LayeredConfig.Pipeline.Basic` — an assembled configuration

A pipeline is what remains of a configuration after its parts have been put together; it never changes. A
`Config` is a reader's view of it, which may or may not see secret values.

## Contents
- **`Pipeline`, `Config`.** The parts, and the view of a reader.
- **Lookups.** `value?` with its problems, `checked` without, `rawText` for the text alone.
- **Listings.** `propertyNames`, `records`, `events`.
- **Attempts.** `tryValue`, `tryRecords`, `tryEvents`, `tryUndeclaredNames` for sources that may break off.
-/

namespace LayeredConfig

/-- The parts of an assembled configuration. -/
structure Pipeline where
  registry : Registry
  chain : Chain
  profiles : List Text
  schemas : List Schema
  declared : Name.PatternIndex
  ignored : Trie Unit

/-- A reader's view of a pipeline. -/
structure Config where
  pipeline : Pipeline
  access : Access

namespace Config

/-- The same pipeline for a reader who may see secret values. -/
def unlocked (c : Config) : Config := { c with access := .unlocked }

/-! ## Lookups -/

/-- The record of a name, with its problems. -/
def value? (c : Config) (name : Text) : Option Record :=
  c.pipeline.chain.lookup c.pipeline.registry c.access name

/-- The record of a name; its first problem, if it has one, is an error. -/
def checked (c : Config) (name : Text) : Except ConfigError (Option Record) :=
  match c.value? name with
  | none => .ok none
  | some r => match r.problems with
    | [] => .ok (some r)
    | .secretAccessDenied :: _ => .error (.secretDenied name)
    | p :: _ => .error (.expression name p)

/-- The processed value of a name; the empty text is a value. -/
def rawText (c : Config) (name : Text) : Except ConfigError (Option Text) :=
  (c.checked name).map fun r => r.bind Record.value

/-- The processed value of a name, where the empty text counts as none. -/
def nonEmptyText (c : Config) (name : Text) : Except ConfigError (Option Text) :=
  (c.rawText name).map fun v => v.filter fun t => !t.isEmpty

/-! ## Listings -/

/-- Every name that the pipeline shows. -/
def propertyNames (c : Config) : NameSet := c.pipeline.chain.names c.pipeline.registry

/-- Every record that the pipeline lists. -/
def records (c : Config) : List Record := c.pipeline.chain.values c.pipeline.registry c.access

/-- What the logging stages report while a name is looked up. -/
def events (c : Config) (name : Text) : List LogEvent :=
  c.pipeline.chain.events c.pipeline.registry c.access name

/-- The declared schema of a root. -/
def schema? (c : Config) (root : Text) : Option Schema := c.pipeline.schemas.find? fun s => s.root == root

/-- The word for an access. -/
def accessWord : Access → Text
  | .locked => "Locked".toList
  | .unlocked => "Unlocked".toList

/-- One line that shows the parts of a configuration. -/
def summary (c : Config) : Text :=
  let quotedList (ts : List Text) := Summary.list (ts.map Summary.quoted)
  Summary.object "Config".toList
    [("sources".toList, quotedList c.pipeline.registry.sourceNames),
      ("interceptors".toList, quotedList c.pipeline.chain.stageNames),
      ("profiles".toList, quotedList c.pipeline.profiles),
      ("access".toList, accessWord c.access)]

/-! ## Undeclared names -/

/-- Whether a name lies below a schema and no schema declares it, nor is it to be ignored. -/
def isUndeclared (c : Config) (name : Text) : Bool :=
  c.pipeline.schemas.any (fun s => s.covers name) && !c.pipeline.declared.accepts name &&
    !c.pipeline.ignored.contains name

/-- The names of all sources whose names are spelled exactly, without the qualifier of a profile. -/
def checkedNames (c : Config) : List Text :=
  ((c.pipeline.registry.ranked.filter fun s => s.source.validatesNames).flatMap fun s =>
    s.source.names.toList).map Name.unprofiled

/-- The undeclared names of all sources whose names are spelled exactly, without the qualifier of a
profile, in ascending order. -/
def undeclaredNames (c : Config) : List Text := (NameSet.ofList (c.checkedNames.filter c.isUndeclared)).toList

/-! ## Attempts -/

/-- The record of a name, with its problems. -/
def tryValue (c : Config) (name : Text) : Attempt (Option Record) :=
  c.pipeline.chain.tryLookup c.pipeline.registry c.access name

/-- Every record that the pipeline lists. -/
def tryRecords (c : Config) : Attempt (List Record) := c.pipeline.chain.tryValues c.pipeline.registry c.access

/-- What the logging stages report while a name is looked up. -/
def tryEvents (c : Config) (name : Text) : Attempt (List LogEvent) :=
  c.pipeline.chain.tryEvents c.pipeline.registry c.access name

/-- Whether a name lies below a schema and no schema declares it, nor is it to be ignored. Only of such a name is it
asked whether it is to be ignored. -/
def tryIsUndeclared (c : Config) (name : Text) : Attempt Bool :=
  if c.pipeline.schemas.any (fun s => s.covers name) && !c.pipeline.declared.accepts name then
    (c.pipeline.ignored.tryGet name).map Option.isNone
  else .ok false

/-- The undeclared names of all sources whose names are spelled exactly. -/
def tryUndeclaredNames (c : Config) : Attempt (List Text) := do
  Attempt.each c.tryIsUndeclared c.checkedNames
  return c.undeclaredNames

end Config

end LayeredConfig
