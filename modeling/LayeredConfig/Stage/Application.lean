import LayeredConfig.Stage

/-!
# `LayeredConfig.Stage.Application` — stages that an application may add

Four small stages of common kinds: one that changes values, two that supply them, one that renames.

## Contents
- **`CustomStage.shouting`** raises the letters of every processed value.
- **`CustomStage.constant`** answers every name itself, **`CustomStage.supplying`** one name.
- **`CustomStage.tenant`** reads every name below the name of a tenant first.
-/

namespace LayeredConfig.CustomStage

/-- Raises the ASCII letters of every processed value; an absent one stays absent. -/
def shouting (label : Text) (priority : Int) : CustomStage where
  label := label
  priority := priority
  get inner name := (inner name).map fun r => r.withValue (r.value.map Text.asciiUpper)
  asked _ name := [name]
  names := id
  values := id

/-- Answers every name with the same value. -/
def constant (label : Text) (priority : Int) (value : Text) : CustomStage where
  label := label
  priority := priority
  get _ name := some (.ofValue name value)
  asked _ _ := []
  names := id
  values := id

/-- Answers one name with a value, and shows it. -/
def supplying (label : Text) (priority : Int) (supplied value : Text) : CustomStage where
  label := label
  priority := priority
  get inner name := if name = supplied then some (.ofValue name value) else inner name
  asked _ name := if name = supplied then [] else [name]
  names ns := ns.insert supplied
  values := id

/-- Reads a name below the name of a tenant, and under itself when the tenant does not define it. -/
def tenant (label : Text) (priority : Int) (tenant : Text) : CustomStage where
  label := label
  priority := priority
  get inner name := ((inner (tenant ++ '.' :: name)).map fun r => r.withName name).or (inner name)
  asked inner name :=
    let below := tenant ++ '.' :: name
    if (inner below).isSome then [below] else [below, name]
  names := id
  values := id

end LayeredConfig.CustomStage
