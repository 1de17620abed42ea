import LayeredConfig.Dict
import LayeredConfig.Environment.Spelling

/-!
# `LayeredConfig.Environment.Snapshot` — looking names up in a set of variables

A name is tried as it stands, then in its key spelling, then in its key spelling raised to capitals. A
`Resolver` remembers the outcome for each name that was asked.

## Contents
- **`keyFor?`.** The variable that a name resolves to; `lookup` is its value.
- **`Resolver`.** The variables together with the remembered outcomes; `resolve` asks through them.
-/

namespace LayeredConfig.Environment

open Text

/-- Environment variables by key. -/
abbrev Variables := Dict Text Text

/-- The first of the name, its key spelling and its raised key spelling that is a variable. -/
def keyFor? (vars : Variables) (name : Text) : Option Text :=
  [name, keyOf name, asciiUpper (keyOf name)].find? fun k => (vars.get? k).isSome

/-- The value of the variable that a name resolves to. -/
def lookup (vars : Variables) (name : Text) : Option Text :=
  (keyFor? vars name).bind vars.get?

/-- The variables whose keys continue `pre`, under what follows it; a key equal to `pre` is dropped. -/
def stripPrefix (vars : Variables) (pre : Text) : Variables :=
  Dict.ofPairs (vars.entries.filterMap fun e => match afterPrefix? pre e.1 with
    | some (c :: r) => some (c :: r, e.2)
    | _ => none)

/-- Variables, and the outcome for every name asked so far. -/
structure Resolver where
  vars : Variables
  remembered : Dict Text (Option Text)

namespace Resolver

/-- Nothing was asked yet. -/
def ofVariables (vars : Variables) : Resolver := ⟨vars, .empty⟩

/-- The variable that a name resolves to, from memory when the name was asked before. -/
def resolve (r : Resolver) (name : Text) : Option Text × Resolver :=
  match r.remembered.get? name with
  | some known => (known, r)
  | none =>
      let key := keyFor? r.vars name
      (key, { r with remembered := r.remembered.insert name key })

/-- The value of the variable that a name resolves to. -/
def lookup (r : Resolver) (name : Text) : Option Text × Resolver :=
  let (key, r') := r.resolve name
  (key.bind r.vars.get?, r')

/-- The number of names asked so far. -/
def rememberedCount (r : Resolver) : Nat := r.remembered.size

end Resolver

end LayeredConfig.Environment
