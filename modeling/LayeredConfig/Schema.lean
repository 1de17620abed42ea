import LayeredConfig.Name.Segment

/-!
# `LayeredConfig.Schema` — declared shapes

A schema says which members a reader expects below a prefix: scalars with or without a default, groups,
lists and maps.

## Contents
- **`Shape`, `Schema`.** The members of a schema by name; `MembersNamed` asks something of all these names.
- **Declared names.** `declaredNames` lists every name that can be read, with `*` for a key and `[*]` for an
  index.
- **Defaults.** `defaults` lists the default values with the patterns they stand for.
-/

namespace LayeredConfig

open Name

/-- The shape of a member. -/
inductive Shape where
  /-- A required scalar, with the value it has when no source defines it. -/
  | leaf (default : Option Text)
  /-- A scalar that may be absent. -/
  | optional
  | group (members : List (Text × Shape))
  /-- A group that is absent unless some member of it is defined. -/
  | optionalGroup (members : List (Text × Shape))
  | list
  | listOfGroups (members : List (Text × Shape))
  | map
  | mapOfLists
  | mapOfGroups (members : List (Text × Shape))

/-- Members below a prefix. -/
structure Schema where
  root : Text
  members : List (Text × Shape)

mutual

/-- The members of a shape, at any depth, have names of a certain kind. -/
def Shape.Named (P : Text → Prop) : Shape → Prop
  | .group ms => MembersNamed P ms
  | .optionalGroup ms => MembersNamed P ms
  | .listOfGroups ms => MembersNamed P ms
  | .mapOfGroups ms => MembersNamed P ms
  | _ => True

/-- Members have such names, and so have their own members. -/
def MembersNamed (P : Text → Prop) : List (Text × Shape) → Prop
  | [] => True
  | (name, s) :: r => P name ∧ s.Named P ∧ MembersNamed P r

end

theorem MembersNamed.of_mem {P : Text → Prop} {ms : List (Text × Shape)} (h : MembersNamed P ms) {m : Text × Shape}
    (hm : m ∈ ms) : P m.1 := by
  induction ms with
  | nil => exact absurd hm List.not_mem_nil
  | cons n ms ih =>
      rcases List.mem_cons.mp hm with rfl | hm
      · exact h.1
      · exact ih h.2.2 hm

/-! ## Paths -/

/-- The path of a member. -/
def memberPath (parent name : Text) : Text := join parent (quotedIfNeeded name)

/-- The pattern of the elements of a list. -/
def anyElement (path : Text) : Text := path ++ ['[', '*', ']']

/-- The pattern of the entries of a map. -/
def anyEntry (path : Text) : Text := join path ['*']

/-! ## Declared names -/

mutual

/-- The names that can be read for a shape at a path. -/
def Shape.declaredNames (path : Text) : Shape → List Text
  | .leaf _ => [path]
  | .optional => [path]
  | .group ms => declaredOf path ms
  | .optionalGroup ms => declaredOf path ms
  | .list => [path, anyElement path]
  | .listOfGroups ms => declaredOf (anyElement path) ms
  | .map => [path, anyEntry path]
  | .mapOfLists => [path, anyEntry path, anyElement (anyEntry path)]
  | .mapOfGroups ms => declaredOf (anyEntry path) ms

/-- The names that can be read for members below a path. -/
def declaredOf (path : Text) : List (Text × Shape) → List Text
  | [] => []
  | (name, s) :: r => s.declaredNames (memberPath path name) ++ declaredOf path r

end

/-! ## Defaults -/

mutual

/-- The default values of a shape at a path. -/
def Shape.defaults (path : Text) : Shape → List (Text × Text)
  | .leaf (some v) => [(path, v)]
  | .leaf none => []
  | .optional => []
  | .group ms => defaultsOf path ms
  | .optionalGroup ms => defaultsOf path ms
  | .list => []
  | .listOfGroups ms => defaultsOf (anyElement path) ms
  | .map => []
  | .mapOfLists => []
  | .mapOfGroups ms => defaultsOf (anyEntry path) ms

/-- The default values of members below a path. -/
def defaultsOf (path : Text) : List (Text × Shape) → List (Text × Text)
  | [] => []
  | (name, s) :: r => s.defaults (memberPath path name) ++ defaultsOf path r

end

namespace Schema

/-- Every name that can be read, with wildcards. -/
def declaredNames (s : Schema) : List Text := declaredOf s.root s.members

/-- Every default value with the pattern it stands for. -/
def defaults (s : Schema) : List (Text × Text) := defaultsOf s.root s.members

/-- Whether a name lies below the root of the schema. -/
def covers (s : Schema) (name : Text) : Bool :=
  s.root.isEmpty ||
    match Text.afterPrefix? s.root name with
    | some rest => rest.isEmpty || rest.head? == some '.' || rest.head? == some '['
    | none => false

end Schema

end LayeredConfig
