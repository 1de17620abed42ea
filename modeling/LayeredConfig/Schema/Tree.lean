import LayeredConfig.Pipeline.Typed

/-!
# `LayeredConfig.Schema.Tree` — a schema filled with values

Binding a schema reads every member that it declares and puts the values into a tree of the same shape. It is
described for names at which no look-up breaks off.

## Contents
- **`Tree`.** Texts, lists and tables.
- **`Config.bind`.** The tree of a schema; all names are taken from one listing.
-/

namespace LayeredConfig

open Family

/-- A tree of texts. The entries of a table are in ascending order of their keys. -/
inductive Tree where
  | text (t : Text)
  | list (items : List Tree)
  | table (entries : List (Text × Tree))

namespace Tree

/-- The table of entries, in which a later entry replaces an earlier one of the same key. -/
def tableOf (entries : List (Text × Tree)) : Tree :=
  .table (entries.foldl (fun t e => insertEntry e.1 e.2 t) [])

/-- The list of texts. -/
def texts (ts : List Text) : Tree := .list (ts.map .text)

end Tree

namespace Config

/-! ## Scalars and their collections -/

/-- A scalar that has to be there; it may be empty. -/
def bindLeaf (c : Config) (path : Text) : Except ConfigError Tree := do
  match ← c.rawText path with
  | some t => return .text t
  | none => throw (.notFound path)

/-- A scalar that may be absent. -/
def bindOptional (c : Config) (path : Text) : Except ConfigError (Option Tree) := do
  return (← c.nonEmptyText path).map Tree.text

/-- A list of scalars; elements without value are left out. -/
def bindList (c : Config) (names : List Text) (path : Text) : Except ConfigError Tree := do
  match Family.readList c.value? names path with
  | .indexed elements => return .list ((← elements.mapM c.bindOptional).filterMap id)
  | .inline _ items => do
      let _ ← c.checked path
      return Tree.texts items

/-- A map of scalars; members without value are left out. -/
def bindMap (c : Config) (names : List Text) (path : Text) : Except ConfigError Tree := do
  match Family.readMap c.value? names path with
  | .keyed members =>
      let entries ← members.mapM fun (key, member) => do
        return (← c.bindOptional member).map fun t => (key, t)
      return Tree.tableOf (entries.filterMap id)
  | .inline _ entries => do
      let _ ← c.checked path
      return Tree.tableOf (entries.map fun e => (e.1, .text e.2))

/-- A map of lists of scalars; a value of an inline map is cut at commas. -/
def bindMapOfLists (c : Config) (names : List Text) (path : Text) : Except ConfigError Tree := do
  match Family.readMap c.value? names path with
  | .keyed members =>
      let entries ← members.mapM fun (key, member) => do return (key, ← c.bindList names member)
      return Tree.tableOf entries
  | .inline _ entries => do
      let _ ← c.checked path
      return Tree.tableOf (entries.map fun e => (e.1, Tree.texts (splitList e.2)))

/-- Whether any name lies below a path. -/
def hasMembers (names : List Text) (path : Text) : Bool :=
  names.any fun n => match Text.afterPrefix? path n with
    | some rest => rest.head? == some '.' || rest.head? == some '['
    | none => false

/-! ## Shapes -/

mutual

/-- The tree of a shape at a path; a member that may be absent has none. -/
def bindShape (c : Config) (names : List Text) (path : Text) : Shape → Except ConfigError (Option Tree)
  | .leaf _ => some <$> c.bindLeaf path
  | .optional => c.bindOptional path
  | .group ms => do return some (Tree.tableOf (← c.bindMembers names path ms))
  | .optionalGroup ms => do
      if hasMembers names path then return some (Tree.tableOf (← c.bindMembers names path ms))
      else return none
  | .list => some <$> c.bindList names path
  | .listOfGroups ms => do
      let items ← (elements path names).mapM fun e => c.bindMembers names e ms
      return some (.list (items.map Tree.tableOf))
  | .map => some <$> c.bindMap names path
  | .mapOfLists => some <$> c.bindMapOfLists names path
  | .mapOfGroups ms => do
      let entries ← (groupKeys path names).mapM fun (key, member) => do
        return (key, Tree.tableOf (← c.bindMembers names member ms))
      return some (Tree.tableOf entries)

/-- The entries of members below a path, those without a tree left out. -/
def bindMembers (c : Config) (names : List Text) (path : Text) :
    List (Text × Shape) → Except ConfigError (List (Text × Tree))
  | [] => .ok []
  | (name, s) :: r => do
      let here ← c.bindShape names (memberPath path name) s
      let rest ← c.bindMembers names path r
      return (here.map fun t => (name, t)).toList ++ rest

end

/-- The tree of a schema. -/
def bind (c : Config) (s : Schema) : Except ConfigError Tree := do
  return Tree.tableOf (← c.bindMembers c.propertyNames.toList s.root s.members)

/-- What is reported when no schema has a root. -/
def missingSchema (root : Text) : ConfigError := .notFound ("mapping '".toList ++ root ++ "'".toList)

/-- The tree of the declared schema with a root. -/
def bindRoot (c : Config) (root : Text) : Except ConfigError Tree :=
  match c.schema? root with
  | some s => c.bind s
  | none => .error (missingSchema root)

end Config

end LayeredConfig
