import LayeredConfig.Schema.Tree

/-!
# `LayeredConfig.Proofs.Schema.Reads` — the names at which binding reads

Binding takes three things from a configuration: the listing of its names, the choice between the two spellings of each
list and map, and the scalars at certain names. This file lists those names.

## Contents
- **`Config.scalarNames`.** The names at which a scalar of a shape is read; `Config.schemaNames` for a whole schema.
- **Nothing else is read.** A configuration with the same names, the same choices and the same scalars at these names
  binds to the same tree (`bindShape_congr`, `bind_congr`).
-/

namespace LayeredConfig

open Family

namespace Config

variable {c c' : Config} {names : List Text} {path : Text}

/-! ## Names -/

/-- The names at which the scalars of a list are read: its elements, or its inline value. -/
def listNames (c : Config) (names : List Text) (path : Text) : List Text :=
  match Family.readList c.value? names path with
  | .indexed elements => elements
  | .inline _ _ => [path]

/-- The names at which the scalars of a map are read, when those of a member are read at the given names. -/
def mapNames (c : Config) (names : List Text) (path : Text) (member : Text → List Text) : List Text :=
  match Family.readMap c.value? names path with
  | .keyed members => members.flatMap fun m => member m.2
  | .inline _ _ => [path]

mutual

/-- The names at which the scalars of a shape are read. -/
def scalarNames (c : Config) (names : List Text) (path : Text) : Shape → List Text
  | .leaf _ => [path]
  | .optional => [path]
  | .group ms => c.memberNames names path ms
  | .optionalGroup ms => c.memberNames names path ms
  | .list => c.listNames names path
  | .listOfGroups ms => (elements path names).flatMap fun e => c.memberNames names e ms
  | .map => c.mapNames names path fun m => [m]
  | .mapOfLists => c.mapNames names path fun m => c.listNames names m
  | .mapOfGroups ms => (groupKeys path names).flatMap fun m => c.memberNames names m.2 ms

/-- The names at which the scalars of members are read. -/
def memberNames (c : Config) (names : List Text) (path : Text) : List (Text × Shape) → List Text
  | [] => []
  | (name, s) :: r => c.scalarNames names (memberPath path name) s ++ c.memberNames names path r

end

/-- The names at which the scalars of a schema are read. -/
def schemaNames (c : Config) (s : Schema) : List Text := c.memberNames c.propertyNames.toList s.root s.members

/-! ## Nothing else is read -/

/-- Two configurations that read every root in the same spelling. -/
structure SameSpellings (c c' : Config) : Prop where
  list : ∀ names root, Family.readList c'.value? names root = Family.readList c.value? names root
  map : ∀ names root, Family.readMap c'.value? names root = Family.readMap c.value? names root

theorem mapM_congr {α β : Type} {f g : α → Except ConfigError β} {l : List α} (h : ∀ a ∈ l, f a = g a) :
    l.mapM f = l.mapM g := by
  induction l with
  | nil => rfl
  | cons a l ih =>
      rw [List.mapM_cons, List.mapM_cons, h a List.mem_cons_self, ih fun b hb => h b (List.mem_cons_of_mem a hb)]

theorem bindLeaf_congr (h : c'.checked path = c.checked path) : c'.bindLeaf path = c.bindLeaf path := by
  rw [bindLeaf, bindLeaf, rawText, rawText, h]

theorem bindOptional_congr (h : c'.checked path = c.checked path) : c'.bindOptional path = c.bindOptional path := by
  rw [bindOptional, bindOptional, nonEmptyText, nonEmptyText, rawText, rawText, h]

theorem bindList_congr (hsame : SameSpellings c c') (h : ∀ n ∈ c.listNames names path, c'.checked n = c.checked n) :
    c'.bindList names path = c.bindList names path := by
  unfold listNames at h
  rw [bindList, bindList, hsame.list]
  cases hread : Family.readList c.value? names path with
  | indexed elements =>
      rw [hread] at h
      show (do let ts ← elements.mapM c'.bindOptional; _) = (do let ts ← elements.mapM c.bindOptional; _)
      rw [mapM_congr fun e he => bindOptional_congr (h e he)]
  | inline r items =>
      rw [hread] at h
      show (do let _ ← c'.checked path; _) = (do let _ ← c.checked path; _)
      rw [h path List.mem_cons_self]

theorem bindMap_congr (hsame : SameSpellings c c')
    (h : ∀ n ∈ c.mapNames names path fun m => [m], c'.checked n = c.checked n) :
    c'.bindMap names path = c.bindMap names path := by
  unfold mapNames at h
  rw [bindMap, bindMap, hsame.map]
  cases hread : Family.readMap c.value? names path with
  | keyed members =>
      rw [hread] at h
      have hmember (m : Text × Text) (hm : m ∈ members) : c'.bindOptional m.2 = c.bindOptional m.2 :=
        bindOptional_congr (h m.2 (List.mem_flatMap.mpr ⟨m, hm, List.mem_singleton_self _⟩))
      refine congrArg (· >>= _) (mapM_congr fun ⟨key, member⟩ hm => ?_)
      exact congrArg (· >>= _) (hmember (key, member) hm)
  | inline r items =>
      rw [hread] at h
      show (do let _ ← c'.checked path; _) = (do let _ ← c.checked path; _)
      rw [h path List.mem_cons_self]

theorem bindMapOfLists_congr (hsame : SameSpellings c c')
    (h : ∀ n ∈ c.mapNames names path fun m => c.listNames names m, c'.checked n = c.checked n) :
    c'.bindMapOfLists names path = c.bindMapOfLists names path := by
  unfold mapNames at h
  rw [bindMapOfLists, bindMapOfLists, hsame.map]
  cases hread : Family.readMap c.value? names path with
  | keyed members =>
      rw [hread] at h
      have hmember (m : Text × Text) (hm : m ∈ members) : c'.bindList names m.2 = c.bindList names m.2 :=
        bindList_congr hsame fun n hn => h n (List.mem_flatMap.mpr ⟨m, hm, hn⟩)
      refine congrArg (· >>= _) (mapM_congr fun ⟨key, member⟩ hm => ?_)
      exact congrArg (· >>= _) (hmember (key, member) hm)
  | inline r items =>
      rw [hread] at h
      show (do let _ ← c'.checked path; _) = (do let _ ← c.checked path; _)
      rw [h path List.mem_cons_self]

mutual

/-- The tree of a shape depends on the scalars at its names alone. -/
theorem bindShape_congr (hsame : SameSpellings c c') (path : Text) : ∀ s : Shape,
    (∀ n ∈ c.scalarNames names path s, c'.checked n = c.checked n) →
      c'.bindShape names path s = c.bindShape names path s
  | .leaf _, h => by
      rw [bindShape, bindShape, bindLeaf_congr (h path List.mem_cons_self)]
  | .optional, h => by
      rw [bindShape, bindShape, bindOptional_congr (h path List.mem_cons_self)]
  | .group ms, h => by
      rw [bindShape, bindShape, bindMembers_congr hsame path ms h]
  | .optionalGroup ms, h => by
      rw [bindShape, bindShape, bindMembers_congr hsame path ms h]
  | .list, h => by
      rw [bindShape, bindShape, bindList_congr hsame h]
  | .listOfGroups ms, h => by
      rw [bindShape, bindShape]
      rw [mapM_congr fun e he => bindMembers_congr hsame e ms fun n hn => h n (List.mem_flatMap.mpr ⟨e, he, hn⟩)]
  | .map, h => by
      rw [bindShape, bindShape, bindMap_congr hsame h]
  | .mapOfLists, h => by
      rw [bindShape, bindShape, bindMapOfLists_congr hsame h]
  | .mapOfGroups ms, h => by
      have hmember (m : Text × Text) (hm : m ∈ groupKeys path names) :
          c'.bindMembers names m.2 ms = c.bindMembers names m.2 ms :=
        bindMembers_congr hsame m.2 ms fun n hn => h n (List.mem_flatMap.mpr ⟨m, hm, hn⟩)
      rw [bindShape, bindShape]
      refine congrArg (· >>= _) (mapM_congr fun ⟨key, member⟩ hm => ?_)
      exact congrArg (· >>= _) (hmember (key, member) hm)

/-- So do the entries of members. -/
theorem bindMembers_congr (hsame : SameSpellings c c') (path : Text) : ∀ ms : List (Text × Shape),
    (∀ n ∈ c.memberNames names path ms, c'.checked n = c.checked n) →
      c'.bindMembers names path ms = c.bindMembers names path ms
  | [], _ => rfl
  | (name, s) :: ms, h => by
      rw [bindMembers, bindMembers,
        bindShape_congr hsame (memberPath path name) s fun n hn => h n (List.mem_append_left _ hn),
        bindMembers_congr hsame path ms fun n hn => h n (List.mem_append_right _ hn)]

end

/-- Binding depends on the names, on the spellings and on the scalars at the names of the schema. -/
theorem bind_congr (hsame : SameSpellings c c') (hnames : c'.propertyNames = c.propertyNames) (s : Schema)
    (h : ∀ n ∈ c.schemaNames s, c'.checked n = c.checked n) : c'.bind s = c.bind s := by
  rw [bind, bind, hnames, bindMembers_congr hsame s.root s.members h]

end Config

end LayeredConfig
