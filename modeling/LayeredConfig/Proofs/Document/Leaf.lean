import LayeredConfig.File
import LayeredConfig.Proofs.Document.Path
import Mathlib

/-!
# `LayeredConfig.Proofs.Document.Leaf` — a file loses and merges nothing when it is flattened

The leaves of a value are its scalars, its nulls and its empty lists; tables and other lists have parts instead. The
properties of a table are its leaves under the names of their paths, and as a name spells one path only, no two of them
fall together.

## Contents
- **Paths into a value.** `Value.part?` is the value at a branch, `Value.at?` the one at a path.
- **Leaves.** `Value.HasLeaf` says which text stands at which path, `Value.leaves` lists these texts with their paths.
- **Spelled values.** `Value.IsSpelled`: every table holds each of its keys once, and names can spell them. The leaves
  of such a value are listed once (`IsSpelled.mem_leaves_iff`, `IsSpelled.nodup_leaves`).
- **Properties.** They are the leaves (`IsSpelled.properties_eq`); `Value.FlattensTo` says that a dictionary holds one
  entry for each of them.
- **Files.** `FileRequest.HandsOver`, the table of a file; `flattened_faithfully` for the source that it makes.
-/

namespace LayeredConfig

open Text Name Family

namespace Document

namespace Value

/-! ## Paths into a value -/

/-- The value at a branch. -/
def part? : Value → Branch → Option Value
  | table es, .key k => lookupKey k es
  | list items, .index i => items[i]?
  | _, _ => none

/-- The value at a path. -/
def at? (v : Value) : List Branch → Option Value
  | [] => some v
  | b :: path => (v.part? b).bind fun w => w.at? path

/-! ## Leaves -/

/-- At a path of a value stands a leaf with a text. -/
def HasLeaf (v : Value) (path : List Branch) (t : Text) : Prop :=
  ∃ w, v.at? path = some w ∧ w.IsLeaf ∧ w.scalarText = t

/-- Puts a branch in front of the path of a leaf. -/
def onto (b : Branch) (l : List Branch × Text) : List Branch × Text := (b :: l.1, l.2)

mutual

/-- The texts of the leaves of a value with their paths, in order. -/
def leaves : Value → List (List Branch × Text)
  | table es => entryLeaves es
  | list (x :: xs) => itemLeaves 0 (x :: xs)
  | v => [([], v.scalarText)]

/-- The leaves of entries. -/
def entryLeaves : List (Text × Value) → List (List Branch × Text)
  | [] => []
  | (key, v) :: r => v.leaves.map (onto (.key key)) ++ entryLeaves r

/-- The leaves of items, the first of which has the given index. -/
def itemLeaves (i : Nat) : List Value → List (List Branch × Text)
  | [] => []
  | v :: r => v.leaves.map (onto (.index i)) ++ itemLeaves (i + 1) r

end

variable {v : Value}

theorem part?_eq_none (h : v.IsLeaf) (b : Branch) : v.part? b = none := by
  cases v with
  | table es => exact h.elim
  | list items =>
      obtain rfl : items = [] := h
      cases b with
      | key k => rfl
      | index i => rfl
  | _ => rfl

theorem leaves_of_isLeaf (h : v.IsLeaf) : v.leaves = [([], v.scalarText)] := by
  cases v with
  | table es => exact h.elim
  | list items =>
      obtain rfl : items = [] := h
      rfl
  | _ => rfl

/-- A value that is no leaf has the leaves of its parts. -/
theorem leaves_of_not_isLeaf (h : ¬ v.IsLeaf) : v.leaves = v.parts.flatMap fun x => x.2.leaves.map (onto x.1) := by
  have hitems (items : List Value) (i : Nat) : itemLeaves i items =
      ((items.zipIdx i).map fun x => (Branch.index x.2, x.1)).flatMap fun x => x.2.leaves.map (onto x.1) := by
    induction items generalizing i with
    | nil => rfl
    | cons x items ih => rw [itemLeaves, ih, List.zipIdx_cons, List.map_cons, List.flatMap_cons]
  cases v with
  | table es =>
      rw [leaves, parts]
      induction es with
      | nil => rfl
      | cons e es ih => rw [entryLeaves, ih fun hleaf => hleaf, List.map_cons, List.flatMap_cons]
  | list items =>
      obtain ⟨x, items, rfl⟩ := List.exists_cons_of_ne_nil h
      exact hitems (x :: items) 0
  | _ => exact absurd trivial h

theorem hasLeaf_nil_iff {t : Text} : v.HasLeaf [] t ↔ v.IsLeaf ∧ v.scalarText = t := by
  simp [HasLeaf, at?]

theorem hasLeaf_cons_iff {b : Branch} {path : List Branch} {t : Text} :
    v.HasLeaf (b :: path) t ↔ ∃ w, v.part? b = some w ∧ w.HasLeaf path t := by
  simp only [HasLeaf, at?, Option.bind_eq_some_iff]
  constructor
  · rintro ⟨x, ⟨w, hw, hx⟩, hleaf⟩
    exact ⟨w, hw, x, hx, hleaf⟩
  · rintro ⟨w, hw, x, hx, hleaf⟩
    exact ⟨x, ⟨w, hw, hx⟩, hleaf⟩

/-! ## Spelled values -/

/-- Every table in the value, or below it, holds each of its keys once, and names can spell the keys. -/
inductive IsSpelled : Value → Prop where
  | ofLeaf {v : Value} (leaf : v.IsLeaf) : IsSpelled v
  | ofList {items : List Value} (below : ∀ v ∈ items, IsSpelled v) : IsSpelled (list items)
  | ofTable {es : List (Text × Value)} (nodup : (es.map Prod.fst).Nodup) (keys : ∀ e ∈ es, IsSpellable e.1)
      (below : ∀ e ∈ es, IsSpelled e.2) : IsSpelled (table es)

/-- A value that is taken apart: its parts stand at different branches, which names can spell. -/
structure Divided (v : Value) : Prop where
  nodup : (v.parts.map Prod.fst).Nodup
  spellable : ∀ x ∈ v.parts, x.1.IsSpellable
  part?_iff : ∀ b w, v.part? b = some w ↔ (b, w) ∈ v.parts

theorem divided_list (items : List Value) : (list items).Divided where
  nodup := by
    have hindexes : (list items).parts.map Prod.fst = (List.range' 0 items.length).map Branch.index := by
      rw [parts, List.map_map, ← List.zipIdx_map_snd, List.map_map]
      rfl
    rw [hindexes]
    exact List.Nodup.map (fun i j hij => Branch.index.inj hij) List.nodup_range'
  spellable := by
    intro x hx
    obtain ⟨y, -, rfl⟩ := List.mem_map.mp hx
    trivial
  part?_iff := by
    intro b w
    cases b with
    | key k => simp [part?, parts]
    | index i => simp [part?, parts, List.mem_zipIdx_iff_getElem?]

theorem divided_table {es : List (Text × Value)} (hnodup : (es.map Prod.fst).Nodup)
    (hkeys : ∀ e ∈ es, IsSpellable e.1) : (table es).Divided where
  nodup := by
    have hbranches : (table es).parts.map Prod.fst = (es.map Prod.fst).map Branch.key := by
      rw [parts, List.map_map, List.map_map]
      rfl
    rw [hbranches]
    exact List.Nodup.map (fun k l hkl => Branch.key.inj hkl) hnodup
  spellable := by
    intro x hx
    obtain ⟨e, he, rfl⟩ := List.mem_map.mp hx
    exact hkeys e he
  part?_iff := by
    intro b w
    cases b with
    | key k => simp [part?, parts, lookupKey_eq_some_iff_of_nodup hnodup]
    | index i => simp [part?, parts]

namespace IsSpelled

/-- What holds of the leaves, and of a value with parts once it holds of these, holds of every spelled value. -/
@[elab_as_elim]
theorem induction_parts {motive : (v : Value) → v.IsSpelled → Prop}
    (leaf : ∀ (v : Value) (h : v.IsSpelled), v.IsLeaf → motive v h)
    (node : ∀ (v : Value) (h : v.IsSpelled), ¬ v.IsLeaf → v.Divided → (below : ∀ x ∈ v.parts, x.2.IsSpelled) →
      (∀ x (hx : x ∈ v.parts), motive x.2 (below x hx)) → motive v h)
    {v : Value} (h : v.IsSpelled) : motive v h := by
  induction h with
  | ofLeaf h => exact leaf _ _ h
  | @ofList items below ih =>
      by_cases hnil : items = []
      · exact leaf _ _ hnil
      · have hitem (x) (hx : x ∈ (list items).parts) : x.2 ∈ items := by
          obtain ⟨y, hy, rfl⟩ := List.mem_map.mp hx
          exact List.fst_mem_of_mem_zipIdx hy
        exact node _ _ hnil (divided_list items) (fun x hx => below _ (hitem x hx)) fun x hx => ih _ (hitem x hx)
  | @ofTable es hnodup hkeys below ih =>
      refine node _ _ (not_isLeaf_table es) (divided_table hnodup hkeys) (fun x hx => ?_) fun x hx => ?_
      · obtain ⟨e, he, rfl⟩ := List.mem_map.mp hx
        exact below e he
      · obtain ⟨e, he, rfl⟩ := List.mem_map.mp hx
        exact ih e he

/-- The leaves that are listed are those at the paths of the value. -/
theorem mem_leaves_iff (h : v.IsSpelled) {path : List Branch} {t : Text} : (path, t) ∈ v.leaves ↔ v.HasLeaf path t := by
  induction h using induction_parts generalizing path t with
  | leaf v h hleaf =>
      rw [leaves_of_isLeaf hleaf, List.mem_singleton, Prod.mk.injEq]
      cases path with
      | nil => simp [hasLeaf_nil_iff, hleaf, eq_comm]
      | cons b path => simp [hasLeaf_cons_iff, part?_eq_none hleaf]
  | node v h hnode hdivided below ih =>
      rw [leaves_of_not_isLeaf hnode, List.mem_flatMap]
      cases path with
      | nil =>
          refine iff_of_false ?_ fun hleaf => hnode (hasLeaf_nil_iff.mp hleaf).1
          rintro ⟨x, -, hx⟩
          obtain ⟨l, -, hl⟩ := List.mem_map.mp hx
          cases hl
      | cons b path =>
          rw [hasLeaf_cons_iff]
          constructor
          · rintro ⟨x, hx, hmem⟩
            obtain ⟨l, hl, heq⟩ := List.mem_map.mp hmem
            obtain ⟨⟨rfl, rfl⟩, rfl⟩ : (x.1 = b ∧ l.1 = path) ∧ l.2 = t := by simpa [onto] using heq
            exact ⟨x.2, (hdivided.part?_iff _ _).mpr hx, (ih x hx).mp hl⟩
          · rintro ⟨w, hw, hleaf⟩
            have hx := (hdivided.part?_iff b w).mp hw
            exact ⟨(b, w), hx, List.mem_map.mpr ⟨(path, t), (ih _ hx).mpr hleaf, rfl⟩⟩

/-- Every leaf is listed once. -/
theorem nodup_leaves (h : v.IsSpelled) : (v.leaves.map Prod.fst).Nodup := by
  induction h using induction_parts with
  | leaf v h hleaf => simp [leaves_of_isLeaf hleaf]
  | node v h hnode hdivided below ih =>
      have hpaths : v.leaves.map Prod.fst = v.parts.flatMap fun x => (x.2.leaves.map Prod.fst).map (x.1 :: ·) := by
        rw [leaves_of_not_isLeaf hnode, List.map_flatMap]
        refine List.flatMap_congr fun x _ => ?_
        rw [List.map_map, List.map_map]
        rfl
      rw [hpaths, List.nodup_flatMap]
      refine ⟨fun x hx => List.Nodup.map List.cons_injective (ih x hx), ?_⟩
      -- paths through different branches are different
      refine (List.pairwise_map.mp hdivided.nodup).imp fun {x y} hne => ?_
      intro path hpx hpy
      obtain ⟨p, -, rfl⟩ := List.mem_map.mp hpx
      obtain ⟨q, -, heq⟩ := List.mem_map.mp hpy
      exact hne (List.cons.inj heq).1.symm

/-- Names can spell the paths of the leaves. -/
theorem spellable_of_hasLeaf (h : v.IsSpelled) {path : List Branch} {t : Text} (hleaf : v.HasLeaf path t) :
    ∀ b ∈ path, b.IsSpellable := by
  induction h using induction_parts generalizing path t with
  | leaf v h hv =>
      cases path with
      | nil => exact fun b hb => absurd hb List.not_mem_nil
      | cons b path =>
          obtain ⟨w, hw, -⟩ := hasLeaf_cons_iff.mp hleaf
          exact absurd hw (by simp [part?_eq_none hv])
  | node v h hnode hdivided below ih =>
      cases path with
      | nil => exact fun b hb => absurd hb List.not_mem_nil
      | cons b path =>
          obtain ⟨w, hw, hbelow⟩ := hasLeaf_cons_iff.mp hleaf
          have hx := (hdivided.part?_iff b w).mp hw
          exact List.forall_mem_cons.mpr ⟨hdivided.spellable _ hx, ih _ hx hbelow⟩

/-- The properties of a value are its leaves under the names of their paths. -/
theorem propertiesUnder_eq (h : v.IsSpelled) {name : Text} (hname : name ≠ []) :
    propertiesUnder name v = v.leaves.map fun l => (name ++ l.1.flatMap Branch.text, l.2) := by
  induction h using induction_parts generalizing name with
  | leaf v h hleaf => simp [leaves_of_isLeaf hleaf, propertiesUnder_of_isLeaf hleaf]
  | node v h hnode hdivided below ih =>
      rw [leaves_of_not_isLeaf hnode, propertiesUnder_of_not_isLeaf hnode, List.map_flatMap]
      refine List.flatMap_congr fun x hx => ?_
      rw [Branch.nameBelow_eq (hdivided.spellable x hx) hname, ih x hx (List.append_ne_nil_of_left_ne_nil hname _),
        List.map_map]
      refine List.map_congr_left fun l _ => ?_
      simp [onto]

end IsSpelled

/-! ## Properties -/

/-- A dictionary that holds the leaves of a value, each under the name of its path, and nothing else. -/
structure FlattensTo (v : Value) (d : Dict Text Text) : Prop where
  /-- Every leaf has an entry with its text, and every entry is that of a leaf. -/
  get?_iff (n t : Text) : d.get? n = some t ↔ ∃ path, v.HasLeaf path t ∧ pathName path = n
  /-- The name of a leaf tells its path. -/
  path_eq {p q : List Branch} {t u : Text} : v.HasLeaf p t → v.HasLeaf q u → pathName p = pathName q → p = q
  /-- The entry of a null or of an empty list is empty. -/
  get?_empty {path : List Branch} :
    v.at? path = some null ∨ v.at? path = some (list []) → d.get? (pathName path) = some []
  /-- There are as many entries as leaves. -/
  size_eq : d.size = v.leaves.length

namespace IsSpelled

variable {es : List (Text × Value)}

theorem properties_eq (h : (table es).IsSpelled) :
    properties es = (table es).leaves.map fun l => (pathName l.1, l.2) := by
  cases h with
  | ofLeaf h => exact h.elim
  | ofTable hnodup hkeys below =>
      rw [leaves_of_not_isLeaf (not_isLeaf_table es), parts, properties, List.flatMap_map, List.map_flatMap]
      refine List.flatMap_congr fun e he => ?_
      rw [propertiesUnder_eq (below e he) (hkeys e he).spelled_ne_nil, List.map_map]
      rfl

/-- The paths of the leaves of a table can be read from their names. -/
theorem isTablePath_of_hasLeaf (h : (table es).IsSpelled) {path : List Branch} {t : Text}
    (hleaf : (table es).HasLeaf path t) : IsTablePath path := by
  have hspellable := h.spellable_of_hasLeaf hleaf
  cases path with
  | nil => exact (hasLeaf_nil_iff.mp hleaf).1.elim
  | cons b rest =>
      cases b with
      | key k => exact ⟨k, rest, rfl, hspellable⟩
      | index i =>
          obtain ⟨w, hw, -⟩ := hasLeaf_cons_iff.mp hleaf
          cases hw

theorem pathName_inj_of_hasLeaf (h : (table es).IsSpelled) {p q : List Branch} {t u : Text}
    (hp : (table es).HasLeaf p t) (hq : (table es).HasLeaf q u) (heq : pathName p = pathName q) : p = q :=
  pathName_inj (h.isTablePath_of_hasLeaf hp) (h.isTablePath_of_hasLeaf hq) heq

theorem nodup_properties (h : (table es).IsSpelled) : ((properties es).map Prod.fst).Nodup := by
  have hnames : (properties es).map Prod.fst = ((table es).leaves.map Prod.fst).map pathName := by
    rw [h.properties_eq, List.map_map, List.map_map]
    rfl
  rw [hnames]
  refine List.Nodup.map_on ?_ h.nodup_leaves
  intro p hp q hq heq
  obtain ⟨l, hl, rfl⟩ := List.mem_map.mp hp
  obtain ⟨m, hm, rfl⟩ := List.mem_map.mp hq
  exact h.pathName_inj_of_hasLeaf (h.mem_leaves_iff.mp hl) (h.mem_leaves_iff.mp hm) heq

/-- In whatever order the properties of a table are put into a dictionary. -/
theorem flattensTo (h : (table es).IsSpelled) {ps : List (Text × Text)} (hps : ps.Perm (properties es)) :
    (table es).FlattensTo (.ofPairs ps) := by
  rw [Dict.ofPairs_eq_of_perm h.nodup_properties hps]
  have hget (n t : Text) : (Dict.ofPairs (properties es)).get? n = some t ↔
      ∃ path, (table es).HasLeaf path t ∧ pathName path = n := by
    rw [(Dict.madeOf_ofPairs _).get?_iff (Dict.functional_of_nodup h.nodup_properties), h.properties_eq, List.mem_map]
    simp only [Prod.exists, Prod.mk.injEq, h.mem_leaves_iff]
    constructor
    · rintro ⟨path, t, hleaf, hname, rfl⟩
      exact ⟨path, hleaf, hname⟩
    · rintro ⟨path, hleaf, hname⟩
      exact ⟨path, t, hleaf, hname, rfl⟩
  refine ⟨hget, h.pathName_inj_of_hasLeaf, ?_, ?_⟩
  · rintro path (hat | hat)
    · exact (hget _ _).mpr ⟨path, ⟨null, hat, trivial, rfl⟩, rfl⟩
    · exact (hget _ _).mpr ⟨path, ⟨list [], hat, rfl, rfl⟩, rfl⟩
  · rw [Dict.size, (Dict.entries_ofPairs_perm h.nodup_properties).length_eq, h.properties_eq, List.length_map]

end IsSpelled

end Value

/-! ## Files -/

end Document

open Document Value

/-- The file is there, and the table that is read from its text is this one. -/
def FileRequest.HandsOver (f : FileRequest) (reader : Reader) (dir : Directory) (es : List (Text × Value)) : Prop :=
  ∃ format t, f.format = .ok format ∧ dir.get? f.path = some (.file t) ∧ reader format t = some es

namespace FileRequest

variable {f : FileRequest} {reader : Reader} {dir : Directory} {es : List (Text × Value)}

theorem HandsOver.load (h : f.HandsOver reader dir es) : f.load reader dir = .ok (f.sourceOf es) := by
  obtain ⟨format, t, hformat, hfile, hread⟩ := h
  simp only [FileRequest.load, loadAs, hformat, hfile, bind, Except.bind, hread]
  rfl

theorem properties_sourceOf (f : FileRequest) (es : List (Text × Value)) :
    (f.sourceOf es).properties = .ofPairs (Value.properties es) := by
  unfold sourceOf
  cases f.ordinal with
  | none => rfl
  | some o => rfl

end FileRequest

/-- A file loses and merges nothing when it is flattened. The source of a table has one property for every leaf, the
name tells the path of the leaf, and it does not matter in which order the properties are put. -/
theorem Document.flattened_faithfully (es : List (Text × Value)) (h : (table es).IsSpelled) :
    (((table es).leaves.map Prod.fst).Nodup ∧
        ∀ path t, (path, t) ∈ (table es).leaves ↔ (table es).HasLeaf path t) ∧
      (∀ ps, ps.Perm (Value.properties es) → (table es).FlattensTo (.ofPairs ps)) ∧
      ∀ f : FileRequest, (table es).FlattensTo (f.sourceOf es).properties ∧
        ∀ reader dir, f.HandsOver reader dir es → f.load reader dir = .ok (f.sourceOf es) := by
  refine ⟨⟨h.nodup_leaves, fun path t => h.mem_leaves_iff⟩, fun ps hps => h.flattensTo hps, fun f => ?_⟩
  refine ⟨?_, fun reader dir hf => hf.load⟩
  rw [f.properties_sourceOf]
  exact h.flattensTo (List.Perm.refl _)

/-- A key with a dot under the name of a table is not the path that it looks like; nulls and empty lists stay. -/
theorem Document.flattened_faithfully_nested :
    let f : FileRequest := ⟨"app.json".toList, true, none⟩
    let text := "\x7b\"w\":\x7b\"a.b\":[null,[],true],\"c\\\\\":\"x\",\"a\":\x7b\"b\":\"y\"\x7d\x7d\x7d".toList
    let dir : Directory := .ofPairs [("app.json".toList, .file text)]
    ∃ t, f.load .ofNotations dir = .ok t ∧ t.properties.size = 5 ∧
      t.properties.get? "w.\"a.b\"[0]".toList = some [] ∧ t.properties.get? "w.\"a.b\"[1]".toList = some [] ∧
      t.properties.get? "w.\"a.b\"[2]".toList = some "true".toList ∧ t.properties.get? "w.c\\".toList = some ['x'] ∧
      t.properties.get? "w.a.b".toList = some ['y'] := by
  intro f text dir
  let es : List (Text × Value) :=
    [("w".toList, .table [("a.b".toList, .list [.null, .list [], .bool true]), ("c\\".toList, .text ['x']),
      ("a".toList, .table [("b".toList, .text ['y'])])])]
  have hread : Format.json.read (dropEncodingMark text) = some es := by
    simp only [text, es]
    cbv
  have hcollect : collect es = es := by
    simp only [es]
    cbv
  have hnotations : Reader.ofNotations .json text = some es := by
    rw [Reader.ofNotations, hread, Option.map_some, hcollect]
  have hfile : dir.get? f.path = some (.file text) := (Dict.get?_insert _ _ _ _).trans (if_pos rfl)
  have hspelled : (table es).IsSpelled := by
    -- from the outer table inwards: its keys, then what stands under them
    refine .ofTable (by decide) (by decide) ?_
    simp only [es, List.forall_mem_cons, List.not_mem_nil, false_implies, implies_true, and_true]
    refine .ofTable (by decide) (by decide) ?_
    simp only [List.forall_mem_cons, List.not_mem_nil, false_implies, implies_true, and_true]
    refine ⟨.ofList ?_, .ofLeaf trivial, .ofTable (by decide) (by decide) ?_⟩
    · simpa using ⟨.ofLeaf trivial, .ofLeaf rfl, .ofLeaf trivial⟩
    · simpa using .ofLeaf trivial
  obtain ⟨-, -, hf⟩ := flattened_faithfully es hspelled
  obtain ⟨hflat, hload⟩ := hf f
  have hleaf (path : List Branch) (w : Value) (hat : (table es).at? path = some w) (hw : w.IsLeaf) :
      (f.sourceOf es).properties.get? (pathName path) = some w.scalarText :=
    (hflat.get?_iff _ _).mpr ⟨path, ⟨w, hat, hw, rfl⟩, rfl⟩
  exact ⟨_, hload .ofNotations dir ⟨.json, text, rfl, hfile, hnotations⟩, hflat.size_eq,
    hleaf [.key "w".toList, .key "a.b".toList, .index 0] .null rfl trivial,
    hleaf [.key "w".toList, .key "a.b".toList, .index 1] (.list []) rfl rfl,
    hleaf [.key "w".toList, .key "a.b".toList, .index 2] (.bool true) rfl trivial,
    hleaf [.key "w".toList, .key "c\\".toList] (.text ['x']) rfl trivial,
    hleaf [.key "w".toList, .key "a".toList, .key "b".toList] (.text ['y']) rfl trivial⟩

end LayeredConfig
