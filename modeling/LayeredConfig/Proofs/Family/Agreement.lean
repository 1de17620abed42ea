import LayeredConfig.Proofs.Family.Inline
import LayeredConfig.Proofs.Pipeline.Assembly
import LayeredConfig.Proofs.Schema.Binding

/-!
# `LayeredConfig.Proofs.Family.Agreement` — both spellings of a list or a map are read the same

A list may stand in one value or in the values of its elements, a map in one value or in those of its members. Read
from a table that has one of the spellings and nothing else, both give what was written.

## Contents
- **Elements, members.** `elementProperties` and `memberProperties` spell a list and a map by several values, and a
  dictionary of them holds a tree (`holds_elements`, `holds_members`).
- **One value.** The root is neither an element nor a member of its own.
- **Configurations.** `Config.IsOver`: one table of properties; `IsOver.reads`.
- **Reading.** What is read of each spelling: `Reads.listItems_elements`, `Reads.listItems_inline`,
  `Reads.readMap_members`, `Reads.readMap_inline_eq`.
- **Agreement.** `spellings_agree`.
-/

namespace LayeredConfig

open Text Name Family Document

variable {root : Text}

/-- A dictionary made of the properties of a tree, in whatever order, holds the tree. -/
theorem holds_ofPairs {ps : List (Text × Text)} {t : Tree} (ht : Dict.Functional (t.properties root))
    (hmem : ∀ x, x ∈ ps ↔ x ∈ t.properties root) : Holds (.ofPairs ps) root (some t) := by
  have hps : Dict.Functional ps := fun n v w hv hw => ht n v w ((hmem _).mp hv) ((hmem _).mp hw)
  intro u w _
  exact ((Dict.madeOf_ofPairs ps).get?_iff hps).trans (hmem _)

/-! ## Elements -/

/-- A list spelled by its elements: `root[0]`, `root[1]` and so on. -/
def elementProperties (root : Text) (items : List Text) : List (Text × Text) :=
  items.zipIdx.map fun p => (Value.itemName root p.2, p.1)

theorem mem_elementProperties {items : List Text} {x : Text × Text} :
    x ∈ elementProperties root items ↔ ∃ (i : Nat) (t : Text), items[i]? = some t ∧ x = (Value.itemName root i, t) := by
  simp only [elementProperties, List.mem_map, Prod.exists, List.mem_zipIdx_iff_getElem?]
  constructor
  · rintro ⟨t, i, ht, rfl⟩
    exact ⟨i, t, ht, rfl⟩
  · rintro ⟨i, t, ht, rfl⟩
    exact ⟨t, i, ht, rfl⟩

/-- The elements of a list are the items of a tree, if there are any. -/
theorem holds_elements {items : List Text} (hne : items ≠ []) :
    Holds (.ofPairs (elementProperties root items)) root (some (Tree.texts items)) := by
  have hfunctional : Dict.Functional ((Tree.texts items).properties root) := by
    refine functional_list fun u hu i => ?_
    obtain ⟨t, -, rfl⟩ := List.mem_map.mp hu
    exact functional_text _ t
  refine holds_ofPairs hfunctional fun x => ?_
  rw [mem_elementProperties, Tree.texts, Tree.mem_properties_list (by simpa using hne)]
  constructor
  · rintro ⟨i, t, ht, rfl⟩
    exact ⟨i, .text t, by rw [List.getElem?_map, ht]; rfl, List.mem_singleton_self _⟩
  · rintro ⟨i, u, hu, hx⟩
    rw [List.getElem?_map, Option.map_eq_some_iff] at hu
    obtain ⟨t, ht, rfl⟩ := hu
    exact ⟨i, t, ht, List.mem_singleton.mp hx⟩

/-! ## Members -/

/-- A map spelled by its members: `root.key`, where a key that holds a dot is quoted. -/
def memberProperties (root : Text) (es : List (Text × Text)) : List (Text × Text) :=
  es.map fun e => (root ++ '.' :: quotedIfNeeded e.1, e.2)

/-- The table that a map is, its entries in the order of their keys. -/
def mapEntries (es : List (Text × Text)) : List (Text × Tree) :=
  (Dict.ofPairs es).entries.map fun e => (e.1, .text e.2)

theorem mem_entries_ofPairs {es : List (Text × Text)} (hes : (es.map Prod.fst).Nodup) {e : Text × Text} :
    e ∈ (Dict.ofPairs es).entries ↔ e ∈ es := by
  rw [← Dict.get?_eq_some_iff, (Dict.madeOf_ofPairs es).get?_iff (Dict.functional_of_nodup hes)]

theorem keyed_mapEntries {es : List (Text × Text)} (hes : (es.map Prod.fst).Nodup) (hkeys : ∀ e ∈ es, IsKey e.1) :
    Keyed (mapEntries es) := by
  constructor
  · rw [mapEntries, List.pairwise_map]
    exact (Dict.ofPairs es).ascending
  · intro e he
    obtain ⟨entry, hentry, rfl⟩ := List.mem_map.mp he
    exact hkeys entry ((mem_entries_ofPairs hes).mp hentry)

/-- The members of a map are the entries of a table. -/
theorem holds_members (hroot : root ≠ []) {es : List (Text × Text)} (hes : (es.map Prod.fst).Nodup)
    (hkeys : ∀ e ∈ es, IsKey e.1) :
    Holds (.ofPairs (memberProperties root es)) root (some (.table (mapEntries es))) := by
  have hfunctional : Dict.Functional ((Tree.table (mapEntries es)).properties root) := by
    refine functional_table (keyed_mapEntries hes hkeys) fun e he => ?_
    obtain ⟨entry, -, rfl⟩ := List.mem_map.mp he
    exact functional_text _ entry.2
  refine holds_ofPairs hfunctional fun x => ?_
  rw [memberProperties, List.mem_map, Tree.mem_properties_table]
  constructor
  · rintro ⟨e, he, rfl⟩
    refine ⟨_, List.mem_map_of_mem ((mem_entries_ofPairs hes).mpr he), ?_⟩
    rw [memberPath_of_ne_nil hroot (hkeys e he)]
    exact List.mem_singleton_self _
  · rintro ⟨e, he, hx⟩
    obtain ⟨entry, hentry, rfl⟩ := List.mem_map.mp he
    rw [mem_entries_ofPairs hes] at hentry
    rw [memberPath_of_ne_nil hroot (hkeys entry hentry)] at hx
    exact ⟨entry, hentry, (List.mem_singleton.mp hx).symm⟩

/-! ## One value -/

theorem element?_self (root : Text) : element? root root = none := by
  cases h : element? root root with
  | none => rfl
  | some p =>
      obtain ⟨digits, u, hroot, -⟩ := element?_eq_some_iff.mp h
      have hlen := congrArg List.length hroot
      simp only [List.length_append, List.length_cons] at hlen
      omega

theorem keyedMember?_self (hroot : root ≠ []) : keyedMember? root root = none := by
  cases h : keyedMember? root root with
  | none => rfl
  | some p =>
      obtain ⟨rest, hrest, -⟩ := Option.bind_eq_some_iff.mp h
      have hlen := congrArg List.length ((below?_eq_some_iff hroot).mp hrest)
      simp only [List.length_append, List.length_cons] at hlen
      omega

theorem get?_single (root v : Text) : (Dict.ofPairs [(root, v)]).get? root = some v := by
  show ((Dict.empty : Dict Text Text).insert root v).get? root = some v
  rw [Dict.get?_insert, if_pos rfl]

theorem eq_of_mem_keys_single {root v n : Text} (h : n ∈ (Dict.ofPairs [(root, v)]).keys) : n = root := by
  obtain ⟨w, hw⟩ := (Dict.mem_keys_iff _).mp h
  exact congrArg Prod.fst (List.mem_singleton.mp ((Dict.madeOf_ofPairs _).mem hw))

/-! ## Configurations -/

namespace Config

/-- A view of a configuration over one table of properties, neither of which is a property of the profiles. -/
def IsOver (c : Config) (ps : List (Text × Text)) : Prop :=
  ∃ (p : Parts) (name : Text) (reader : Reader) (dir : Directory) (c₀ : Config),
    p.OnlyTable (.ofProperties name (.ofPairs ps)) ∧ p.assemble reader dir = .ok c₀ ∧ (c = c₀ ∨ c = c₀.unlocked) ∧
    ∀ e ∈ ps, e.1 ≠ p.profileProperty ∧ e.1 ≠ profileParentProperty

variable {c : Config}

/-- It answers with the properties, where none of the values holds a reference. -/
theorem IsOver.reads {ps : List (Text × Text)} (h : c.IsOver ps) (hplain : ∀ e ∈ ps, '$' ∉ e.2) :
    c.Reads (.ofPairs ps) := by
  obtain ⟨p, name, reader, dir, c₀, honly, hassemble, hc, hprofile⟩ := h
  have hfiles : p.files.mapM (FileRequest.load · reader dir) = .ok [] := by
    rw [honly.files]
    rfl
  obtain rfl := Parts.config_of_assemble hfiles hassemble
  obtain ⟨access, rfl⟩ : ∃ access, c = ⟨p.pipeline [], access⟩ := by
    rcases hc with rfl | rfl
    · exact ⟨.locked, rfl⟩
    · exact ⟨.unlocked, rfl⟩
  have habsent (n : Text) (hn : ∀ e ∈ ps, e.1 ≠ n) : (Dict.ofPairs ps).get? n = none := by
    cases hv : (Dict.ofPairs ps).get? n with
    | none => rfl
    | some v => exact absurd rfl (hn _ ((Dict.madeOf_ofPairs ps).mem hv))
  obtain ⟨hvalue, hlisted⟩ := honly.reads_table rfl (fun n v hv => hplain (n, v) ((Dict.madeOf_ofPairs ps).mem hv))
    (habsent _ fun e he => (hprofile e he).1) (habsent _ fun e he => (hprofile e he).2) access
  exact ⟨hvalue, hlisted⟩

theorem isOver_pipeline {p : Parts} {name : Text} {ps : List (Text × Text)}
    (honly : p.OnlyTable (.ofProperties name (.ofPairs ps))) (hrefuses : p.refusesUndeclared = false) (reader : Reader)
    (dir : Directory) (hprofile : ∀ e ∈ ps, e.1 ≠ p.profileProperty ∧ e.1 ≠ profileParentProperty) :
    IsOver ⟨p.pipeline [], .locked⟩ ps := by
  refine ⟨p, name, reader, dir, _, honly, ?_, Or.inl rfl, hprofile⟩
  simp only [Parts.assemble, honly.files, List.mapM_nil, hrefuses]
  rfl

/-! ## Reading -/

/-- A list that is read without items is not found. -/
theorem readList_of_listItems {items : List Text} (h : c.listItems Converter.text root = .ok items) :
    c.readList Converter.text root = if items = [] then .error (.notFound root) else .ok items := by
  rw [Config.readList, readOptionalList, h]
  cases items with
  | nil => rfl
  | cons t items => rfl

/-- A map without entries is not found. -/
theorem nonEmptyMap_ofPairs (es : List (Text × Text)) :
    nonEmptyMap root (Dict.ofPairs es) = if es = [] then .error (.notFound root) else .ok (.ofPairs es) := by
  cases es with
  | nil => rfl
  | cons e es =>
      have hsome := (Dict.madeOf_ofPairs (e :: es)).isSome (k := e.1) (v := e.2) List.mem_cons_self
      have hne : (Dict.ofPairs (e :: es)).entries ≠ [] := by
        intro hnil
        rw [Dict.get?, hnil] at hsome
        exact absurd hsome (by simp [lookupKey])
      rw [nonEmptyMap, if_neg (by simpa using hne), if_neg (List.cons_ne_nil e es)]

namespace Reads

theorem readOptional_text {d : Dict Text Text} (h : c.Reads d) {n v : Text} (hn : d.get? n = some v) (hv : v ≠ []) :
    c.readOptional Converter.text n = .ok (some v) := by
  rw [readOptional, h.nonEmptyText_eq hn hv]
  rfl

theorem listItems_elements {items : List Text} (h : c.Reads (.ofPairs (elementProperties root items)))
    (hlen : items.length ≤ maxIndex + 1) (hitems : ∀ t ∈ items, t ≠ []) :
    c.listItems Converter.text root = .ok items := by
  by_cases hne : items = []
  · -- no property at all, thus no elements
    subst hne
    rw [listItems, listReading, h.readList_indexed rfl, h.names]
    rfl
  · have hd : Holds (.ofPairs (elementProperties root items)) root _ := holds_elements hne
    have hvisible : ∀ t ∈ items.map Tree.text, t.IsVisible := by
      intro t ht
      obtain ⟨v, -, rfl⟩ := List.mem_map.mp ht
      exact List.cons_ne_nil _ _
    have hparts := hd.forall₂_elements hvisible (by simpa using hlen)
    rw [List.forall₂_map_right_iff] at hparts
    -- the elements that are found stand for the items, each in its place
    have hread : (elements root c.propertyNames.toList).mapM (c.readOptional Converter.text) =
        .ok (items.map some) := by
      rw [h.names]
      refine mapM_of_forall₂ hparts fun e t ht he => ?_
      exact h.readOptional_text he.2.get?_text (hitems t ht)
    rw [listItems, listReading, h.readList_indexed (hd.get?_list (by simpa using hne))]
    refine (congrArg (· >>= fun ts => pure (ts.filterMap id)) hread).trans ?_
    show Except.ok ((items.map some).filterMap id) = _
    simp

theorem listItems_inline {v : Text} (h : c.Reads (.ofPairs [(root, v)])) :
    c.listItems Converter.text root = .ok (splitList v) := by
  have hnone : ∀ m ∈ c.propertyNames.toList, element? root m = none := by
    intro m hm
    rw [h.names] at hm
    rw [eq_of_mem_keys_single hm]
    exact element?_self root
  obtain ⟨r, hread⟩ := h.readList_inline (get?_single root v) hnone
  rw [listItems, listReading, hread]
  show (do let t ← c.rawText root; (splitList (t.getD [])).mapM (convert Converter.text root)) = _
  rw [h.rawText, get?_single]
  have hitems : (splitList v).mapM (convert Converter.text root) = .ok ((splitList v).map id) := List.mapM_pure
  rw [List.map_id] at hitems
  exact hitems

theorem readMap_members (hroot : root ≠ []) {es : List (Text × Text)}
    (h : c.Reads (.ofPairs (memberProperties root es))) (hes : (es.map Prod.fst).Nodup)
    (hkeys : ∀ e ∈ es, IsKey e.1) (hvalues : ∀ e ∈ es, e.2 ≠ []) :
    c.readMap Converter.text Converter.text root = nonEmptyMap root (.ofPairs es) := by
  have hkeyed := keyed_mapEntries hes hkeys
  have hd := holds_members hroot hes hkeys
  have hmembers : keyedMembers root (Dict.ofPairs (memberProperties root es)).keys =
      (mapEntries es).map fun e => (e.1, memberPath root e.1) := by
    refine hd.keyedMembers_eq hroot hkeyed fun e he => ?_
    obtain ⟨entry, -, rfl⟩ := List.mem_map.mp he
    exact ⟨[], entry.2, follows_nil, Or.inl rfl, by simp⟩
  have hparts := hd.forall₂_members hroot hkeyed
  rw [← hmembers, mapEntries, List.forall₂_map_right_iff] at hparts
  rw [Config.readMap, mapReading, h.readMap_keyed (hd.get?_table hroot hkeyed), h.names]
  show (List.mapM _ (keyedMembers root (Dict.ofPairs (memberProperties root es)).keys) >>= _) = _
  rw [mapM_of_forall₂ (g := some) hparts]
  · show nonEmptyMap root (.ofPairs (((Dict.ofPairs es).entries.map some).filterMap id)) = _
    rw [List.filterMap_map, Function.id_comp, List.filterMap_some, Dict.ofPairs_entries]
  · intro m e he ⟨hkey, _, hpart⟩
    have hvalue := hvalues e ((mem_entries_ofPairs hes).mp he)
    show (c.readOptional Converter.text m.2 >>= _) = _
    rw [h.readOptional_text hpart.get?_text hvalue]
    show Except.ok (some (m.1, e.2)) = _
    rw [hkey]

theorem readMap_inline_eq (hroot : root ≠ []) {v : Text} (h : c.Reads (.ofPairs [(root, v)])) :
    c.readMap Converter.text Converter.text root = nonEmptyMap root (.ofPairs (splitMap v)) := by
  have hnone : ∀ m ∈ c.propertyNames.toList, keyedMember? root m = none := by
    intro m hm
    rw [h.names] at hm
    rw [eq_of_mem_keys_single hm]
    exact keyedMember?_self hroot
  obtain ⟨r, hread⟩ := h.readMap_inline (get?_single root v) hnone
  have hentries : (splitMap v).mapM (fun e => do
      return some (← convert Converter.text (entryName root e.1) e.1,
        ← convert Converter.text (entryName root e.1) e.2)) = Except.ok ((splitMap v).map some) :=
    List.mapM_pure
  rw [Config.readMap, mapReading, hread]
  refine (congrArg (· >>= fun entries => nonEmptyMap root (.ofPairs (entries.filterMap id))) hentries).trans ?_
  show nonEmptyMap root (.ofPairs (((splitMap v).map some).filterMap id)) = _
  rw [List.filterMap_map, Function.id_comp, List.filterMap_some]

end Reads

/-! ## Agreement -/

/-- **The two spellings agree.** Take a list of texts that are not empty and hold no reference, no more of them than
there are indexes, and two configurations: one over the properties of its elements, the other over the one property that
holds it inline. Read at the root, both give the list, or report that it is not found when it has no items. It is the
same with a map whose keys are different and can be spelled in a name. -/
theorem spellings_agree (c c' : Config) (root : Text) :
    (∀ items : List Text, items.length ≤ maxIndex + 1 → (∀ t ∈ items, t ≠ [] ∧ '$' ∉ t) →
      c.IsOver (elementProperties root items) → c'.IsOver [(root, writeList items)] →
        c.readList Converter.text root = (if items = [] then .error (.notFound root) else .ok items) ∧
          c'.readList Converter.text root = c.readList Converter.text root) ∧
    (root ≠ [] → ∀ es : List (Text × Text), (es.map Prod.fst).Nodup →
      (∀ e ∈ es, IsKey e.1 ∧ e.2 ≠ [] ∧ '$' ∉ e.1 ∧ '$' ∉ e.2) →
      c.IsOver (memberProperties root es) → c'.IsOver [(root, writeMap es)] →
        c.readMap Converter.text Converter.text root =
            (if es = [] then .error (.notFound root) else .ok (.ofPairs es)) ∧
          c'.readMap Converter.text Converter.text root = c.readMap Converter.text Converter.text root) := by
  constructor
  · intro items hlen hitems hc hc'
    have helements : ∀ e ∈ elementProperties root items, '$' ∉ e.2 := by
      intro e he
      obtain ⟨i, t, ht, rfl⟩ := mem_elementProperties.mp he
      exact (hitems t (List.mem_of_getElem? ht)).2
    have hinline : ∀ e ∈ [(root, writeList items)], '$' ∉ e.2 := by
      intro e he hmem
      obtain rfl := List.mem_singleton.mp he
      obtain ⟨t, ht, hdollar⟩ := mem_of_mem_writeList hmem (by decide)
      exact (hitems t ht).2 hdollar
    have hitems' : ∀ t ∈ items, t ≠ [] := fun t ht => (hitems t ht).1
    -- both sides come to the list that was written
    have hread := readList_of_listItems ((hc.reads helements).listItems_elements hlen hitems')
    have hread' := readList_of_listItems (hc'.reads hinline).listItems_inline
    rw [splitList_writeList hitems'] at hread'
    exact ⟨hread, hread'.trans hread.symm⟩
  · intro hroot es hes hentries hc hc'
    have hmembers : ∀ e ∈ memberProperties root es, '$' ∉ e.2 := by
      intro e he
      obtain ⟨entry, hentry, rfl⟩ := List.mem_map.mp he
      exact (hentries entry hentry).2.2.2
    have hinline : ∀ e ∈ [(root, writeMap es)], '$' ∉ e.2 := by
      intro e he hmem
      obtain rfl := List.mem_singleton.mp he
      obtain ⟨entry, hentry, hdollar⟩ := mem_of_mem_writeMap hmem (by decide)
      rcases hdollar with hdollar | hdollar
      · exact (hentries entry hentry).2.2.1 hdollar
      · exact (hentries entry hentry).2.2.2 hdollar
    have hwritten : ∀ e ∈ es, e.1 ≠ [] ∧ isQuoted e.1 = false :=
      fun e he => ⟨(hentries e he).1.1, isQuoted_of_not_mem (hentries e he).1.isSpellable.quote_not_mem⟩
    have hread := (hc.reads hmembers).readMap_members hroot hes (fun e he => (hentries e he).1)
      fun e he => (hentries e he).2.1
    have hread' := (hc'.reads hinline).readMap_inline_eq hroot
    rw [splitMap_writeMap hwritten] at hread'
    rw [nonEmptyMap_ofPairs] at hread hread'
    exact ⟨hread, hread'.trans hread.symm⟩

/-- Two items with a comma and a backslash, and two keys, of which one holds a dot and the other what separates
entries. -/
theorem spellings_agree_escaped :
    let root := "app.hosts".toList
    let items := ["a,b".toList, "c\\".toList]
    let es := [("eu.west".toList, "x=1".toList), ("a;b=c".toList, "\\".toList)]
    let table (ps : List (Text × Text)) : Config :=
      ⟨Parts.pipeline { Parts.empty with sources := [.table (.ofProperties "map".toList (.ofPairs ps))] } [], .locked⟩
    writeList items = "a\\,b,c\\\\".toList ∧ writeMap es = "eu.west=x\\=1;a\\;b\\=c=\\\\".toList ∧
      (table (elementProperties root items)).readList Converter.text root = .ok items ∧
      (table [(root, writeList items)]).readList Converter.text root = .ok items ∧
      (table (memberProperties root es)).readMap Converter.text Converter.text root = .ok (.ofPairs es) ∧
      (table [(root, writeMap es)]).readMap Converter.text Converter.text root = .ok (.ofPairs es) := by
  intro root items es table
  have hover (ps : List (Text × Text)) (h : ∀ e ∈ ps, e.1 ≠ profileProperty ∧ e.1 ≠ profileParentProperty) :
      (table ps).IsOver ps := isOver_pipeline ⟨⟨rfl, rfl, rfl, rfl, rfl⟩, rfl, rfl, rfl, rfl⟩ rfl .ofNotations default h
  obtain ⟨hlist, hlist'⟩ := (spellings_agree (table (elementProperties root items)) (table [(root, writeList items)])
    root).1 items (by decide) (by decide) (hover _ (by decide +kernel)) (hover _ (by decide +kernel))
  obtain ⟨hmap, hmap'⟩ := (spellings_agree (table (memberProperties root es)) (table [(root, writeMap es)])
    root).2 (by decide) es (by decide) (by decide) (hover _ (by decide +kernel)) (hover _ (by decide +kernel))
  exact ⟨by decide +kernel, by decide +kernel, hlist, hlist'.trans hlist, hmap, hmap'.trans hmap⟩

end Config

end LayeredConfig
