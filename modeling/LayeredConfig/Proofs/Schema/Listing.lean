import LayeredConfig.Proofs.Schema.Fitting

/-!
# `LayeredConfig.Proofs.Schema.Listing` — the parts of a tree are found again

Where a dictionary holds a list or a table behind a name, the members that are listed for the name are the items of the
list in their order and the entries of the table in the order of their keys.

## Contents
- **Names of members.** `groupMember?_memberPath`, `keyedMember?_memberPath`.
- **Lists.** `Holds.elements_eq`; the name of a list has a value of its own only where the list is empty.
- **Tables.** `Holds.groupKeys_eq`, `Holds.keyedMembers_eq`; the name of a table never has a value of its own.
-/

namespace LayeredConfig

open Text Name Family Document

/-! ## Names of members -/

section Members

variable {parent key u : Text}

theorem memberName_eq (hparent : parent ≠ []) (hkey : IsKey key) :
    memberName parent (quotedIfNeeded key) = memberPath parent key := by
  rw [memberPath_of_ne_nil hparent hkey]
  unfold memberName
  rw [if_neg (by simpa using hparent)]

theorem below?_memberPath (hparent : parent ≠ []) (hkey : IsKey key) :
    below? parent (memberPath parent key ++ u) = some (quotedIfNeeded key ++ u) := by
  rw [below?_eq_some_iff hparent, memberPath_of_ne_nil hparent hkey, List.append_assoc, List.cons_append]

theorem groupMember?_memberPath (hparent : parent ≠ []) (hkey : IsKey key) (hu : Follows u) :
    groupMember? parent (memberPath parent key ++ u) = some (key, memberPath parent key) := by
  rw [groupMember?, below?_memberPath hparent hkey, Option.bind_some, keySegment_spelled hkey hu, Option.map_some,
    ← memberName_eq hparent hkey]

theorem keyedMember?_memberPath (hparent : parent ≠ []) (hkey : IsKey key) (hu : Follows u)
    (htail : u = [] ∨ (indexGroup u).isSome = true) :
    keyedMember? parent (memberPath parent key ++ u) = some (key, memberPath parent key) := by
  have htail' : (u.isEmpty || (indexGroup u).isSome) = true := by simpa [List.isEmpty_iff] using htail
  rw [keyedMember?, below?_memberPath hparent hkey, Option.bind_some, keySegment_spelled hkey hu, Option.bind_some]
  simp only [htail', if_true, memberName_eq hparent hkey]

end Members

namespace Holds

variable {d : Dict Text Text} {name : Text}

/-- A property of a part that is held is found in the dictionary. -/
theorem mem_keys {t : Tree} (h : Holds d name (some t)) {u w : Text} (hu : Follows u)
    (hn : (name ++ u, w) ∈ t.properties name) : name ++ u ∈ d.keys :=
  d.mem_keys_iff.mpr ⟨w, (h u w hu).mpr hn⟩

theorem mem_properties {t : Tree} (h : Holds d name (some t)) {u : Text} (hu : Follows u) (hn : name ++ u ∈ d.keys) :
    ∃ w, (name ++ u, w) ∈ t.properties name := by
  obtain ⟨w, hw⟩ := d.mem_keys_iff.mp hn
  exact ⟨w, (h u w hu).mp hw⟩

theorem get?_eq (h : Holds d name none) : d.get? name = none := by
  cases hv : d.get? name with
  | none => rfl
  | some w => exact absurd ((h [] w follows_nil).mp (by rwa [List.append_nil])) List.not_mem_nil

theorem get?_text {v : Text} (h : Holds d name (some (.text v))) : d.get? name = some v := by
  have hv := (h [] v follows_nil).mpr (by simp [propertiesOf])
  rwa [List.append_nil] at hv

/-! ## Lists -/

theorem get?_nil (h : Holds d name (some (.list []))) : d.get? name = some [] := by
  have hv := (h [] [] follows_nil).mpr (by simp [propertiesOf])
  rwa [List.append_nil] at hv

/-- The name of a list that is not empty has no value of its own. -/
theorem get?_list {items : List Tree} (h : Holds d name (some (.list items))) (hne : items ≠ []) :
    d.get? name = none := by
  cases hv : d.get? name with
  | none => rfl
  | some w =>
      have hmem := (h [] w follows_nil).mp (by rwa [List.append_nil])
      rw [List.append_nil] at hmem
      obtain ⟨i, t, -, ht⟩ := (Tree.mem_properties_list hne).mp hmem
      obtain ⟨u, -, hu⟩ := Tree.exists_follows (Value.itemName_ne_nil name i) ht
      have hlen := congrArg List.length hu
      -- a property of an item has a longer name than the list
      simp only [Value.itemName_eq, List.length_append, List.length_cons] at hlen
      omega

/-- A listed name belongs to an element exactly when there is such an item. -/
theorem exists_element_iff {items : List Tree} (h : Holds d name (some (.list items)))
    (hvisible : ∀ t ∈ items, t.IsVisible) (hlen : items.length ≤ maxIndex + 1) {i : Nat} {e : Text} :
    (∃ n ∈ d.keys, element? name n = some (i, e)) ↔ i < items.length ∧ e = Value.itemName name i := by
  constructor
  · rintro ⟨n, hn, helement⟩
    obtain ⟨digits, u, rfl, hnumeric, rfl, -, -, rfl⟩ := element?_eq_some_iff.mp helement
    rw [List.append_assoc] at hn
    obtain ⟨w, hw⟩ := h.mem_properties (follows_bracket _) hn
    by_cases hne : items = []
    · subst hne
      simp at hw
    · obtain ⟨j, t, ht, hw⟩ := (Tree.mem_properties_list hne).mp hw
      obtain ⟨v, -, hv⟩ := Tree.exists_follows (Value.itemName_ne_nil name j) hw
      obtain ⟨rfl, -⟩ := Value.digits_of_itemName_append hnumeric ((List.append_assoc _ _ _).trans hv)
      rw [digitsValue_ofNat]
      exact ⟨(List.getElem?_eq_some_iff.mp ht).1, rfl⟩
  · rintro ⟨hi, rfl⟩
    have hne : items ≠ [] := List.ne_nil_of_length_pos (by omega)
    obtain ⟨⟨n, w⟩, hmem⟩ := (hvisible _ (List.getElem_mem hi)).exists_mem (Value.itemName name i)
    obtain ⟨u, hu, rfl⟩ := Tree.exists_follows (Value.itemName_ne_nil name i) hmem
    have hpath : Value.itemName name i ++ u = name ++ '[' :: ofNat i ++ ']' :: u := by simp [Value.itemName_eq]
    have hn := (Tree.mem_properties_list hne).mpr ⟨i, _, List.getElem?_eq_getElem hi, hmem⟩
    refine ⟨Value.itemName name i ++ u, ?_, ?_⟩
    · rw [hpath, List.append_assoc] at hn ⊢
      exact h.mem_keys (follows_bracket _) hn
    · exact element?_eq_some_iff.mpr
        ⟨ofNat i, u, hpath, isNumeric_ofNat i, (digitsValue_ofNat i).symm, by omega, hu, rfl⟩

/-- The elements of a list are its items in their order. -/
theorem elements_eq {items : List Tree} (h : Holds d name (some (.list items))) (hvisible : ∀ t ∈ items, t.IsVisible)
    (hlen : items.length ≤ maxIndex + 1) :
    elements name d.keys = (List.range items.length).map (Value.itemName name) := by
  have hpairs (p : Nat × Text) :
      p ∈ d.keys.filterMap (element? name) ↔ p.1 < items.length ∧ p.2 = Value.itemName name p.1 := by
    rw [List.mem_filterMap]
    exact h.exists_element_iff hvisible hlen
  have hfunctional : Dict.Functional (d.keys.filterMap (element? name)) := by
    intro i e e' he he'
    exact ((hpairs (i, e)).mp he).2.trans ((hpairs (i, e')).mp he').2.symm
  have hentries : (elementsByIndex name d.keys).entries =
      (List.range items.length).map fun i => (i, Value.itemName name i) := by
    refine Dict.entries_eq_of_mem_iff _ ?_ fun p => ?_
    · rw [List.pairwise_map]
      exact List.pairwise_lt_range
    · rw [← Dict.get?_eq_some_iff]
      show (Dict.ofPairsFirst _).get? p.1 = some p.2 ↔ _
      rw [(Dict.madeOf_ofPairsFirst _).get?_iff hfunctional, hpairs, List.mem_map]
      constructor
      · rintro ⟨hi, he⟩
        exact ⟨p.1, List.mem_range.mpr hi, by rw [← he]⟩
      · rintro ⟨i, hi, rfl⟩
        exact ⟨List.mem_range.mp hi, rfl⟩
  rw [elements, hentries, List.map_map]
  rfl

/-! ## Tables -/

/-- The name of a table has no value of its own. -/
theorem get?_table {es : List (Text × Tree)} (h : Holds d name (some (.table es))) (hname : name ≠ [])
    (hes : Keyed es) : d.get? name = none := by
  cases hv : d.get? name with
  | none => rfl
  | some w =>
      have hmem := (h [] w follows_nil).mp (by rwa [List.append_nil])
      rw [List.append_nil] at hmem
      obtain ⟨e, he, ht⟩ := Tree.mem_properties_table.mp hmem
      obtain ⟨u, -, hu⟩ := Tree.exists_follows (memberPath_ne_nil (hes.2 e he)) ht
      have hlen := congrArg List.length hu
      simp only [memberPath_of_ne_nil hname (hes.2 e he), List.length_append, List.length_cons] at hlen
      omega

/-- However members are read of names, where they are those of the names and each entry has one, they are the entries
in the order of their keys. -/
theorem members_eq {es : List (Text × Tree)} (h : Holds d name (some (.table es))) (hname : name ≠ []) (hes : Keyed es)
    {read : Text → Option (Text × Text)} (hread : ∀ n p, read n = some p → groupMember? name n = some p)
    (hall : ∀ e ∈ es, ∃ n ∈ d.keys, read n = some (e.1, memberPath name e.1)) :
    (Dict.ofPairsFirst (d.keys.filterMap read)).entries = es.map fun e => (e.1, memberPath name e.1) := by
  have hpairs (p : Text × Text) : p ∈ d.keys.filterMap read ↔ p ∈ es.map fun e => (e.1, memberPath name e.1) := by
    rw [List.mem_filterMap, List.mem_map]
    constructor
    · -- a name behind the table is the name of a property, and so lies behind an entry, whose key is read from it
      rintro ⟨n, hn, hp⟩
      have hmember := hread n p hp
      obtain ⟨rest, hrest, -⟩ := Option.bind_eq_some_iff.mp hmember
      rw [below?_eq_some_iff hname] at hrest
      subst hrest
      obtain ⟨w, hw⟩ := h.mem_properties (follows_dot rest) hn
      obtain ⟨e, he, hw⟩ := Tree.mem_properties_table.mp hw
      obtain ⟨u, hu, heq⟩ := Tree.exists_follows (memberPath_ne_nil (hes.2 e he)) hw
      rw [heq, groupMember?_memberPath hname (hes.2 e he) hu] at hmember
      exact ⟨e, he, Option.some.inj hmember⟩
    · rintro ⟨e, he, rfl⟩
      exact hall e he
  have hfunctional : Dict.Functional (d.keys.filterMap read) := by
    intro k m m' hm hm'
    obtain ⟨e, -, he⟩ := List.mem_map.mp ((hpairs (k, m)).mp hm)
    obtain ⟨e', -, he'⟩ := List.mem_map.mp ((hpairs (k, m')).mp hm')
    obtain ⟨rfl, rfl⟩ := Prod.mk.inj he
    obtain ⟨hkey, rfl⟩ := Prod.mk.inj he'
    rw [hkey]
  refine Dict.entries_eq_of_mem_iff _ ?_ fun p => ?_
  · rw [List.pairwise_map]
    exact hes.1
  · rw [← Dict.get?_eq_some_iff, (Dict.madeOf_ofPairsFirst _).get?_iff hfunctional, hpairs]

theorem member_mem_keys {es : List (Text × Tree)} (h : Holds d name (some (.table es))) (hname : name ≠ [])
    (hes : Keyed es) {e : Text × Tree} (he : e ∈ es) {u w : Text} (hu : Follows u)
    (hw : (memberPath name e.1 ++ u, w) ∈ e.2.properties (memberPath name e.1)) :
    memberPath name e.1 ++ u ∈ d.keys := by
  have hmember := h.member hname hes (hes.2 e he)
  rw [(lookupKey_eq_some_iff hes.1).mpr he] at hmember
  exact hmember.mem_keys hu hw

/-- The members of a table at any depth are its entries. -/
theorem groupKeys_eq {es : List (Text × Tree)} (h : Holds d name (some (.table es))) (hname : name ≠ [])
    (hes : Keyed es) (hvisible : ∀ e ∈ es, e.2.IsVisible) :
    groupKeys name d.keys = es.map fun e => (e.1, memberPath name e.1) := by
  refine h.members_eq hname hes (fun _ _ hp => hp) fun e he => ?_
  obtain ⟨⟨n, w⟩, hw⟩ := (hvisible e he).exists_mem (memberPath name e.1)
  obtain ⟨u, hu, rfl⟩ := Tree.exists_follows (memberPath_ne_nil (hes.2 e he)) hw
  exact ⟨_, h.member_mem_keys hname hes he hu hw, groupMember?_memberPath hname (hes.2 e he) hu⟩

/-- The members of a table of values and lists are its entries. -/
theorem keyedMembers_eq {es : List (Text × Tree)} (h : Holds d name (some (.table es))) (hname : name ≠ [])
    (hes : Keyed es) (hvalue : ∀ e ∈ es, ∃ u w, Follows u ∧ (u = [] ∨ (indexGroup u).isSome = true) ∧
      (memberPath name e.1 ++ u, w) ∈ e.2.properties (memberPath name e.1)) :
    keyedMembers name d.keys = es.map fun e => (e.1, memberPath name e.1) := by
  refine h.members_eq hname hes (fun _ _ hp => groupMember?_of_keyedMember? hp) fun e he => ?_
  obtain ⟨u, w, hu, htail, hw⟩ := hvalue e he
  exact ⟨_, h.member_mem_keys hname hes he hu hw, keyedMember?_memberPath hname (hes.2 e he) hu htail⟩

end Holds

end LayeredConfig
