import LayeredConfig.Proofs.Document.Value
import LayeredConfig.Schema.Tree

/-!
# `LayeredConfig.Proofs.Schema.Fitting` — trees of a shape, and their properties

A tree that fits a shape can be written to a file and read back as flat properties. What a dictionary holds at and
behind the name of a part of the tree are the properties of that part, and of no other.

## Contents
- **Trees in files.** `Tree.toValue`, `Tree.properties`, by the parts of the tree.
- **Fitting.** `Shape.Fits`, `GroupFits`: which trees a shape describes.
- **One value for a name.** `Shape.Fits.functional`.
- **Regions.** `Holds`: what a dictionary holds behind a name; `Holds.member`, `Holds.item` for the parts.
-/

namespace LayeredConfig

open Text Name Family Document

/-! ## Trees in files -/

mutual

/-- The value of a file that holds a tree. -/
def Tree.toValue : Tree → Value
  | .text t => .text t
  | .list items => .list (toValues items)
  | .table es => .table (toEntries es)

/-- The values of the items of a list. -/
def toValues : List Tree → List Value
  | [] => []
  | t :: r => t.toValue :: toValues r

/-- The values of the entries of a table. -/
def toEntries : List (Text × Tree) → List (Text × Value)
  | [] => []
  | (key, t) :: r => (key, t.toValue) :: toEntries r

end

theorem toValues_eq (items : List Tree) : toValues items = items.map Tree.toValue := by
  induction items with
  | nil => rfl
  | cons t items ih => rw [toValues, ih, List.map_cons]

theorem toEntries_eq (es : List (Text × Tree)) : toEntries es = es.map fun e => (e.1, e.2.toValue) := by
  induction es with
  | nil => rfl
  | cons e es ih => rw [toEntries, ih, List.map_cons]

namespace Tree

/-- The properties of a tree under a name. -/
def properties (name : Text) (t : Tree) : List (Text × Text) := Value.propertiesUnder name t.toValue

/-- A tree that has a property. -/
def IsVisible (t : Tree) : Prop := t.properties [] ≠ []

instance (t : Tree) : Decidable t.IsVisible := inferInstanceAs (Decidable (_ ≠ _))

@[simp] theorem properties_text (name t : Text) : (text t).properties name = [(name, t)] := rfl

@[simp] theorem properties_nil (name : Text) : (list []).properties name = [(name, [])] := rfl

theorem mem_properties_table {name : Text} {es : List (Text × Tree)} {x : Text × Text} :
    x ∈ (table es).properties name ↔ ∃ e ∈ es, x ∈ e.2.properties (memberPath name e.1) := by
  rw [properties, toValue, toEntries_eq, Value.mem_propertiesUnder_table]
  simp only [List.mem_map, exists_exists_and_eq_and]
  rfl

theorem mem_properties_list {name : Text} {items : List Tree} (hne : items ≠ []) {x : Text × Text} :
    x ∈ (list items).properties name ↔
      ∃ (i : Nat) (t : Tree), items[i]? = some t ∧ x ∈ t.properties (Value.itemName name i) := by
  rw [properties, toValue, toValues_eq, Value.mem_propertiesUnder_list (by simpa using hne)]
  simp only [List.getElem?_map, Option.map_eq_some_iff]
  constructor
  · rintro ⟨i, v, ⟨u, hu, rfl⟩, hx⟩
    exact ⟨i, u, hu, hx⟩
  · rintro ⟨i, u, hu, hx⟩
    exact ⟨i, _, ⟨u, hu, rfl⟩, hx⟩

/-- The properties of a tree lie behind its name. -/
theorem exists_follows {name n w : Text} {t : Tree} (hname : name ≠ []) (h : (n, w) ∈ t.properties name) :
    ∃ u, Follows u ∧ n = name ++ u :=
  Value.exists_follows_of_mem_properties t.toValue hname h

theorem IsVisible.exists_mem {t : Tree} (h : t.IsVisible) (name : Text) : ∃ x, x ∈ t.properties name :=
  List.exists_mem_of_ne_nil _ ((Value.propertiesUnder_ne_nil_iff t.toValue [] name).mp h)

end Tree

/-! ## Fitting -/

/-- Entries in ascending order of keys that a name can spell. -/
def Keyed (es : List (Text × Tree)) : Prop := (es.Pairwise fun a b => a.1 < b.1) ∧ ∀ e ∈ es, IsKey e.1

/-- A list of texts that are not empty. It is no longer than an index can count. -/
def FitsTexts (t : Tree) : Prop :=
  ∃ items : List Text, t = Tree.texts items ∧ (∀ v ∈ items, v ≠ []) ∧ items.length ≤ maxIndex + 1

/-- The entries of a group: in ascending order, each under the name of a member, and as the members require. -/
structure IsGroup (names : List Text) (fits : List (Text × Tree) → Prop) (es : List (Text × Tree)) : Prop where
  ascending : es.Pairwise fun a b => a.1 < b.1
  named : ∀ e ∈ es, e.1 ∈ names
  fits : fits es

mutual

/-- The trees of a shape, `none` where the member is absent. A group that may be absent, or of which a list or a map
holds any number, has a property. -/
def Shape.Fits : Shape → Option Tree → Prop
  | .leaf _, t => ∃ v, t = some (.text v)
  | .optional, t => t = none ∨ ∃ v, t = some (.text v) ∧ v ≠ []
  | .group ms, t => ∃ es, t = some (.table es) ∧ IsGroup (ms.map Prod.fst) (MembersFit ms) es
  | .optionalGroup ms, t => t = none ∨
      ∃ es, t = some (.table es) ∧ IsGroup (ms.map Prod.fst) (MembersFit ms) es ∧ (Tree.table es).IsVisible
  | .list, t => ∃ u, t = some u ∧ FitsTexts u
  | .listOfGroups ms, t => ∃ items, t = some (.list items) ∧ items.length ≤ maxIndex + 1 ∧
      ∀ u ∈ items, u.IsVisible ∧ ∃ es, u = .table es ∧ IsGroup (ms.map Prod.fst) (MembersFit ms) es
  | .map, t => ∃ es, t = some (.table es) ∧ Keyed es ∧ ∀ e ∈ es, ∃ v, e.2 = .text v ∧ v ≠ []
  | .mapOfLists, t => ∃ es, t = some (.table es) ∧ Keyed es ∧ ∀ e ∈ es, FitsTexts e.2
  | .mapOfGroups ms, t => ∃ es, t = some (.table es) ∧ Keyed es ∧
      ∀ e ∈ es, e.2.IsVisible ∧ ∃ fs, e.2 = .table fs ∧ IsGroup (ms.map Prod.fst) (MembersFit ms) fs

/-- The entries under the names of members are trees of their shapes. -/
def MembersFit : List (Text × Shape) → List (Text × Tree) → Prop
  | [], _ => True
  | (name, s) :: r, es => s.Fits (lookupKey name es) ∧ MembersFit r es

end

/-- The entries of a group with the given members. -/
def GroupFits (ms : List (Text × Shape)) (es : List (Text × Tree)) : Prop :=
  IsGroup (ms.map Prod.fst) (MembersFit ms) es

theorem GroupFits.keyed {ms : List (Text × Shape)} {es : List (Text × Tree)} (h : GroupFits ms es)
    (hms : MembersNamed IsKey ms) : Keyed es := by
  refine ⟨h.ascending, fun e he => ?_⟩
  obtain ⟨m, hm, hname⟩ := List.mem_map.mp (h.named e he)
  exact hname ▸ hms.of_mem hm

/-! ## One value for a name -/

open Dict (Functional)

/-- In a table with different keys a property comes from one entry. -/
theorem eq_of_mem_properties {name w w' : Text} {es : List (Text × Tree)} (hes : Keyed es) {e e' : Text × Tree}
    (he : e ∈ es) (he' : e' ∈ es) {n : Text} (h : (n, w) ∈ e.2.properties (memberPath name e.1))
    (h' : (n, w') ∈ e'.2.properties (memberPath name e'.1)) : e = e' := by
  obtain ⟨u, hu, rfl⟩ := Tree.exists_follows (memberPath_ne_nil (hes.2 e he)) h
  obtain ⟨u', hu', heq⟩ := Tree.exists_follows (memberPath_ne_nil (hes.2 e' he')) h'
  obtain ⟨hkey, -⟩ := memberPath_append_inj (hes.2 e he) (hes.2 e' he') hu hu' heq
  have hfirst := (lookupKey_eq_some_iff hes.1).mpr he
  rw [hkey, (lookupKey_eq_some_iff hes.1).mpr he', Option.some.injEq] at hfirst
  exact Prod.ext hkey hfirst.symm

theorem functional_table {name : Text} {es : List (Text × Tree)} (hes : Keyed es)
    (h : ∀ e ∈ es, Functional (e.2.properties (memberPath name e.1))) :
    Functional ((Tree.table es).properties name) := by
  intro n v w hv hw
  obtain ⟨e, he, hv⟩ := Tree.mem_properties_table.mp hv
  obtain ⟨e', he', hw⟩ := Tree.mem_properties_table.mp hw
  obtain rfl := eq_of_mem_properties hes he he' hv hw
  exact h e he n v w hv hw

theorem functional_list {name : Text} {items : List Tree}
    (h : ∀ t ∈ items, ∀ i, Functional (t.properties (Value.itemName name i))) :
    Functional ((Tree.list items).properties name) := by
  intro n v w hv hw
  by_cases hne : items = []
  · subst hne
    simp only [Tree.properties_nil, List.mem_singleton, Prod.mk.injEq] at hv hw
    rw [hv.2, hw.2]
  · obtain ⟨i, t, ht, hv⟩ := (Tree.mem_properties_list hne).mp hv
    obtain ⟨j, t', ht', hw⟩ := (Tree.mem_properties_list hne).mp hw
    obtain ⟨u, -, hu⟩ := Tree.exists_follows (Value.itemName_ne_nil name i) hv
    obtain ⟨u', -, hu'⟩ := Tree.exists_follows (Value.itemName_ne_nil name j) hw
    obtain ⟨rfl, -⟩ := Value.itemName_append_inj (hu.symm.trans hu')
    rw [ht, Option.some.injEq] at ht'
    subst ht'
    exact h t (List.mem_of_getElem? ht) i n v w hv hw

theorem functional_text (name t : Text) : Functional ((Tree.text t).properties name) := by
  intro n v w hv hw
  simp only [Tree.properties_text, List.mem_singleton, Prod.mk.injEq] at hv hw
  rw [hv.2, hw.2]

theorem FitsTexts.functional {t : Tree} (h : FitsTexts t) (name : Text) : Functional (t.properties name) := by
  obtain ⟨items, rfl, -, -⟩ := h
  refine functional_list fun t ht i => ?_
  obtain ⟨v, -, rfl⟩ := List.mem_map.mp ht
  exact functional_text _ v

/-- What holds for the parts of a group holds for its entries. -/
theorem GroupFits.functional {ms : List (Text × Shape)} {es : List (Text × Tree)} (h : GroupFits ms es)
    (hms : MembersNamed IsKey ms) {name : Text}
    (hmembers : ∀ m ∈ ms, ∀ t, lookupKey m.1 es = some t → Functional (t.properties (memberPath name m.1))) :
    Functional ((Tree.table es).properties name) := by
  refine functional_table (h.keyed hms) fun e he => ?_
  -- no entry stands under a name that no member has
  obtain ⟨m, hm, hname⟩ := List.mem_map.mp (h.named e he)
  have hentry := (lookupKey_eq_some_iff h.ascending).mpr he
  rw [← hname] at hentry ⊢
  exact hmembers m hm e.2 hentry

mutual

/-- The properties of a tree of a shape give every name one value. -/
theorem Shape.Fits.functional : ∀ (s : Shape) {t : Tree} (name : Text), s.Named IsKey → s.Fits (some t) →
    Functional (t.properties name)
  | .leaf _, t, name, _, h => by
      obtain ⟨v, hv⟩ := h
      obtain rfl := Option.some.inj hv
      exact functional_text name v
  | .optional, t, name, _, h => by
      obtain ⟨v, hv, -⟩ := h.resolve_left (Option.some_ne_none t)
      obtain rfl := Option.some.inj hv
      exact functional_text name v
  | .group ms, t, name, hms, h => by
      obtain ⟨es, hes, hgroup⟩ := h
      obtain rfl := Option.some.inj hes
      exact GroupFits.functional hgroup hms (MembersFit.functional ms name hms hgroup.fits)
  | .optionalGroup ms, t, name, hms, h => by
      obtain ⟨es, hes, hgroup, -⟩ := h.resolve_left (Option.some_ne_none t)
      obtain rfl := Option.some.inj hes
      exact GroupFits.functional hgroup hms (MembersFit.functional ms name hms hgroup.fits)
  | .list, t, name, _, h => by
      obtain ⟨u, hu, htexts⟩ := h
      obtain rfl := Option.some.inj hu
      exact htexts.functional name
  | .listOfGroups ms, t, name, hms, h => by
      obtain ⟨items, hitems, -, hgroups⟩ := h
      obtain rfl := Option.some.inj hitems
      refine functional_list fun u hu i => ?_
      obtain ⟨-, es, rfl, hgroup⟩ := hgroups u hu
      exact GroupFits.functional hgroup hms (MembersFit.functional ms _ hms hgroup.fits)
  | .map, t, name, _, h => by
      obtain ⟨es, hes, hkeyed, htexts⟩ := h
      obtain rfl := Option.some.inj hes
      refine functional_table hkeyed fun e he => ?_
      obtain ⟨v, hv, -⟩ := htexts e he
      rw [hv]
      exact functional_text _ v
  | .mapOfLists, t, name, _, h => by
      obtain ⟨es, hes, hkeyed, hlists⟩ := h
      obtain rfl := Option.some.inj hes
      exact functional_table hkeyed fun e he => (hlists e he).functional _
  | .mapOfGroups ms, t, name, hms, h => by
      obtain ⟨es, hes, hkeyed, hgroups⟩ := h
      obtain rfl := Option.some.inj hes
      refine functional_table hkeyed fun e he => ?_
      obtain ⟨-, fs, hfs, hgroup⟩ := hgroups e he
      rw [hfs]
      exact GroupFits.functional hgroup hms (MembersFit.functional ms _ hms hgroup.fits)

/-- So do those of the entries under the names of members. -/
theorem MembersFit.functional : ∀ (ms : List (Text × Shape)) {es : List (Text × Tree)} (name : Text),
    MembersNamed IsKey ms → MembersFit ms es →
      ∀ m ∈ ms, ∀ t, lookupKey m.1 es = some t → Functional (t.properties (memberPath name m.1))
  | [], _, _, _, _, _, hm, _, _ => absurd hm List.not_mem_nil
  | (key, s) :: ms, es, name, hms, h, m, hm, t, ht => by
      rcases List.mem_cons.mp hm with rfl | hm
      · exact Shape.Fits.functional s _ hms.2.1 (ht ▸ h.1)
      · exact MembersFit.functional ms name hms.2.2 h.2 m hm t ht

end

/-! ## Regions -/

/-- The properties of a part that may be absent. -/
def propertiesOf (name : Text) : Option Tree → List (Text × Text)
  | none => []
  | some t => t.properties name

/-- What a dictionary holds at a name and behind it are the properties of a part. -/
def Holds (d : Dict Text Text) (name : Text) (t : Option Tree) : Prop :=
  ∀ u w, Follows u → (d.get? (name ++ u) = some w ↔ (name ++ u, w) ∈ propertiesOf name t)

namespace Holds

variable {d : Dict Text Text} {name : Text}

theorem of_entries {es : List (Text × Tree)} (hes : Keyed es) {key : Text} (hkey : IsKey key)
    (h : ∀ u w, Follows u → (d.get? (memberPath name key ++ u) = some w ↔
      (memberPath name key ++ u, w) ∈ (Tree.table es).properties name)) :
    Holds d (memberPath name key) (lookupKey key es) := by
  intro u w hu
  rw [h u w hu, Tree.mem_properties_table]
  constructor
  · rintro ⟨e, he, hmem⟩
    obtain ⟨v, hv, heq⟩ := Tree.exists_follows (memberPath_ne_nil (hes.2 e he)) hmem
    obtain ⟨rfl, -⟩ := memberPath_append_inj hkey (hes.2 e he) hu hv heq
    rw [(lookupKey_eq_some_iff hes.1).mpr he]
    exact hmem
  · intro hmem
    cases hentry : lookupKey key es with
    | none =>
        rw [hentry] at hmem
        exact absurd hmem List.not_mem_nil
    | some t =>
        rw [hentry] at hmem
        exact ⟨(key, t), mem_of_lookupKey hentry, hmem⟩

/-- What is held behind the name of a table is held behind the names of its entries. -/
theorem member {es : List (Text × Tree)} (h : Holds d name (some (.table es))) (hname : name ≠ []) (hes : Keyed es)
    {key : Text} (hkey : IsKey key) : Holds d (memberPath name key) (lookupKey key es) := by
  refine of_entries hes hkey fun u w _ => ?_
  rw [memberPath_of_ne_nil hname hkey, List.append_assoc]
  exact h _ w (follows_dot _)

/-- What is held behind the name of a list is held behind the names of its items. -/
theorem item {items : List Tree} (h : Holds d name (some (.list items))) (hne : items ≠ []) (i : Nat) :
    Holds d (Value.itemName name i) items[i]? := by
  intro u w hu
  have hpath : Value.itemName name i ++ u = name ++ '[' :: (ofNat i ++ ']' :: u) := by
    simp [Value.itemName_eq]
  rw [hpath, h _ w (follows_bracket _), ← hpath]
  show (_, w) ∈ (Tree.list items).properties name ↔ _
  rw [Tree.mem_properties_list hne]
  constructor
  · rintro ⟨j, t, ht, hmem⟩
    obtain ⟨v, -, heq⟩ := Tree.exists_follows (Value.itemName_ne_nil name j) hmem
    obtain ⟨rfl, -⟩ := Value.itemName_append_inj heq
    rw [ht]
    exact hmem
  · intro hmem
    cases hitem : items[i]? with
    | none =>
        rw [hitem] at hmem
        exact absurd hmem List.not_mem_nil
    | some t =>
        rw [hitem] at hmem
        exact ⟨i, t, hitem, hmem⟩

end Holds

end LayeredConfig
