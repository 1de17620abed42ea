import LayeredConfig.Document.Value
import LayeredConfig.Proofs.Family.Member
import LayeredConfig.Schema

/-!
# `LayeredConfig.Proofs.Document.Value` — where the properties of a value lie

The properties of a value lie behind the name of the value: those of a table behind the names of its entries, those of a
list behind the names of its items. Neither two keys nor two indexes have a common property.

## Contents
- **Names.** `Branch` is a step into a value, `Branch.nameBelow` the name of what stands there, which follows that of the
  value (`Branch.exists_follows`).
- **Parts.** A value is a leaf or has parts, so that its properties are one or those of its parts
  (`propertiesUnder_of_isLeaf`, `propertiesUnder_of_not_isLeaf`) and what holds of parts is shown by `induction_parts`.
- **Indexes.** `itemName_append_inj`.
- **Keys.** `IsSpellable`, a key that can be told from what follows it when it is spelled as a segment
  (`IsSpellable.spelled_append_inj`), and `IsKey`, one that is also read back as a key; the name of a member as a stem
  and a spelled key (`memberPath_eq`), from which both can be read (`memberPath_append_inj`).
-/

namespace LayeredConfig

open Text Name Family

namespace Document

/-! ## Names -/

/-- A segment put behind a name that is not empty follows it. -/
theorem exists_join {name : Text} (h : name ≠ []) (child : Text) : ∃ u, Follows u ∧ join name child = name ++ u := by
  unfold join
  rw [if_neg (by simpa using h)]
  split
  · next t => exact ⟨_, follows_bracket t, rfl⟩
  · exact ⟨_, follows_dot child, rfl⟩

theorem Value.itemName_eq (name : Text) (i : Nat) : itemName name i = name ++ '[' :: (ofNat i ++ [']']) := by
  rw [itemName, List.append_assoc, List.cons_append]

theorem Value.itemName_ne_nil (name : Text) (i : Nat) : itemName name i ≠ [] := by
  simp [itemName_eq]

/-- What follows a part of a name follows the name, when the part does so itself. -/
theorem exists_follows_trans {name part n : Text} (hpart : ∃ u, Follows u ∧ part = name ++ u)
    (h : ∃ u, Follows u ∧ n = part ++ u) : ∃ u, Follows u ∧ n = name ++ u := by
  obtain ⟨u, hu, rfl⟩ := hpart
  obtain ⟨v, hv, rfl⟩ := h
  refine ⟨u ++ v, ?_, List.append_assoc _ _ _⟩
  cases u with
  | nil => exact hv
  | cons c u => simpa [Follows] using hu

/-- A step into a value: to the entry under a key of a table, or to the item at an index of a list. -/
inductive Branch where
  | key (k : Text)
  | index (i : Nat)
  deriving DecidableEq, Repr

namespace Branch

/-- The name of what stands at a branch of the value of a name. -/
def nameBelow (name : Text) : Branch → Text
  | key k => join name (quotedIfNeeded k)
  | index i => Value.itemName name i

theorem exists_follows {name : Text} (hname : name ≠ []) (b : Branch) :
    ∃ u, Follows u ∧ b.nameBelow name = name ++ u := by
  cases b with
  | key k => exact exists_join hname _
  | index i => exact ⟨_, follows_bracket _, Value.itemName_eq name i⟩

theorem nameBelow_ne_nil {name : Text} (hname : name ≠ []) (b : Branch) : b.nameBelow name ≠ [] := by
  obtain ⟨u, -, heq⟩ := b.exists_follows hname
  rw [heq]
  exact List.append_ne_nil_of_left_ne_nil hname u

end Branch

namespace Value

/-! ## Parts -/

/-- All values at a branch, each with its branch. -/
def parts : Value → List (Branch × Value)
  | table es => es.map fun e => (.key e.1, e.2)
  | list items => items.zipIdx.map fun x => (.index x.2, x.1)
  | _ => []

/-- A value that has a text of its own: a scalar, a null or an empty list. -/
def IsLeaf : Value → Prop
  | table _ => False
  | list items => items = []
  | _ => True

theorem not_isLeaf_table (es : List (Text × Value)) : ¬ (table es).IsLeaf := fun h => h

variable {v : Value}

theorem sizeOf_lt_of_mem_parts {x : Branch × Value} (h : x ∈ v.parts) : sizeOf x.2 < sizeOf v := by
  cases v with
  | table es =>
      obtain ⟨⟨key, w⟩, he, rfl⟩ := List.mem_map.mp h
      have hlt := List.sizeOf_lt_of_mem he
      simp only [Prod.mk.sizeOf_spec, table.sizeOf_spec] at hlt ⊢
      omega
  | list items =>
      obtain ⟨y, hy, rfl⟩ := List.mem_map.mp h
      have hlt := List.sizeOf_lt_of_mem (List.fst_mem_of_mem_zipIdx hy)
      simp only [list.sizeOf_spec]
      omega
  | _ => exact absurd h List.not_mem_nil

/-- What holds of the leaves, and of a value with parts once it holds of these, holds of every value. -/
@[elab_as_elim]
theorem induction_parts {motive : Value → Prop} (leaf : ∀ v : Value, v.IsLeaf → motive v)
    (node : ∀ v : Value, ¬ v.IsLeaf → (∀ x ∈ v.parts, motive x.2) → motive v) (v : Value) : motive v := by
  by_cases h : v.IsLeaf
  · exact leaf v h
  · exact node v h fun x hx => induction_parts leaf node x.2
termination_by sizeOf v
decreasing_by exact sizeOf_lt_of_mem_parts hx

theorem propertiesUnder_of_isLeaf (h : v.IsLeaf) (name : Text) : propertiesUnder name v = [(name, v.scalarText)] := by
  cases v with
  | table es => exact h.elim
  | list items =>
      obtain rfl : items = [] := h
      rfl
  | _ => rfl

/-- A value that is no leaf has the properties of its parts, each under the name of its branch. -/
theorem propertiesUnder_of_not_isLeaf (h : ¬ v.IsLeaf) (name : Text) :
    propertiesUnder name v = v.parts.flatMap fun x => propertiesUnder (x.1.nameBelow name) x.2 := by
  have hitems (items : List Value) (i : Nat) : itemProperties name i items =
      ((items.zipIdx i).map fun x => (Branch.index x.2, x.1)).flatMap fun x =>
        propertiesUnder (x.1.nameBelow name) x.2 := by
    induction items generalizing i with
    | nil => rfl
    | cons x items ih =>
        rw [itemProperties, ih, List.zipIdx_cons, List.map_cons, List.flatMap_cons]
        rfl
  cases v with
  | table es =>
      rw [propertiesUnder, parts]
      induction es with
      | nil => rfl
      | cons e es ih =>
          rw [entryProperties, ih fun hleaf => hleaf, List.map_cons, List.flatMap_cons]
          rfl
  | list items =>
      obtain ⟨x, items, rfl⟩ := List.exists_cons_of_ne_nil h
      exact hitems (x :: items) 0
  | _ => exact absurd trivial h

theorem mem_propertiesUnder_table {name : Text} {es : List (Text × Value)} {x : Text × Text} :
    x ∈ propertiesUnder name (table es) ↔ ∃ e ∈ es, x ∈ propertiesUnder (join name (quotedIfNeeded e.1)) e.2 := by
  rw [propertiesUnder_of_not_isLeaf (not_isLeaf_table es), parts, List.flatMap_map, List.mem_flatMap]
  rfl

theorem mem_propertiesUnder_list {name : Text} {items : List Value} (hne : items ≠ []) {x : Text × Text} :
    x ∈ propertiesUnder name (list items) ↔ ∃ i v, items[i]? = some v ∧ x ∈ propertiesUnder (itemName name i) v := by
  rw [propertiesUnder_of_not_isLeaf (v := list items) hne, parts, List.flatMap_map, List.mem_flatMap]
  simp only [Prod.exists, List.mem_zipIdx_iff_getElem?, Branch.nameBelow]
  exact exists_comm

/-- The properties of a value lie behind its name. -/
theorem exists_follows_of_mem_properties (v : Value) {name n w : Text} (hname : name ≠ [])
    (h : (n, w) ∈ propertiesUnder name v) : ∃ u, Follows u ∧ n = name ++ u := by
  induction v using induction_parts generalizing name with
  | leaf v hleaf =>
      rw [propertiesUnder_of_isLeaf hleaf, List.mem_singleton] at h
      exact ⟨[], follows_nil, by rw [(Prod.mk.inj h).1, List.append_nil]⟩
  | node v hnode ih =>
      rw [propertiesUnder_of_not_isLeaf hnode, List.mem_flatMap] at h
      obtain ⟨x, hx, hmem⟩ := h
      exact exists_follows_trans (x.1.exists_follows hname) (ih x hx (x.1.nameBelow_ne_nil hname) hmem)

/-- Whether a value has properties does not depend on its name. -/
theorem propertiesUnder_ne_nil_iff (v : Value) (name name' : Text) :
    propertiesUnder name v ≠ [] ↔ propertiesUnder name' v ≠ [] := by
  induction v using induction_parts generalizing name name' with
  | leaf v hleaf => simp [propertiesUnder_of_isLeaf hleaf]
  | node v hnode ih =>
      simp only [propertiesUnder_of_not_isLeaf hnode, ne_eq, List.flatMap_eq_nil_iff, not_forall]
      exact exists_congr fun x => exists_congr fun hx => ih x hx _ _

/-! ## Indexes -/

/-- The digits of an item can be read from what lies behind the name of its list. -/
theorem digits_of_itemName_append {name digits u v : Text} {i : Nat} (hnumeric : isNumeric digits = true)
    (h : name ++ '[' :: digits ++ ']' :: u = itemName name i ++ v) : digits = ofNat i ∧ u = v := by
  have hrest : digits ++ ']' :: u = ofNat i ++ ']' :: v := by simpa [itemName_eq] using h
  have hcut := cut_append (bracket_not_mem_of_isNumeric hnumeric) u
  rw [hrest, cut_append (bracket_not_mem_of_isNumeric (isNumeric_ofNat i)) v] at hcut
  obtain ⟨hdigits, hu⟩ := Prod.mk.inj (Option.some.inj hcut)
  exact ⟨hdigits.symm, hu.symm⟩

/-- So can its index. -/
theorem itemName_append_inj {name u v : Text} {i j : Nat} (h : itemName name i ++ u = itemName name j ++ v) :
    i = j ∧ u = v := by
  have hrest : name ++ '[' :: ofNat i ++ ']' :: u = itemName name j ++ v := by simpa [itemName_eq] using h
  obtain ⟨hdigits, hu⟩ := digits_of_itemName_append (isNumeric_ofNat i) hrest
  exact ⟨by rw [← digitsValue_ofNat i, hdigits, digitsValue_ofNat], hu⟩

end Value

end Document

/-! ## Keys -/

/-- A key that can be a segment of a name: it is not empty and holds no quote and no bracket. -/
def IsSpellable (key : Text) : Prop := key ≠ [] ∧ ∀ c ∈ key, c ≠ '"' ∧ c ≠ '[' ∧ c ≠ ']'

instance (key : Text) : Decidable (IsSpellable key) := inferInstanceAs (Decidable (_ ∧ _))

/-- A key that a name can spell: it is not empty and holds no quote, bracket and backslash. -/
def IsKey (key : Text) : Prop := key ≠ [] ∧ ∀ c ∈ key, c ≠ '"' ∧ c ≠ '[' ∧ c ≠ ']' ∧ c ≠ '\\'

instance (key : Text) : Decidable (IsKey key) := inferInstanceAs (Decidable (_ ∧ _))

theorem IsKey.isSpellable {key : Text} (h : IsKey key) : IsSpellable key :=
  ⟨h.1, fun c hc => ⟨(h.2 c hc).1, (h.2 c hc).2.1, (h.2 c hc).2.2.1⟩⟩

namespace IsSpellable

variable {key : Text}

theorem quote_not_mem (h : IsSpellable key) : '"' ∉ key := fun hm => (h.2 _ hm).1 rfl

theorem bracket_not_mem (h : IsSpellable key) : '[' ∉ key := fun hm => (h.2 _ hm).2.1 rfl

theorem head?_spelled (h : IsSpellable key) : (quotedIfNeeded key).head? ≠ some '[' := by
  by_cases hdot : '.' ∈ key
  · rw [quotedIfNeeded_of_mem_dot hdot h.quote_not_mem]
    simp
  · rw [quotedIfNeeded_of_not_mem_dot hdot]
    exact fun hhead => h.bracket_not_mem (List.mem_of_mem_head? hhead)

theorem spelled_ne_nil (h : IsSpellable key) : quotedIfNeeded key ≠ [] := by
  by_cases hdot : '.' ∈ key
  · rw [quotedIfNeeded_of_mem_dot hdot h.quote_not_mem]
    exact List.cons_ne_nil _ _
  · rw [quotedIfNeeded_of_not_mem_dot hdot]
    exact h.1

/-- A key that holds a dot is spelled with a quote in front, and no other key is. -/
theorem head?_spelled_eq_quote_iff (h : IsSpellable key) : (quotedIfNeeded key).head? = some '"' ↔ '.' ∈ key := by
  by_cases hdot : '.' ∈ key
  · rw [quotedIfNeeded_of_mem_dot hdot h.quote_not_mem]
    simp [hdot]
  · rw [quotedIfNeeded_of_not_mem_dot hdot]
    exact iff_of_false (fun hhead => h.quote_not_mem (List.mem_of_mem_head? hhead)) hdot

/-- A spelled key can be told from what follows it. -/
theorem spelled_append_inj {key' u u' : Text} (h : IsSpellable key) (h' : IsSpellable key') (hu : Follows u)
    (hu' : Follows u') (heq : quotedIfNeeded key ++ u = quotedIfNeeded key' ++ u') : key = key' ∧ u = u' := by
  have hhead : (quotedIfNeeded key).head? = (quotedIfNeeded key').head? := by
    have hheads := congrArg List.head? heq
    rwa [List.head?_append_of_ne_nil _ h.spelled_ne_nil, List.head?_append_of_ne_nil _ h'.spelled_ne_nil] at hheads
  have hdots : '.' ∈ key ↔ '.' ∈ key' := by
    rw [← h.head?_spelled_eq_quote_iff, ← h'.head?_spelled_eq_quote_iff, hhead]
  by_cases hdot : '.' ∈ key
  · -- both stand in quotes, and neither holds a quote itself
    rw [quotedIfNeeded_of_mem_dot hdot h.quote_not_mem, quotedIfNeeded_of_mem_dot (hdots.mp hdot) h'.quote_not_mem] at heq
    have hrest : key ++ '"' :: u = key' ++ '"' :: u' := by simpa using heq
    have hcut := cut_append h.quote_not_mem u
    rw [hrest, cut_append h'.quote_not_mem u'] at hcut
    obtain ⟨hkey, hu⟩ := Prod.mk.inj (Option.some.inj hcut)
    exact ⟨hkey.symm, hu.symm⟩
  · have hdot' : '.' ∉ key' := fun hm => hdot (hdots.mpr hm)
    rw [quotedIfNeeded_of_not_mem_dot hdot, quotedIfNeeded_of_not_mem_dot hdot'] at heq
    exact eq_of_append_follows (fun c hc => ⟨fun e => hdot (e ▸ hc), (h.2 c hc).2.1⟩)
      (fun c hc => ⟨fun e => hdot' (e ▸ hc), (h'.2 c hc).2.1⟩) hu hu' heq

end IsSpellable

/-- A spelled key is read back, with what follows it. -/
theorem keySegment_spelled {key u : Text} (h : IsKey key) (hu : Follows u) :
    keySegment (quotedIfNeeded key ++ u) = some (key, quotedIfNeeded key, u) := by
  have hquote : '"' ∉ key := h.isSpellable.quote_not_mem
  by_cases hdot : '.' ∈ key
  · have hread := keySegment_quoted hquote u
    rw [quotedIfNeeded_of_mem_dot hdot hquote]
    simpa using hread
  · rw [quotedIfNeeded_of_not_mem_dot hdot]
    refine keySegment_plain h.1 (fun c hc => ?_) hu
    obtain ⟨hquote, hopen, -, hslash⟩ := h.2 c hc
    exact ⟨fun e => hdot (e ▸ hc), hopen, hslash, hquote⟩

/-- What stands before the key in the name of a member. -/
def stem (parent : Text) : Text := if parent.isEmpty then [] else parent ++ ['.']

theorem join_eq {parent child : Text} (h : child.head? ≠ some '[') : join parent child = stem parent ++ child := by
  unfold join stem
  split
  · rfl
  · split
    · exact absurd rfl h
    · simp

theorem memberPath_eq {parent key : Text} (h : IsKey key) :
    memberPath parent key = stem parent ++ quotedIfNeeded key :=
  join_eq h.isSpellable.head?_spelled

theorem memberPath_of_ne_nil {parent key : Text} (hparent : parent ≠ []) (h : IsKey key) :
    memberPath parent key = parent ++ '.' :: quotedIfNeeded key := by
  rw [memberPath_eq h, stem, if_neg (by simpa using hparent), List.append_assoc, List.singleton_append]

theorem memberPath_ne_nil {parent key : Text} (h : IsKey key) : memberPath parent key ≠ [] := by
  rw [memberPath_eq h]
  exact List.append_ne_nil_of_right_ne_nil _ h.isSpellable.spelled_ne_nil

/-- The key of a member can be read from what lies behind its name. -/
theorem memberPath_append_inj {parent key key' u u' : Text} (hkey : IsKey key) (hkey' : IsKey key') (hu : Follows u)
    (hu' : Follows u') (h : memberPath parent key ++ u = memberPath parent key' ++ u') : key = key' ∧ u = u' := by
  rw [memberPath_eq hkey, memberPath_eq hkey', List.append_assoc, List.append_assoc, List.append_cancel_left_eq] at h
  exact hkey.isSpellable.spelled_append_inj hkey'.isSpellable hu hu' h

end LayeredConfig
