import LayeredConfig.Proofs.Family.Precedence

/-!
# `LayeredConfig.Proofs.Family.Listing` — what is listed of a list or a map

The elements of a list and the members of a map are cut out of longer names: many names lie in one element or member, and
one index or key may be spelled in several ways. This file says which of the names counts, and that nothing is lost by the
cut: what is listed is read again as it stands.

## Contents
- **Elements.** `NamesElement` says which element a name lies in, `FirstSpelling` which spelling of it is listed;
  `elements_read_completely`.
- **Keys.** The text of a key is read as the same key where nothing follows it (`keySegment_written`).
- **Members.** A member that is read of a name is read of itself (`groupMember?_member`); `Relisted` is what this means
  for a listing, `members_relisted`.
-/

namespace LayeredConfig.Family

open Text

/-! ## Elements -/

/-- A name lies in the element `e` of a list, which has the index `i`: it is `root[digits]`, alone or continued by a dot
or a bracket, where the digits denote the index. -/
def NamesElement (root : Text) (i : Nat) (e name : Text) : Prop :=
  ∃ digits u, name = root ++ '[' :: digits ++ ']' :: u ∧ isNumeric digits = true ∧ i = digitsValue digits ∧
    i ≤ maxIndex ∧ Follows u ∧ e = root ++ '[' :: digits ++ [']']

/-- The first name that lies in the element of an index spells this element as `e`. -/
def FirstSpelling (root : Text) (names : List Text) (i : Nat) (e : Text) : Prop :=
  ∃ before name after, names = before ++ name :: after ∧ NamesElement root i e name ∧
    ∀ n ∈ before, ¬ ∃ e', NamesElement root i e' n

instance (root name : Text) : Decidable (IsElement root name) := decidable_of_iff _ (isSome_element?_iff root name)

variable {root : Text} {names : List Text}

/-- A name is read as the element that it lies in. -/
theorem element?_iff_namesElement {i : Nat} {e name : Text} : element? root name = some (i, e) ↔ NamesElement root i e name :=
  element?_eq_some_iff

/-- An element lies in itself. -/
theorem NamesElement.self {i : Nat} {e name : Text} (h : NamesElement root i e name) : NamesElement root i e e := by
  obtain ⟨digits, u, -, hnumeric, hi, hle, -, rfl⟩ := h
  exact ⟨digits, [], rfl, hnumeric, hi, hle, follows_nil, rfl⟩

/-- The entry of an index is what the first name of its element spells. -/
theorem firstSpelling_of_get? {i : Nat} {e : Text} (h : (elementsByIndex root names).get? i = some e) :
    FirstSpelling root names i e := by
  rw [elementsByIndex, Dict.get?_ofPairsFirst, List.find?_filterMap, Option.map_eq_some_iff] at h
  obtain ⟨⟨j, e'⟩, hfound, rfl⟩ := h
  obtain ⟨name, hname, hread⟩ := Option.bind_eq_some_iff.mp hfound
  obtain ⟨hindex, before, after, hnames, hbefore⟩ := List.find?_eq_some_iff_append.mp hname
  have hj : j = i := by simpa [hread] using hindex
  refine ⟨before, name, after, hnames, hj ▸ element?_iff_namesElement.mp hread, ?_⟩
  rintro n hn ⟨e'', he''⟩
  have hskipped := hbefore n hn
  rw [element?_iff_namesElement.mpr he''] at hskipped
  simp at hskipped

theorem mem_keys_elementsByIndex {i : Nat} :
    i ∈ (elementsByIndex root names).keys ↔ ∃ name ∈ names, ∃ e, NamesElement root i e name := by
  simp only [elementsByIndex, Dict.mem_keys_ofPairsFirst, element?_iff_namesElement]

theorem elements_elements (root : Text) (names : List Text) : elements root (elements root names) = elements root names := by
  have hagain : elementsByIndex root (elements root names) = elementsByIndex root names := by
    refine Dict.ofPairsFirst_values fun entry hentry => ?_
    obtain ⟨-, name, -, -, hname, -⟩ := firstSpelling_of_get? ((Dict.get?_eq_some_iff _).mpr hentry)
    exact element?_iff_namesElement.mpr hname.self
  rw [elements, hagain, elements]

theorem elements_filter (root : Text) (names : List Text) :
    elements root (names.filter fun n => decide (IsElement root n)) = elements root names := by
  have hread (n : Text) : (if decide (IsElement root n) = true then element? root n else none) = element? root n := by
    by_cases h : IsElement root n
    · rw [if_pos (decide_eq_true h)]
    · rw [if_neg (by simpa using h)]
      rw [← isSome_element?_iff, Option.not_isSome_iff_eq_none] at h
      exact h.symm
  rw [elements, elementsByIndex, List.filterMap_filter, List.filterMap_congr fun n _ => hread n]
  rfl

/-- **The elements of a list are read completely, by their indexes.** One element is listed for every index that some name
has behind the root, in the order of the indexes and as the first name of this index spells it. Names that lie in no element
contribute nothing, and the elements of the elements are the same. -/
theorem elements_read_completely (root : Text) (names : List Text) :
    (∃ indexes : List Nat, indexes.Pairwise (· < ·) ∧
      (∀ i, i ∈ indexes ↔ ∃ name ∈ names, ∃ e, NamesElement root i e name) ∧
      List.Forall₂ (FirstSpelling root names) indexes (elements root names)) ∧
    elements root (elements root names) = elements root names ∧
    elements root (names.filter fun n => decide (IsElement root n)) = elements root names := by
  have hascending : (elementsByIndex root names).keys.Pairwise (· < ·) :=
    List.pairwise_map.mpr (elementsByIndex root names).ascending
  have hspelled : List.Forall₂ (FirstSpelling root names) (elementsByIndex root names).keys (elements root names) := by
    rw [Dict.keys, elements, List.forall₂_map_left_iff, List.forall₂_map_right_iff, List.forall₂_same]
    exact fun entry hentry => firstSpelling_of_get? ((Dict.get?_eq_some_iff _).mpr hentry)
  exact ⟨⟨_, hascending, fun i => mem_keys_elementsByIndex, hspelled⟩, elements_elements root names,
    elements_filter root names⟩

/-- Two spellings of one index, an index that is too great, and a sign. -/
example :
    elements "l".toList ["l[07].x".toList, "l[18446744073709551616]".toList, "l[7]".toList, "l[+1]".toList,
      "l[2][0]".toList, "l[3]x".toList] = ["l[2]".toList, "l[07]".toList] := by decide

/-! ## Keys -/

/-- The text of a plain key is read as the same key where nothing follows it. -/
theorem plainKey_written (t : Text) : plainKey (plainKey t).2.1 = ((plainKey t).1, (plainKey t).2.1, []) := by
  fun_induction plainKey t with
  | case1 => rfl
  | case2 r key written rest hread ih =>
      rw [hread] at ih
      rw [plainKey, ih]
  | case3 => rfl
  | case4 c r hslash hc key written rest hread ih =>
      rw [hread] at ih
      have hwritten : Unquoted written := by
        have hunquoted := (unquoted_of_plainKey r).2.1
        rwa [hread] at hunquoted
      dsimp only
      rw [plainKey, if_neg hc, ih]
      -- what is left of the text starts with no dot of its own, so that a backslash in front of it escapes nothing
      intro r' _ hdot
      exact hwritten.append_ne_dot (Or.inl rfl) ((List.append_nil written).trans hdot)

/-- The text of a key is read as the same key where nothing follows it. -/
theorem keySegment_written {t key written rest : Text} (h : keySegment t = some (key, written, rest)) :
    keySegment written = some (key, written, []) := by
  have hsplit := (spellsKey_of_keySegment h).1
  unfold keySegment at h
  split at h
  · next r =>
      obtain ⟨⟨inner, behind⟩, hcut, heq⟩ := Option.map_eq_some_iff.mp h
      cases heq
      exact keySegment_quoted (not_mem_of_cut hcut) []
  · next hquote =>
      have hagain := plainKey_written t
      split at h
      · cases h
      · next found hne =>
          rw [Option.some.injEq] at h
          rw [h] at hagain hne
          unfold keySegment
          split
          · next r => exact absurd hsplit (hquote _)
          · rw [hagain]
            cases key with
            | nil => exact absurd rfl (hne written rest)
            | cons c key => rfl

/-! ## Members -/

/-- A member that is read of a name stands at the beginning of the name, and is read of itself with the same key, at any
depth and as a value. -/
theorem groupMember?_member {root name key member : Text} (h : groupMember? root name = some (key, member)) :
    member <+: name ∧ groupMember? root member = some (key, member) ∧
      keyedMember? root member = some (key, member) := by
  obtain ⟨rest, hrest, h⟩ := Option.bind_eq_some_iff.mp h
  obtain ⟨⟨key, written, tail⟩, hkey, heq⟩ := Option.map_eq_some_iff.mp h
  cases heq
  obtain ⟨rfl, -⟩ := spellsKey_of_keySegment hkey
  obtain rfl := below?_eq_some_iff_memberName.mp hrest
  have hbelow : below? root (memberName root written) = some written := below?_eq_some_iff_memberName.mpr rfl
  refine ⟨⟨tail, (memberName_append root written tail).symm⟩, ?_, ?_⟩
  · rw [groupMember?, hbelow, Option.bind_some, keySegment_written hkey]
    rfl
  · rw [keyedMember?, hbelow, Option.bind_some, keySegment_written hkey]
    rfl

/-- Members that are listed of names: in the order of their keys, each at the beginning of one of the names, and listed
again as they stand when they are given for names themselves. -/
structure Relisted (root : Text) (names : List Text) (members : List (Text × Text)) : Prop where
  ascending : (members.map Prod.fst).Pairwise (· < ·)
  begins : ∀ p ∈ members, ∃ name ∈ names, p.2 <+: name
  groupKeys_eq : groupKeys root (members.map Prod.snd) = members
  keyedMembers_eq : keyedMembers root (members.map Prod.snd) = members

/-- It is enough that every listed member was read of some name. -/
theorem relisted_of_read {d : Dict Text Text}
    (h : ∀ e ∈ d.entries, ∃ name ∈ names, groupMember? root name = some e) : Relisted root names d.entries := by
  refine ⟨List.pairwise_map.mpr d.ascending, fun e he => ?_, ?_, ?_⟩
  · obtain ⟨name, hname, hread⟩ := h e he
    exact ⟨name, hname, (groupMember?_member hread).1⟩
  · refine congrArg Dict.entries (Dict.ofPairsFirst_values fun e he => ?_)
    obtain ⟨name, -, hread⟩ := h e he
    exact (groupMember?_member hread).2.1
  · refine congrArg Dict.entries (Dict.ofPairsFirst_values fun e he => ?_)
    obtain ⟨name, -, hread⟩ := h e he
    exact (groupMember?_member hread).2.2

/-- Members that are values or lists are listed where some name belongs to the family. -/
theorem keyedMembers_eq_nil_iff : keyedMembers root names = [] ↔ ∀ name ∈ names, ¬ IsMember root name := by
  simp only [← isSome_keyedMember?_iff]
  constructor
  · intro hnil name hname hmember
    obtain ⟨p, hp⟩ := Option.isSome_iff_exists.mp hmember
    have hkey : p.1 ∈ (keyedMembers root names).map Prod.fst := Dict.mem_keys_ofPairsFirst.mpr ⟨name, hname, p.2, hp⟩
    rw [hnil] at hkey
    exact absurd hkey List.not_mem_nil
  · intro hnone
    refine List.eq_nil_iff_forall_not_mem.mpr fun e he => ?_
    obtain ⟨name, hname, hread⟩ := Dict.exists_of_mem_ofPairsFirst he
    exact hnone name hname (Option.isSome_iff_exists.mpr ⟨e, hread⟩)

/-- **Listed members are listed again as they stand.** The members of a map, those at any depth as well as those that are
values or lists, have ascending keys and stand at the beginnings of names. Given for names, they are listed with the same
keys in both ways. The members that are values or lists are among those at any depth by their keys, and there are some
wherever a name belongs to the map in this way. -/
theorem members_relisted (root : Text) (names : List Text) :
    Relisted root names (groupKeys root names) ∧ Relisted root names (keyedMembers root names) ∧
      (∀ key ∈ (keyedMembers root names).map Prod.fst, key ∈ (groupKeys root names).map Prod.fst) ∧
      (keyedMembers root names = [] ↔ ∀ name ∈ names, ¬ IsMember root name) := by
  refine ⟨relisted_of_read fun e he => mem_groupKeys he, relisted_of_read fun e he => mem_keyedMembers he, ?_,
    keyedMembers_eq_nil_iff⟩
  intro key hkey
  obtain ⟨name, hname, member, hread⟩ := Dict.mem_keys_ofPairsFirst.mp hkey
  exact Dict.mem_keys_ofPairsFirst.mpr ⟨name, hname, member, groupMember?_of_keyedMember? hread⟩

/-- One key in three spellings, a key that holds a quote, and an empty one. -/
example :
    let names := ["m.a\\.b[0]".toList, "m.\"a.b\".x".toList, "m.a\\.b".toList, "m.c\"[1].d".toList, "m.\"\"".toList]
    groupKeys "m".toList names =
      [([], "m.\"\"".toList), ("a.b".toList, "m.a\\.b".toList), ("c\"".toList, "m.c\"".toList)] := by decide

end LayeredConfig.Family
