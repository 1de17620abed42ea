import LayeredConfig.Dict
import Mathlib.Data.List.Sort

/-!
# `LayeredConfig.Proofs.Dict` — dictionaries by what they hold

A dictionary is known by its values under all keys, and a dictionary made of pairs that give every key one value holds
exactly these pairs, whichever of two pairs under one key is kept.

## Contents
- **Entries.** `get?_eq_some_iff`, `mem_keys_iff`, `mem_keySet_iff`; ascending lists with the same members are equal
  (`entries_eq_of_mem_iff`), and so are dictionaries with the same values (`eq_of_get?_eq`).
- **Pairs.** `MadeOf` says what a dictionary made of pairs holds in any case, `MadeOf.get?_iff` that it holds them all
  when they are `Functional`; the last pair of a key (`get?_ofPairs`) or the first one (`get?_ofPairsFirst`) is held, and
  entries make up their dictionary again (`ofPairs_entries`, `ofPairsFirst_entries`).
- **Readings.** What is listed of the readings of a list: `exists_of_mem_ofPairsFirst`, `mem_keys_ofPairsFirst`; values
  that are read as their entries are listed again as they stand (`ofPairsFirst_values`).
- **Sets of names.** `NameSet.eq_of_mem_iff`.
-/

namespace LayeredConfig

variable {κ α : Type} [LT κ] [DecidableLT κ] [DecidableEq κ] [KeyOrder κ]

/-! ## Entries -/

omit [LT κ] [DecidableLT κ] [KeyOrder κ] in
/-- In a list that holds no key twice every entry is the one found under its key. -/
theorem lookupKey_eq_some_iff_of_nodup {l : List (κ × α)} (h : (l.map Prod.fst).Nodup) {k : κ} {v : α} :
    lookupKey k l = some v ↔ (k, v) ∈ l := by
  refine ⟨mem_of_lookupKey, fun hm => ?_⟩
  induction l with
  | nil => exact absurd hm List.not_mem_nil
  | cons e r ih =>
      obtain ⟨hfresh, hr⟩ := List.nodup_cons.mp h
      rcases List.mem_cons.mp hm with rfl | hm
      · rw [lookupKey, if_pos rfl]
      · have hne : k ≠ e.1 := by
          rintro rfl
          exact hfresh (List.mem_map.mpr ⟨(e.1, v), hm, rfl⟩)
        rw [lookupKey, if_neg hne]
        exact ih hr hm

omit [DecidableLT κ] [DecidableEq κ] in
/-- An ascending list holds no key twice. -/
theorem nodup_of_ascending {l : List (κ × α)} (h : l.Pairwise fun a b => a.1 < b.1) : (l.map Prod.fst).Nodup := by
  rw [List.Nodup, List.pairwise_map]
  refine h.imp ?_
  intro a b hlt heq
  exact KeyOrder.irrefl a.1 (heq ▸ hlt)

omit [DecidableLT κ] in
theorem lookupKey_eq_some_iff {l : List (κ × α)} (h : l.Pairwise fun a b => a.1 < b.1) {k : κ} {v : α} :
    lookupKey k l = some v ↔ (k, v) ∈ l :=
  lookupKey_eq_some_iff_of_nodup (nodup_of_ascending h)

namespace Dict

omit [DecidableLT κ] in
theorem get?_eq_some_iff (d : Dict κ α) {k : κ} {v : α} : d.get? k = some v ↔ (k, v) ∈ d.entries :=
  lookupKey_eq_some_iff d.ascending

omit [DecidableLT κ] in
theorem mem_keys_iff (d : Dict κ α) {k : κ} : k ∈ d.keys ↔ ∃ v, d.get? k = some v := by
  simp only [keys, List.mem_map, get?_eq_some_iff, Prod.exists, exists_and_right, exists_eq_right]

theorem mem_keySet_iff (d : Dict Text α) {n : Text} : n ∈ d.keySet ↔ ∃ v, d.get? n = some v :=
  d.mem_keys_iff

omit [DecidableLT κ] [DecidableEq κ] in
/-- Ascending lists with the same members are equal. -/
theorem entries_eq_of_mem_iff (d : Dict κ α) {l : List (κ × α)} (hl : l.Pairwise fun a b => a.1 < b.1)
    (h : ∀ e, e ∈ d.entries ↔ e ∈ l) : d.entries = l := by
  have hirrefl : Std.Irrefl fun a b : κ × α => a.1 < b.1 := ⟨fun a => KeyOrder.irrefl a.1⟩
  have hanti : Std.Antisymm fun a b : κ × α => a.1 < b.1 :=
    ⟨fun a b hab hba => absurd (KeyOrder.trans hab hba) (KeyOrder.irrefl a.1)⟩
  exact List.Pairwise.eq_of_mem_iff d.ascending hl h

omit [DecidableLT κ] in
/-- A dictionary is known by its values. -/
theorem eq_of_get?_eq {d d' : Dict κ α} (h : ∀ k, d.get? k = d'.get? k) : d = d' := by
  have hentries : d.entries = d'.entries := by
    refine entries_eq_of_mem_iff d d'.ascending fun e => ?_
    rw [← get?_eq_some_iff, ← get?_eq_some_iff, h]
  cases d
  cases d'
  cases hentries
  rfl

omit [DecidableLT κ] [DecidableEq κ] in
/-- No key stands in a dictionary twice. -/
theorem nodup_keys (d : Dict κ α) : d.keys.Nodup := nodup_of_ascending d.ascending

/-! ## Pairs -/

omit [LT κ] [DecidableLT κ] [KeyOrder κ] in
/-- Of the values put at one place the last one stays. -/
theorem foldl_put (k : κ) (ps : List (κ × α)) (o : Option α) :
    ps.foldl (fun o p => if k = p.1 then some p.2 else o) o =
      ((ps.filter fun p => p.1 = k).getLast?.map Prod.snd).or o := by
  induction ps generalizing o with
  | nil => rfl
  | cons p ps ih =>
      rw [List.foldl_cons, ih]
      by_cases hk : k = p.1
      · rw [if_pos hk, List.filter_cons_of_pos (by simpa using hk.symm), List.getLast?_cons]
        cases (ps.filter fun p => p.1 = k).getLast? with
        | none => rfl
        | some d => rfl
      · rw [if_neg hk, List.filter_cons_of_neg (by simpa using Ne.symm hk)]

theorem get?_foldl_insert (d : Dict κ α) (ps : List (κ × α)) (k : κ) :
    (ps.foldl (fun d p => d.insert p.1 p.2) d).get? k =
      ps.foldl (fun o p => if k = p.1 then some p.2 else o) (d.get? k) := by
  induction ps generalizing d with
  | nil => rfl
  | cons p ps ih => rw [List.foldl_cons, List.foldl_cons, ih, get?_insert]

/-- A dictionary of pairs holds the last one of every key. -/
theorem get?_ofPairs (ps : List (κ × α)) (k : κ) :
    (ofPairs ps).get? k = (ps.filter fun p => p.1 = k).getLast?.map Prod.snd := by
  rw [ofPairs, get?_foldl_insert, foldl_put, get?_empty, Option.or_none]

theorem get?_insertNew (d : Dict κ α) (k j : κ) (v : α) :
    (d.insertNew k v).get? j = (d.get? j).or (if j = k then some v else none) := by
  unfold insertNew
  split
  · next w hw =>
      by_cases hj : j = k
      · rw [hj, hw, Option.some_or]
      · rw [if_neg hj, Option.or_none]
  · next hnone =>
      rw [get?_insert]
      by_cases hj : j = k
      · rw [hj, hnone, if_pos rfl, Option.none_or]
      · rw [if_neg hj, if_neg hj, Option.or_none]

/-- A dictionary that holds no pair but those of a list, and a value under each of their keys. -/
structure MadeOf (d : Dict κ α) (ps : List (κ × α)) : Prop where
  mem {k : κ} {v : α} : d.get? k = some v → (k, v) ∈ ps
  isSome {k : κ} {v : α} : (k, v) ∈ ps → (d.get? k).isSome = true

omit [DecidableLT κ] [KeyOrder κ] in
theorem madeOf_empty : (empty : Dict κ α).MadeOf [] :=
  ⟨fun h => by simp at h, fun h => by simp at h⟩

/-- One more pair, put over what stands under its key. -/
theorem MadeOf.insert {d : Dict κ α} {ps : List (κ × α)} (h : d.MadeOf ps) (p : κ × α) :
    (d.insert p.1 p.2).MadeOf (ps ++ [p]) where
  mem {k v} hv := by
    rw [get?_insert] at hv
    split at hv
    · next hk => simp [hk, ← Option.some.inj hv]
    · exact List.mem_append_left _ (h.mem hv)
  isSome {k v} hm := by
    rw [get?_insert]
    split
    · rfl
    · next hk =>
        rcases List.mem_append.mp hm with hm | hm
        · exact h.isSome hm
        · exact absurd (congrArg Prod.fst (List.mem_singleton.mp hm)) hk

/-- One more pair, put where nothing stands under its key. -/
theorem MadeOf.insertNew {d : Dict κ α} {ps : List (κ × α)} (h : d.MadeOf ps) (p : κ × α) :
    (d.insertNew p.1 p.2).MadeOf (ps ++ [p]) where
  mem {k v} hv := by
    rw [get?_insertNew, Option.or_eq_some_iff] at hv
    rcases hv with hv | ⟨-, hv⟩
    · exact List.mem_append_left _ (h.mem hv)
    · split at hv
      · next hk => simp [hk, ← Option.some.inj hv]
      · simp at hv
  isSome {k v} hm := by
    rw [get?_insertNew, Option.isSome_or, Bool.or_eq_true]
    rcases List.mem_append.mp hm with hm | hm
    · exact Or.inl (h.isSome hm)
    · right
      rw [if_pos (congrArg Prod.fst (List.mem_singleton.mp hm))]
      rfl

omit [DecidableLT κ] [KeyOrder κ] in
/-- Pairs put one after another. -/
theorem MadeOf.foldl {put : Dict κ α → κ × α → Dict κ α}
    (hput : ∀ {d : Dict κ α} {qs : List (κ × α)}, d.MadeOf qs → ∀ p, (put d p).MadeOf (qs ++ [p]))
    {d : Dict κ α} {qs : List (κ × α)} (h : d.MadeOf qs) (ps : List (κ × α)) :
    (ps.foldl put d).MadeOf (qs ++ ps) := by
  induction ps generalizing d qs with
  | nil => simpa using h
  | cons p ps ih => simpa using ih (hput h p)

theorem madeOf_ofPairs (ps : List (κ × α)) : (ofPairs ps).MadeOf ps :=
  madeOf_empty.foldl MadeOf.insert ps

theorem madeOf_ofPairsFirst (ps : List (κ × α)) : (ofPairsFirst ps).MadeOf ps :=
  madeOf_empty.foldl MadeOf.insertNew ps

/-- Pairs that give every key at most one value. -/
def Functional (ps : List (κ × α)) : Prop := ∀ k v w, (k, v) ∈ ps → (k, w) ∈ ps → v = w

omit [DecidableLT κ] [KeyOrder κ] in
/-- Where every key has one value, it does not matter which of its pairs is kept. -/
theorem MadeOf.get?_iff {d : Dict κ α} {ps : List (κ × α)} (h : d.MadeOf ps) (hps : Functional ps) {k : κ} {v : α} :
    d.get? k = some v ↔ (k, v) ∈ ps := by
  refine ⟨h.mem, fun hm => ?_⟩
  obtain ⟨w, hw⟩ := Option.isSome_iff_exists.mp (h.isSome hm)
  rw [hw, hps k w v (h.mem hw) hm]

omit [LT κ] [DecidableLT κ] [DecidableEq κ] [KeyOrder κ] in
/-- Pairs under different keys give every key one value. -/
theorem functional_of_nodup {ps : List (κ × α)} (h : (ps.map Prod.fst).Nodup) : Functional ps := by
  intro k v w hv hw
  exact congrArg Prod.snd (List.inj_on_of_nodup_map h hv hw rfl)

omit [DecidableLT κ] in
theorem functional_entries (d : Dict κ α) : Functional d.entries := by
  intro k v w hv hw
  rw [← get?_eq_some_iff] at hv hw
  exact Option.some.inj (hv.symm.trans hw)

/-- A dictionary made of pairs under different keys holds these pairs and no others. -/
theorem entries_ofPairs_perm {ps : List (κ × α)} (h : (ps.map Prod.fst).Nodup) : (ofPairs ps).entries.Perm ps := by
  rw [List.perm_ext_iff_of_nodup (List.Nodup.of_map _ (ofPairs ps).nodup_keys) (List.Nodup.of_map _ h)]
  intro e
  rw [← get?_eq_some_iff, (madeOf_ofPairs ps).get?_iff (functional_of_nodup h)]

/-- It does not matter in which order such pairs are put. -/
theorem ofPairs_eq_of_perm {ps qs : List (κ × α)} (h : (ps.map Prod.fst).Nodup) (hperm : qs.Perm ps) :
    ofPairs qs = ofPairs ps := by
  have hqs : (qs.map Prod.fst).Nodup := (hperm.map Prod.fst).nodup_iff.mpr h
  refine eq_of_get?_eq fun k => Option.ext fun v => ?_
  rw [(madeOf_ofPairs qs).get?_iff (functional_of_nodup hqs), (madeOf_ofPairs ps).get?_iff (functional_of_nodup h),
    hperm.mem_iff]

omit [DecidableLT κ] in
/-- A dictionary made of the entries of another one is this one. -/
theorem MadeOf.eq_of_entries {d d' : Dict κ α} (h : d'.MadeOf d.entries) : d' = d := by
  refine eq_of_get?_eq fun k => Option.ext fun v => ?_
  rw [h.get?_iff d.functional_entries, get?_eq_some_iff]

theorem ofPairs_entries (d : Dict κ α) : ofPairs d.entries = d := (madeOf_ofPairs d.entries).eq_of_entries

theorem ofPairsFirst_entries (d : Dict κ α) : ofPairsFirst d.entries = d := (madeOf_ofPairsFirst d.entries).eq_of_entries

theorem get?_foldl_insertNew (d : Dict κ α) (ps : List (κ × α)) (k : κ) :
    (ps.foldl (fun d p => d.insertNew p.1 p.2) d).get? k =
      (d.get? k).or ((ps.find? fun p => decide (p.1 = k)).map Prod.snd) := by
  induction ps generalizing d with
  | nil => rw [List.foldl_nil, List.find?_nil, Option.map_none, Option.or_none]
  | cons p ps ih =>
      rw [List.foldl_cons, ih, get?_insertNew, Option.or_assoc]
      by_cases hk : p.1 = k
      · rw [if_pos hk.symm, List.find?_cons_of_pos (by simpa using hk)]
        rfl
      · rw [if_neg (Ne.symm hk), List.find?_cons_of_neg (by simpa using hk), Option.none_or]

/-- Where the first pair of a key stays, a dictionary of pairs holds the first one of every key. -/
theorem get?_ofPairsFirst (ps : List (κ × α)) (k : κ) :
    (ofPairsFirst ps).get? k = (ps.find? fun p => decide (p.1 = k)).map Prod.snd := by
  rw [ofPairsFirst, get?_foldl_insertNew, get?_empty, Option.none_or]

section Readings

variable {ν : Type} {read : ν → Option (κ × α)} {l : List ν}

/-- What is listed of readings was read. -/
theorem exists_of_mem_ofPairsFirst {e : κ × α} (h : e ∈ (ofPairsFirst (l.filterMap read)).entries) :
    ∃ x ∈ l, read x = some e :=
  List.mem_filterMap.mp ((madeOf_ofPairsFirst _).mem ((get?_eq_some_iff _).mpr h))

/-- The keys that are listed are those that were read. -/
theorem mem_keys_ofPairsFirst {k : κ} : k ∈ (ofPairsFirst (l.filterMap read)).keys ↔ ∃ x ∈ l, ∃ v, read x = some (k, v) := by
  constructor
  · intro h
    obtain ⟨e, he, rfl⟩ := List.mem_map.mp h
    obtain ⟨x, hx, hread⟩ := exists_of_mem_ofPairsFirst he
    exact ⟨x, hx, e.2, hread⟩
  · rintro ⟨x, hx, v, hread⟩
    have hsome := (madeOf_ofPairsFirst _).isSome (List.mem_filterMap.mpr ⟨x, hx, hread⟩)
    exact (mem_keys_iff _).mpr (Option.isSome_iff_exists.mp hsome)

/-- Where every value of a dictionary is read as its entry, the values are listed as this dictionary. -/
theorem ofPairsFirst_values {d : Dict κ α} {read : α → Option (κ × α)} (h : ∀ e ∈ d.entries, read e.2 = some e) :
    ofPairsFirst ((d.entries.map Prod.snd).filterMap read) = d := by
  have hread : d.entries.filterMap (read ∘ Prod.snd) = d.entries.filterMap some := List.filterMap_congr h
  rw [List.filterMap_map, hread, List.filterMap_some, ofPairsFirst_entries]

end Readings

end Dict

/-! ## Sets of names -/

namespace NameSet

instance (n : Text) (s : NameSet) : Decidable (n ∈ s) :=
  decidable_of_iff (∃ m ∈ s.toList, m = n) ⟨fun ⟨_, hm, he⟩ => he ▸ hm, fun hm => ⟨n, hm, rfl⟩⟩

theorem eq_of_toList_eq {s t : NameSet} (h : s.toList = t.toList) : s = t := by
  cases s
  cases t
  cases h
  rfl

/-- A set of names is known by its members. -/
theorem eq_of_mem_iff {s t : NameSet} (h : ∀ n, n ∈ s ↔ n ∈ t) : s = t := by
  have hirrefl : Std.Irrefl fun a b : Text => a < b := ⟨KeyOrder.irrefl⟩
  have hanti : Std.Antisymm fun a b : Text => a < b :=
    ⟨fun a b hab hba => absurd (KeyOrder.trans hab hba) (KeyOrder.irrefl a)⟩
  exact eq_of_toList_eq (List.Pairwise.eq_of_mem_iff s.ascending t.ascending h)

end NameSet

end LayeredConfig
