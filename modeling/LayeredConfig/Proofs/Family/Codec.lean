import LayeredConfig.Proofs.Family.Inline

/-!
# `LayeredConfig.Proofs.Family.Codec` — which lists and maps an inline value can hold

Writing a list or a map into one value and reading the value again loses what the notation has no spelling for: empty
items, entries without a key, and quotes around a key. Everything else comes back, and so does every entry once its key
is put in quotes.

## Contents
- **Lists.** `ne_nil_of_mem_splitList`, and `list_codec`.
- **Bare keys.** `IsBare` is a key that needs no quotes (`isBare_iff`).
- **Maps.** `writeQuotedMap` writes every key in quotes; `map_codec`.
-/

namespace LayeredConfig.Family

open Text Name

/-! ## Lists -/

/-- No item that is read is empty, whatever the value holds. -/
theorem ne_nil_of_mem_splitList {v t : Text} (h : t ∈ splitList v) : t ≠ [] := by
  obtain ⟨-, hne⟩ := List.mem_filter.mp h
  simpa [List.isEmpty_iff] using hne

/-- **A list without empty items is written inline without loss.** Exactly these lists are read back as they were
written; and as no value is read as any other list, what was read of a value can be written and read again. -/
theorem list_codec :
    (∀ items : List Text, splitList (writeList items) = items ↔ ∀ t ∈ items, t ≠ []) ∧
      ∀ v : Text, (∀ t ∈ splitList v, t ≠ []) ∧ splitList (writeList (splitList v)) = splitList v := by
  have hitems (items : List Text) (h : splitList (writeList items) = items) : ∀ t ∈ items, t ≠ [] := by
    intro t ht
    rw [← h] at ht
    exact ne_nil_of_mem_splitList ht
  refine ⟨fun items => ⟨hitems items, splitList_writeList⟩, fun v => ?_⟩
  have hread : ∀ t ∈ splitList v, t ≠ [] := fun t => ne_nil_of_mem_splitList
  exact ⟨hread, splitList_writeList hread⟩

/-- Backslashes and commas at the edges of items: the value is `\\,\,\\,,a\,`. -/
example : splitList (writeList ["\\".toList, ",\\".toList, [], "a,".toList]) = ["\\".toList, ",\\".toList, "a,".toList] := by
  decide +kernel

/-! ## Bare keys -/

/-- A key that can be written without quotes: it is not empty, and does not start and end with a quote unless it is a
single quote. -/
def IsBare (key : Text) : Prop := key ≠ [] ∧ (key = ['"'] ∨ ¬ (key.head? = some '"' ∧ key.getLast? = some '"'))

/-- These are the keys from which no quotes are removed. -/
theorem isBare_iff {key : Text} : IsBare key ↔ key ≠ [] ∧ unquoted key = key := by
  rw [unquoted_eq_self_iff, IsBare]
  refine and_congr_right fun hne => ?_
  match key with
  | [] => exact absurd rfl hne
  | [c] => simpa [isQuoted] using Classical.em (c = '"')
  | c :: d :: r => simp [isQuoted]

/-! ## Maps -/

/-- How the key and the value of an entry are written with quotes around the key. -/
def writeQuotedEntry (e : Text × Text) : Text :=
  '"' :: escape [';', '='] e.1 ++ ('"' :: '=' :: escape [';', '='] e.2)

/-- How a map is written inline with quotes around every key. -/
def writeQuotedMap (es : List (Text × Text)) : Text := joinWith ';' (es.map writeQuotedEntry)

/-- The quotes belong to the key that is written, as they are not escaped. -/
theorem writeQuotedEntry_eq (e : Text × Text) : writeQuotedEntry e = writeEntry ('"' :: e.1 ++ ['"'], e.2) := by
  simp [writeQuotedEntry, writeEntry, escape, List.flatMap_append]

theorem splitMap_writeQuotedMap (es : List (Text × Text)) : splitMap (writeQuotedMap es) = es := by
  have hwritten : writeQuotedMap es = writeMap (es.map fun e => ('"' :: e.1 ++ ['"'], e.2)) := by
    rw [writeQuotedMap, writeMap, List.map_map]
    exact congrArg (joinWith ';') (List.map_congr_left fun e _ => writeQuotedEntry_eq e)
  have hkeys : ∀ e ∈ es.map (fun e => ('"' :: e.1 ++ ['"'], e.2)), (!e.1.isEmpty) = true := by
    intro e he
    obtain ⟨entry, -, rfl⟩ := List.mem_map.mp he
    rfl
  rw [hwritten, splitMap_writeMap_eq_map, List.filter_eq_self.mpr hkeys, List.map_map]
  refine (List.map_congr_left fun e _ => ?_).trans (List.map_id es)
  exact congrArg (·, e.2) (unquoted_quote e.1)

/-- Nothing but bare keys can be written without quotes. -/
theorem isBare_of_splitMap_writeMap {es : List (Text × Text)} (h : splitMap (writeMap es) = es) : ∀ e ∈ es, IsBare e.1 := by
  rw [splitMap_writeMap_eq_map] at h
  -- as many entries come back as were written, so that none was left out
  have hlength := congrArg List.length h
  rw [List.length_map] at hlength
  have hkept := List.length_filter_eq_length_iff.mp hlength
  rw [List.filter_eq_self.mpr hkept] at h
  intro e he
  rw [isBare_iff]
  refine ⟨by simpa using hkept e he, ?_⟩
  have hself := List.map_eq_map_iff.mp (h.trans (List.map_id es).symm) e he
  exact congrArg Prod.fst hself

/-- **A map is written inline without loss.** With quotes around the keys, the entries of every list of pairs are read
back in their order, whatever the keys and the values hold and however often a key occurs. Without the quotes they are
exactly when all keys are bare. -/
theorem map_codec :
    (∀ es : List (Text × Text), splitMap (writeQuotedMap es) = es) ∧
      ∀ es : List (Text × Text), splitMap (writeMap es) = es ↔ ∀ e ∈ es, IsBare e.1 := by
  refine ⟨splitMap_writeQuotedMap, fun es => ⟨isBare_of_splitMap_writeMap, fun h => splitMap_writeMap fun e he => ?_⟩⟩
  obtain ⟨hne, hself⟩ := isBare_iff.mp (h e he)
  exact ⟨hne, unquoted_eq_self_iff.mp hself⟩

end LayeredConfig.Family
