import LayeredConfig.Proofs.Dict
import LayeredConfig.Proofs.Environment.Spelling
import LayeredConfig.Source

/-!
# `LayeredConfig.Proofs.Environment.Reporting` — reported names lead back to their variable

An environment reports up to three names for a key: the key, its dotted form and its declared spelling. Each of them
spells the key, and a name that spells a conventional key resolves to that key and to no other.

## Contents
- **Looking up.** `keyFor?_of_capitalKey` for conventional keys, `lookup_insert_of_dot` for a key that no other name
  spells.
- **Reporting.** The names that are reported for a key spell it (`capitalKey_of_mem_namesOfKey`), so that every reported
  name resolves to the variable it is reported for (`reported_names_resolve`).
-/

namespace LayeredConfig

open Text Environment

/-! ## Looking up -/

namespace Environment

/-- Among variables with conventional keys, a name resolves to the variable whose key it spells. -/
theorem keyFor?_of_capitalKey {vars : Variables} (hkeys : ∀ k ∈ vars.keys, Conventional k) {name : Text}
    (h : capitalKey name ∈ vars.keys) : keyFor? vars name = some (capitalKey name) := by
  have hheld {t : Text} : (vars.get? t).isSome = true ↔ t ∈ vars.keys := by
    rw [Dict.mem_keys_iff, Option.isSome_iff_exists]
  -- no letter of a variable's key is raised, so that the three attempts find the same key or none
  have hfix {t : Text} (ht : t ∈ vars.keys) : capitalKey t = t := capitalKey_of_key (hkeys t ht).1
  rw [keyFor?, List.find?_cons, List.find?_cons, List.find?_cons]
  split
  · next hname => rw [hfix (hheld.mp hname)]
  · split
    · next hkey =>
        have hraised := hfix (hheld.mp hkey)
        rw [capitalKey_keyOf] at hraised
        rw [hraised]
    · rw [← capitalKey, hheld.mpr h]

/-- A variable whose key holds a dot is found under its own name alone. -/
theorem lookup_insert_of_dot (vars : Variables) {key value name : Text} (hdot : '.' ∈ key) (hname : name ≠ key) :
    lookup (vars.insert key value) name = lookup vars name := by
  have hspelled (c : Char) : keyChar c ≠ '.' ∧ (keyChar c).toUpper ≠ '.' := by
    have hc := isKeyChar_toUpper_keyChar c
    refine ⟨fun h => ?_, fun h => ?_⟩
    · rw [h] at hc
      exact absurd hc (by decide)
    · rw [h] at hc
      exact absurd hc (by decide)
  have hkeyOf : keyOf name ≠ key := by
    rintro rfl
    obtain ⟨c, -, hc⟩ := List.mem_map.mp hdot
    exact (hspelled c).1 hc
  have hcapital : asciiUpper (keyOf name) ≠ key := by
    rintro rfl
    rw [keyOf, asciiUpper, List.map_map] at hdot
    obtain ⟨c, -, hc⟩ := List.mem_map.mp hdot
    exact (hspelled c).2 hc
  have hsame {k : Text} (hk : k ≠ key) : (vars.insert key value).get? k = vars.get? k := by
    rw [Dict.get?_insert, if_neg hk]
  have hkeyFor : keyFor? (vars.insert key value) name = keyFor? vars name := by
    rw [keyFor?, keyFor?]
    simp only [List.find?_cons, List.find?_nil, hsame hname, hsame hkeyOf, hsame hcapital]
  rw [lookup, lookup, hkeyFor]
  cases hk : keyFor? vars name with
  | none => rfl
  | some k =>
      have hmem : k ∈ [name, keyOf name, asciiUpper (keyOf name)] := List.mem_of_find?_eq_some hk
      rw [Option.bind_some, Option.bind_some, hsame]
      simp only [List.mem_cons, List.not_mem_nil, or_false] at hmem
      rcases hmem with rfl | rfl | rfl
      · exact hname
      · exact hkeyOf
      · exact hcapital

end Environment

/-! ## Reporting -/

namespace EnvironmentSource

theorem mem_namesOfKey {e : EnvironmentSource} {key n : Text} :
    n ∈ e.namesOfKey key ↔ n = key ∨ n = dottedOf key ∨ e.spelled.get? key = some n := by
  rw [namesOfKey, List.mem_cons, List.mem_cons, Option.mem_toList]

theorem mem_names {e : EnvironmentSource} {n : Text} : n ∈ e.names ↔ ∃ k ∈ e.vars.keys, n ∈ e.namesOfKey k := by
  rw [names, NameSet.mem_ofList, List.mem_flatMap]

/-- Every name that is reported for a conventional key spells the key. -/
theorem capitalKey_of_mem_namesOfKey (e : EnvironmentSource) (declared : List Text) {key n : Text}
    (hkey : Conventional key) (h : n ∈ (e.reconcile declared).namesOfKey key) : capitalKey n = key := by
  rcases mem_namesOfKey.mp h with rfl | rfl | h
  · exact capitalKey_of_key hkey.1
  · exact capitalKey_dottedOf hkey
  · have hpair := (Dict.madeOf_ofPairs _).mem h
    rw [List.mem_filterMap] at hpair
    obtain ⟨k, -, hk⟩ := hpair
    simp only [Option.map_eq_some_iff, Prod.mk.injEq] at hk
    obtain ⟨m, hm, rfl, rfl⟩ := hk
    exact capitalKey_declaredName hkey.1 hm

/-- **Every reported name leads back to its variable.** Where all keys are conventional, and whatever the declared names
are, the key, its dotted form and its declared spelling are reported and have the value of the variable; nothing else is
reported, and no name for two keys. -/
theorem reported_names_resolve (e : EnvironmentSource) (hkeys : ∀ k ∈ e.vars.keys, Conventional k)
    (declared : List Text) :
    (∀ k v, e.vars.get? k = some v → ∀ n, n = k ∨ n = dottedOf k ∨ (e.reconcile declared).spelled.get? k = some n →
      n ∈ (e.reconcile declared).names ∧ Source.get? (.environment (e.reconcile declared)) n = some v) ∧
    (∀ n ∈ (e.reconcile declared).names, ∃ k ∈ e.vars.keys,
      n = k ∨ n = dottedOf k ∨ (e.reconcile declared).spelled.get? k = some n) ∧
    (∀ k ∈ e.vars.keys, ∀ j ∈ e.vars.keys, ∀ n ∈ (e.reconcile declared).namesOfKey k,
      n ∈ (e.reconcile declared).namesOfKey j → k = j) := by
  refine ⟨fun k v hv n hn => ?_, fun n hn => ?_, fun k hk j hj n hnk hnj => ?_⟩
  · have hk : k ∈ e.vars.keys := e.vars.mem_keys_iff.mpr ⟨v, hv⟩
    have hreported := mem_namesOfKey.mpr hn
    have hspell := capitalKey_of_mem_namesOfKey e declared (hkeys k hk) hreported
    refine ⟨mem_names.mpr ⟨k, hk, hreported⟩, ?_⟩
    have hkey : keyFor? e.vars n = some k := by
      rw [keyFor?_of_capitalKey hkeys (hspell ▸ hk), hspell]
    show Environment.lookup e.vars n = some v
    rw [Environment.lookup, hkey, Option.bind_some, hv]
  · obtain ⟨k, hk, hn⟩ := mem_names.mp hn
    exact ⟨k, hk, mem_namesOfKey.mp hn⟩
  · rw [← capitalKey_of_mem_namesOfKey e declared (hkeys k hk) hnk,
      ← capitalKey_of_mem_namesOfKey e declared (hkeys j hj) hnj]

/-- A key with an index behind a profile, and one that opens and closes a quoted key, beside declared names that spell
the first of them another way. -/
theorem reported_names_resolve_profiled :
    let e := ofVariables (.ofPairs [("_DEV_HOST_NAMES_0_".toList, "a".toList), ("MAP__A_B__PORT".toList, "b".toList)])
    let told := e.reconcile ["é[*]".toList, "host-names[*]".toList]
    (∀ k ∈ e.vars.keys, Conventional k) ∧
      told.spelled.get? "_DEV_HOST_NAMES_0_".toList = some "%dev.host-names[0]".toList ∧
      Source.get? (.environment told) "%dev.host-names[0]".toList = some "a".toList ∧
      Source.get? (.environment told) "map.\"a.b\".port".toList = some "b".toList := by
  intro e told
  have hkeys : ∀ k ∈ e.vars.keys, Conventional k := by decide +kernel
  have hspelled : told.spelled.get? "_DEV_HOST_NAMES_0_".toList = some "%dev.host-names[0]".toList := by decide +kernel
  obtain ⟨hresolve, -, -⟩ := reported_names_resolve e hkeys ["é[*]".toList, "host-names[*]".toList]
  refine ⟨hkeys, hspelled, ?_, ?_⟩
  · exact (hresolve "_DEV_HOST_NAMES_0_".toList _ (by decide +kernel) _ (Or.inr (Or.inr hspelled))).2
  · exact (hresolve "MAP__A_B__PORT".toList _ (by decide +kernel) _ (Or.inr (Or.inl (by decide +kernel)))).2

end EnvironmentSource

end LayeredConfig
