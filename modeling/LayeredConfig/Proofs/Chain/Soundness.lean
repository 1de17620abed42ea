import LayeredConfig.Chain
import LayeredConfig.Proofs.Registry

/-!
# `LayeredConfig.Proofs.Chain.Soundness` — what every record of a chain says about itself

A record passes through stages that rename it, mark it with a profile, expand its value or take its values out. None
of them leaves a processed value beside a problem, or a raw value that its source does not hold.

## Contents
- **Properties of records.** `Record.Stable` is a property that no change of the library breaks; a stage of the library
  keeps it (`Stage.get_stable`, `Stage.values_stable`), and so do any number of stages around others
  (`Chain.lookupIn_append_stable`, `Chain.valuesIn_append_stable`) and a whole chain (`Chain.lookupIn_stable`,
  `Chain.valuesIn_stable`).
- **Soundness.** `Record.Sound` holds of what a registry answers (`Record.sound_of_resolve`) and is stable
  (`Record.stable_sound`), so that it holds of every record of a chain (`Chain.records_sound`).
-/

namespace LayeredConfig

/-! ## Properties of records -/

/-- A property of records that survives every change that a stage of the library makes to a record. -/
structure Record.Stable (P : Record → Prop) : Prop where
  withName : ∀ {r : Record} (name : Text), P r → P (r.withName name)
  withProfile : ∀ {r : Record} (profile : Text), P r → P (r.withProfile profile)
  redacted : ∀ {r : Record}, P r → P r.redacted
  expanded : ∀ {r : Record} (lookup : Text → Option Record), P r → P (r.expanded lookup)

variable {P : Record → Prop} {access : Access} {inner : Text → Option Record}

namespace Stage

theorem profiled_stable (hP : Record.Stable P) (hinner : ∀ n r, inner n = some r → P r) {active : List Text} {n : Text}
    {r : Record} (h : profiled inner active n = some r) : P r := by
  obtain ⟨p, -, hp⟩ := List.exists_of_findSome?_eq_some h
  rw [Option.map_eq_some_iff] at hp
  obtain ⟨a, ha, rfl⟩ := hp
  exact hP.withProfile p (hP.withName n (hinner _ a ha))

theorem overlaid_stable (hP : Record.Stable P) (hinner : ∀ n r, inner n = some r → P r) {active : List Text} {n : Text}
    {r : Record} (h : overlaid inner active n = some r) : P r := by
  unfold overlaid at h
  split at h
  · -- both records have the property, whichever outranks the other
    have hprofiled (p : Record) (hp : profiled inner active n = some p) : P p := profiled_stable hP hinner hp
    split at h
    · next p a hp ha =>
        split at h
        · exact Option.some.inj h ▸ hinner n a ha
        · exact Option.some.inj h ▸ hprofiled p hp
    · next p hp _ => exact Option.some.inj h ▸ hprofiled p hp
    · exact hinner n r h
  · exact hinner n r h

/-- What a stage of the library answers has every stable property that the answers of the stages inside have. -/
theorem get_stable (hP : Record.Stable P) {s : Stage} (hs : s.isBuiltin = true)
    (hinner : ∀ n r, inner n = some r → P r) (n : Text) (r : Record) (h : s.get access inner n = some r) : P r := by
  cases s with
  | relocate target =>
      rcases Option.or_eq_some_iff.mp h with hnew | ⟨-, hold⟩
      · obtain ⟨m, -, hm⟩ := Option.bind_eq_some_iff.mp hnew
        exact hinner m r hm
      · exact hinner n r hold
  | expression =>
      obtain ⟨a, ha, rfl⟩ := Option.map_eq_some_iff.mp h
      exact hP.expanded inner (hinner n a ha)
  | profile active => exact overlaid_stable hP hinner h
  | fallback target =>
      rcases Option.or_eq_some_iff.mp h with hplain | ⟨-, hother⟩
      · exact hinner n r hplain
      · obtain ⟨m, -, hm⟩ := Option.bind_eq_some_iff.mp hother
        exact hinner m r hm
  | logging => exact hinner n r h
  | secret secrets =>
      obtain ⟨a, ha, rfl⟩ := Option.map_eq_some_iff.mp h
      by_cases hhides : hides secrets access n = true
      · rw [if_pos hhides]
        exact hP.redacted (hinner n a ha)
      · rw [if_neg hhides]
        exact hinner n a ha
  | custom c => cases hs

/-- The same of what it lists: the profile stage looks up what it lists, and the others change what is listed inside. -/
theorem values_stable (hP : Record.Stable P) {s : Stage} (hs : s.isBuiltin = true)
    (hinner : ∀ n r, inner n = some r → P r) {names : NameSet} {listed : List Record} (hlisted : ∀ r ∈ listed, P r) :
    ∀ r ∈ s.values access inner names listed, P r := by
  intro r hr
  cases s with
  | expression =>
      obtain ⟨a, ha, rfl⟩ := List.mem_map.mp hr
      exact hP.expanded inner (hlisted a ha)
  | profile active =>
      obtain ⟨n, -, hn⟩ := List.mem_filterMap.mp hr
      exact overlaid_stable hP hinner hn
  | secret secrets =>
      obtain ⟨a, ha, rfl⟩ := List.mem_map.mp hr
      by_cases hhides : hides secrets access a.name = true
      · rw [if_pos hhides]
        exact hP.redacted (hlisted a ha)
      · rw [if_neg hhides]
        exact hlisted a ha
  | relocate target => exact hlisted r hr
  | fallback target => exact hlisted r hr
  | logging => exact hlisted r hr
  | custom c => cases hs

end Stage

namespace Chain

variable {registry : Registry} {stages outer : List Stage}

/-- What library stages answer has every stable property that the answers of the stages inside them have. -/
theorem lookupIn_append_stable (hP : Record.Stable P)
    (hinside : ∀ n r, lookupIn registry access stages n = some r → P r) (houter : ∀ s ∈ outer, s.isBuiltin = true)
    (n : Text) (r : Record) (h : lookupIn registry access (outer ++ stages) n = some r) : P r := by
  induction outer generalizing n r with
  | nil => exact hinside n r h
  | cons s outer ih =>
      have hinner := ih fun t ht => houter t (List.mem_cons_of_mem s ht)
      exact Stage.get_stable hP (houter s List.mem_cons_self) hinner n r h

/-- And so has what they list. -/
theorem valuesIn_append_stable (hP : Record.Stable P)
    (hinside : ∀ n r, lookupIn registry access stages n = some r → P r)
    (hlisted : ∀ r ∈ valuesIn registry access stages, P r) (houter : ∀ s ∈ outer, s.isBuiltin = true) :
    ∀ r ∈ valuesIn registry access (outer ++ stages), P r := by
  induction outer with
  | nil => exact hlisted
  | cons s outer ih =>
      have htail : ∀ t ∈ outer, t.isBuiltin = true := fun t ht => houter t (List.mem_cons_of_mem s ht)
      exact Stage.values_stable hP (houter s List.mem_cons_self) (lookupIn_append_stable hP hinside htail) (ih htail)

/-- What a chain of library stages answers has every stable property that the answers of its registry have. -/
theorem lookupIn_stable (hP : Record.Stable P) (hresolve : ∀ n r, registry.resolve n = some r → P r)
    (hstages : ∀ s ∈ stages, s.isBuiltin = true) (n : Text) (r : Record)
    (h : lookupIn registry access stages n = some r) : P r := by
  have hinside : ∀ n r, lookupIn registry access [] n = some r → P r := hresolve
  rw [← List.append_nil stages] at h
  exact lookupIn_append_stable hP hinside hstages n r h

theorem valuesIn_stable (hP : Record.Stable P) (hresolve : ∀ n r, registry.resolve n = some r → P r)
    (hstages : ∀ s ∈ stages, s.isBuiltin = true) : ∀ r ∈ valuesIn registry access stages, P r := by
  have hinside : ∀ n r, lookupIn registry access [] n = some r → P r := hresolve
  have hlisted : ∀ r ∈ valuesIn registry access [], P r := by
    intro r hr
    obtain ⟨n, -, hn⟩ := List.mem_filterMap.mp hr
    exact hresolve n r hn
  rw [← List.append_nil stages]
  exact valuesIn_append_stable hP hinside hlisted hstages

end Chain

/-! ## Soundness -/

/-- A record that says about itself what is true: it has no processed value exactly when problems were recorded, its raw
value is the text that the source it names holds under some name, and only a denied access takes the raw value out. -/
structure Record.Sound (registry : Registry) (r : Record) : Prop where
  value_eq_none_iff : r.value = none ↔ r.problems ≠ []
  supplied : ∀ text, r.rawValue = some text → ∃ name, registry.Supplies r.origin name text
  denied : r.rawValue = none → .secretAccessDenied ∈ r.problems

namespace Record

variable {registry : Registry}

theorem sound_of_resolve {n : Text} {r : Record} (h : registry.resolve n = some r) : r.Sound registry := by
  obtain ⟨text, hr, hsupplies⟩ := Registry.supplies_of_resolve h
  have hvalue : r.value = some text := by rw [hr]; rfl
  have hraw : r.rawValue = some text := by rw [hr]; rfl
  have hproblems : r.problems = [] := by rw [hr]; rfl
  constructor
  · simp [hvalue, hproblems]
  · intro t ht
    rw [hraw, Option.some.injEq] at ht
    exact ⟨n, ht ▸ hsupplies⟩
  · intro hnone
    rw [hraw] at hnone
    cases hnone

/-- Only a processed value is expanded. -/
theorem exists_value_of_expansion {lookup : Text → Option Record} {r : Record} {e : Text × Trace}
    (h : r.expansion lookup = some e) : ∃ t, r.value = some t := by
  unfold expansion at h
  split at h
  · next t ht => exact ⟨t, ht⟩
  · cases h

/-- A value is expanded only where nothing has gone wrong before; where the expansion goes wrong it leaves a problem
and takes the value out. -/
theorem Sound.expanded {r : Record} (h : r.Sound registry) (lookup : Text → Option Record) :
    (r.expanded lookup).Sound registry := by
  unfold Record.expanded
  cases hexpansion : r.expansion lookup with
  | none => exact h
  | some e =>
      obtain ⟨text, trace⟩ := e
      obtain ⟨t, ht⟩ := exists_value_of_expansion hexpansion
      have hclean : r.problems = [] := by
        apply Classical.byContradiction
        intro hne
        rw [h.value_eq_none_iff.mpr hne] at ht
        cases ht
      dsimp only
      by_cases hempty : trace.problems.isEmpty = true
      · rw [if_pos hempty]
        exact ⟨by simp [withValue, hclean], h.supplied, h.denied⟩
      · rw [if_neg hempty]
        have hne : trace.problems ≠ [] := fun hnil => hempty (List.isEmpty_iff.mpr hnil)
        exact ⟨by simp [withValue, withProblems, hne], h.supplied, fun hnone => List.mem_append_left _ (h.denied hnone)⟩

/-- What is taken out leaves the denial behind. -/
theorem Sound.redacted {r : Record} : r.redacted.Sound registry := by
  constructor
  · simp [Record.redacted]
  · intro t ht
    cases ht
  · intro _
    exact List.mem_append_right _ (List.mem_singleton_self _)

theorem stable_sound : Stable (Sound registry) where
  withName _ h := ⟨h.value_eq_none_iff, h.supplied, h.denied⟩
  withProfile _ h := ⟨h.value_eq_none_iff, h.supplied, h.denied⟩
  redacted _ := Sound.redacted
  expanded lookup h := h.expanded lookup

end Record

/-- **A record has a value exactly when nothing went wrong.** Whatever stages of the library stand in a chain, and in
whatever order, every record that it answers or lists is sound. -/
theorem Chain.records_sound (registry : Registry) (c : Chain) (access : Access)
    (hstages : ∀ s ∈ c.stages, s.isBuiltin = true) :
    (∀ n r, c.lookup registry access n = some r → r.Sound registry) ∧
      ∀ r ∈ c.values registry access, r.Sound registry := by
  have hresolve (n : Text) (r : Record) (h : registry.resolve n = some r) : r.Sound registry := Record.sound_of_resolve h
  constructor
  · exact Chain.lookupIn_stable Record.stable_sound hresolve hstages
  · exact Chain.valuesIn_stable Record.stable_sound hresolve hstages

/-- A value with two references, of which only the second goes wrong: nothing is left of the first. -/
theorem Chain.records_sound_referenced :
    let url := "$\x7bhost\x7d:$\x7bpassword\x7d".toList
    let registry := Registry.ofSources [.table (.ofProperties "app".toList
      (.ofPairs [("url".toList, url), ("host".toList, "h".toList), ("password".toList, "p".toList)]))]
    let c : Chain := ⟨[.expression, .secret (.ofPatterns ["password".toList])]⟩
    (∀ s ∈ c.stages, s.isBuiltin = true) ∧
      ∃ r, c.lookup registry .locked "url".toList = some r ∧ r.value = none ∧ r.rawValue = some url ∧
        r.problems = [.secretAccessDenied] ∧ r.Sound registry := by
  intro url registry c
  have hstages : ∀ s ∈ c.stages, s.isBuiltin = true := by decide
  have hlookup : c.lookup registry .locked "url".toList =
      some ⟨"url".toList, none, some url, none, ⟨"app".toList, 100, 0, none⟩, [.secretAccessDenied]⟩ := by
    decide +kernel
  exact ⟨hstages, _, hlookup, rfl, rfl, rfl, (Chain.records_sound registry c .locked hstages).1 _ _ hlookup⟩

end LayeredConfig
