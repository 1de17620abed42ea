import LayeredConfig.Proofs.Redaction.Assembly
import LayeredConfig.Proofs.Registry.Ranking

/-!
# `LayeredConfig.Proofs.Pipeline.Defaults` — when the defaults of a configuration answer

The defaults are registered behind all other sources and have the least ordinal that there is. A source of any other
ordinal ranks above them. A source of the least ordinal does not, because of equal ordinals the later registration ranks
first.

## Contents
- **Places.** `Registry.AnsweredFrom` says at which place the source of a record was registered; it is the source that
  leads (`Registry.answeredFrom_iff`).
- **Last source.** When a source behind all others answers (`Registry.answeredFrom_last_iff`), and when one of the others
  does (`Registry.answeredFrom_earlier_iff`).
- **Configurations.** `Parts.given_answer_iff` for the sources of a configuration and its defaults;
  `Parts.default_hides_least_source` is a source that the defaults hide.
-/

namespace LayeredConfig

namespace Registry

open RankedSource

variable {l : List Source} {d : Source} {n : Text}

/-! ## Places -/

/-- The record of a name is that of the source registered at a place. -/
def AnsweredFrom (registry : Registry) (n : Text) (place : Nat) : Prop :=
  ∃ r s, registry.resolve n = some r ∧ registry.ranked[r.origin.position]? = some s ∧ s.sequence = place

theorem answeredFrom_iff {sources : List Source} {place : Nat} :
    (ofSources sources).AnsweredFrom n place ↔ ∃ s : RankedSource, s.Leads (numbered sources) n ∧ s.sequence = place := by
  constructor
  · rintro ⟨r, s, hr, hs, hplace⟩
    obtain ⟨t, -, hleads, ht, -⟩ := leads_of_resolve hr
    rw [hs, Option.some.injEq] at ht
    exact ⟨t, hleads, ht ▸ hplace⟩
  · rintro ⟨s, hleads, hplace⟩
    have hranked : ∃ t ∈ (ofSources sources).ranked, t.Defines n :=
      ⟨s, (ranked_perm sources).mem_iff.mpr hleads.mem, hleads.defines⟩
    have hsome : ((ofSources sources).resolve n).isSome = true := isSome_resolve_iff.mpr (exists_mem_ranked_iff.mp hranked)
    obtain ⟨r, hr⟩ := Option.isSome_iff_exists.mp hsome
    obtain ⟨t, -, htleads, ht, -⟩ := leads_of_resolve hr
    exact ⟨r, t, hr, ht, htleads.unique hleads ▸ hplace⟩

/-- Where some source defines a name, one of them leads. -/
theorem exists_leads {s : Source} (hs : s ∈ l) (hdefines : (s.get? n).isSome = true) :
    ∃ t : RankedSource, t.Leads (numbered l) n := by
  have hsome : ((ofSources l).resolve n).isSome = true := isSome_resolve_iff.mpr ⟨s, hs, hdefines⟩
  obtain ⟨r, hr⟩ := Option.isSome_iff_exists.mp hsome
  obtain ⟨t, -, hleads, -⟩ := leads_of_resolve hr
  exact ⟨t, hleads⟩

/-! ## Last source -/

/-- The number of a source is its place; the last one has that behind all others. -/
theorem mem_numbered_concat {s : RankedSource} : s ∈ numbered (l ++ [d]) ↔
    (∃ i t, l[i]? = some t ∧ s = ⟨t, t.ordinal, i⟩) ∨ s = ⟨d, d.ordinal, l.length⟩ := by
  rw [numbered, List.zipIdx_append, List.map_append, List.mem_append]
  refine or_congr ?_ ?_
  · rw [List.mem_map]
    constructor
    · rintro ⟨⟨t, i⟩, ht, rfl⟩
      exact ⟨i, t, List.mem_zipIdx_iff_getElem?.mp ht, rfl⟩
    · rintro ⟨i, t, ht, rfl⟩
      exact ⟨(t, i), List.mem_zipIdx_iff_getElem?.mpr ht, rfl⟩
  · simp

/-- A source behind all others answers when it defines the name and no other that does has a higher ordinal. -/
theorem answeredFrom_last_iff : (ofSources (l ++ [d])).AnsweredFrom n l.length ↔
    (d.get? n).isSome = true ∧ ∀ t ∈ l, (t.get? n).isSome = true → t.ordinal ≤ d.ordinal := by
  rw [answeredFrom_iff]
  constructor
  · rintro ⟨s, hleads, hplace⟩
    rcases mem_numbered_concat.mp hleads.mem with ⟨i, t, ht, rfl⟩ | rfl
    · obtain ⟨hi, -⟩ := List.getElem?_eq_some_iff.mp ht
      exact absurd hplace (Nat.ne_of_lt hi)
    · refine ⟨hleads.defines, ?_⟩
      intro t ht hdefines
      obtain ⟨i, hi⟩ := List.mem_iff_getElem?.mp ht
      have hmem : ⟨t, t.ordinal, i⟩ ∈ numbered (l ++ [d]) := mem_numbered_concat.mpr (Or.inl ⟨i, t, hi, rfl⟩)
      rcases hleads.above _ hmem hdefines with heq | habove
      · exact Int.le_of_eq (congrArg RankedSource.ordinal heq)
      · unfold RanksAbove at habove
        dsimp only at habove
        omega
  · rintro ⟨hdefines, hordinals⟩
    refine ⟨⟨d, d.ordinal, l.length⟩, ⟨mem_numbered_concat.mpr (Or.inr rfl), hdefines, ?_⟩, rfl⟩
    intro s hs hsdefines
    rcases mem_numbered_concat.mp hs with ⟨i, t, ht, rfl⟩ | rfl
    · -- of equal ordinals the last registration ranks first
      obtain ⟨hi, -⟩ := List.getElem?_eq_some_iff.mp ht
      have hordinal := hordinals t (List.mem_of_getElem? ht) hsdefines
      refine Or.inr ?_
      unfold RanksAbove
      dsimp only
      omega
    · exact Or.inl rfl

/-- One of the others answers when it defines the name and the last source does not, or has a lower ordinal than some of
the others that do. -/
theorem answeredFrom_earlier_iff : (∃ i, i < l.length ∧ (ofSources (l ++ [d])).AnsweredFrom n i) ↔
    ∃ t ∈ l, (t.get? n).isSome = true ∧ ((d.get? n).isSome = true → d.ordinal < t.ordinal) := by
  constructor
  · rintro ⟨i, hi, hanswered⟩
    obtain ⟨s, hleads, hplace⟩ := answeredFrom_iff.mp hanswered
    rcases mem_numbered_concat.mp hleads.mem with ⟨j, t, ht, rfl⟩ | rfl
    · refine ⟨t, List.mem_of_getElem? ht, hleads.defines, ?_⟩
      intro hdefines
      obtain ⟨hj, -⟩ := List.getElem?_eq_some_iff.mp ht
      rcases hleads.above _ (mem_numbered_concat.mpr (Or.inr rfl)) hdefines with heq | habove
      · exact absurd (congrArg RankedSource.sequence heq) (Nat.ne_of_gt hj)
      · unfold RanksAbove at habove
        dsimp only at habove
        omega
    · exact absurd hplace (Nat.ne_of_gt hi)
  · rintro ⟨t, ht, hdefines, hordinal⟩
    obtain ⟨s, hleads⟩ := exists_leads (List.mem_append_left [d] ht) hdefines
    rcases mem_numbered_concat.mp hleads.mem with ⟨i, u, hu, rfl⟩ | rfl
    · obtain ⟨hi, -⟩ := List.getElem?_eq_some_iff.mp hu
      exact ⟨i, hi, answeredFrom_iff.mpr ⟨_, hleads, rfl⟩⟩
    · -- the last source would have at least the ordinal of every other that defines the name
      obtain ⟨hlast, hordinals⟩ := answeredFrom_last_iff.mp (answeredFrom_iff.mpr ⟨_, hleads, rfl⟩)
      have hle := hordinals t ht hdefines
      have hlt := hordinal hlast
      omega

end Registry

/-! ## Configurations -/

namespace Source

theorem get?_reconcile (declared : List Text) (s : Source) : (s.reconcile declared).get? = s.get? := by
  cases s <;> rfl

theorem ordinal_reconcile (declared : List Text) (s : Source) : (s.reconcile declared).ordinal = s.ordinal := by
  cases s <;> rfl

end Source

namespace Parts

theorem get?_told (p : Parts) (s : Source) : (p.told s).get? = s.get? := by
  rw [told]
  split
  · rfl
  · exact Source.get?_reconcile _ s

theorem ordinal_told (p : Parts) (s : Source) : (p.told s).ordinal = s.ordinal := by
  rw [told]
  split
  · rfl
  · exact Source.ordinal_reconcile _ s

/-- The defaults of a configuration as a source: those given, then those of the schemas. -/
def defaultSource (p : Parts) : Source := .defaults (Source.defaultsOfPairs p.defaultPairs)

/-- **When a configuration answers from its defaults.** In a configuration that is put together, the record of a name
comes from one of the given sources if and only if some of them define the name and, where there is a default for it, not
all of these have the least ordinal. It comes from the defaults if and only if there is a default and every given source
that defines the name has the least ordinal. -/
theorem given_answer_iff (p : Parts) (reader : Reader) (dir : Directory) (c : Config)
    (hc : p.assemble reader dir = .ok c) :
    ∃ files, p.files.mapM (FileRequest.load · reader dir) = .ok files ∧ ∀ n,
      ((∃ i, i < (p.given files).length ∧ c.pipeline.registry.AnsweredFrom n i) ↔
        ∃ s ∈ p.given files, (s.get? n).isSome = true ∧
          ((p.defaultSource.get? n).isSome = true → ordinalRange.least < s.ordinal)) ∧
      (c.pipeline.registry.AnsweredFrom n (p.given files).length ↔
        (p.defaultSource.get? n).isSome = true ∧
          ∀ s ∈ p.given files, (s.get? n).isSome = true → s.ordinal ≤ ordinalRange.least) := by
  obtain ⟨files, hfiles, rfl⟩ := exists_files_of_assemble hc
  refine ⟨files, hfiles, fun n => ?_⟩
  have hregistry : (p.pipeline files).registry = Registry.ofSources ((p.given files).map p.told ++ [p.defaultSource]) :=
    congrArg Registry.ofSources (sourceList_eq p files)
  have hlength : ((p.given files).map p.told).length = (p.given files).length := List.length_map p.told
  have hearlier := Registry.answeredFrom_earlier_iff (l := (p.given files).map p.told) (d := p.defaultSource) (n := n)
  have hlast := Registry.answeredFrom_last_iff (l := (p.given files).map p.told) (d := p.defaultSource) (n := n)
  -- being told the declared names changes neither values nor ordinals
  simp only [hlength, List.mem_map, exists_exists_and_eq_and, forall_exists_index, and_imp, forall_apply_eq_imp_iff₂,
    get?_told, ordinal_told] at hearlier hlast
  rw [hregistry]
  exact ⟨hearlier, hlast⟩

/-- A table of the second least ordinal answers for a name that has a default. -/
theorem given_answer_iff_second_least :
    let t : TableSource := ⟨"app".toList, .ofPairs [("x".toList, "1".toList)], -2147483647, .empty⟩
    let p : Parts := { Parts.empty with sources := [.table t], defaults := [("x".toList, "2".toList)] }
    let c : Config := ⟨p.pipeline [], .locked⟩
    p.assemble .ofNotations .empty = .ok c ∧ (p.defaultSource.get? "x".toList).isSome = true ∧
      ∃ i, i < (p.given []).length ∧ c.pipeline.registry.AnsweredFrom "x".toList i := by
  intro t p c
  have hc : p.assemble .ofNotations .empty = .ok c := rfl
  obtain ⟨files, hfiles, hanswers⟩ := given_answer_iff p .ofNotations .empty c hc
  obtain rfl : [] = files := Except.ok.inj hfiles
  refine ⟨hc, by decide +kernel, (hanswers "x".toList).1.mpr ⟨.table t, List.mem_singleton_self _, by decide, ?_⟩⟩
  intro _
  decide

/-- A table of the least ordinal defines a name, and the default of the name answers instead. -/
theorem default_hides_least_source :
    let t : TableSource := ⟨"app".toList, .ofPairs [("x".toList, "1".toList)], ordinalRange.least, .empty⟩
    let p : Parts := { Parts.empty with sources := [.table t], defaults := [("x".toList, "2".toList)] }
    let c : Config := ⟨p.pipeline [], .locked⟩
    p.assemble .ofNotations .empty = .ok c ∧ p.given [] = [.table t] ∧ ((Source.table t).get? "x".toList).isSome = true ∧
      c.pipeline.registry.resolve "x".toList =
        some (.ofSource "x".toList "2".toList ⟨Source.defaultsName, ordinalRange.least, 0, none⟩) ∧
      ¬ ∃ i, i < (p.given []).length ∧ c.pipeline.registry.AnsweredFrom "x".toList i := by
  intro t p c
  have hregistry : c.pipeline.registry =
      ⟨[⟨p.defaultSource, ordinalRange.least, 1⟩, ⟨.table t, ordinalRange.least, 0⟩]⟩ :=
    congrArg Registry.mk (Registry.mergeSort_pair _ _ _)
  have hresolve : c.pipeline.registry.resolve "x".toList =
      some (.ofSource "x".toList "2".toList ⟨Source.defaultsName, ordinalRange.least, 0, none⟩) := by
    rw [hregistry]
    decide +kernel
  refine ⟨rfl, rfl, by decide, hresolve, ?_⟩
  rintro ⟨i, hi, r, s, hr, hs, rfl⟩
  rw [hresolve, Option.some.injEq] at hr
  rw [hregistry, ← hr] at hs
  -- the record stands at the first place, and that is the place of the defaults
  obtain rfl := Option.some.inj hs
  exact absurd hi (by decide)

end Parts

end LayeredConfig
