import LayeredConfig.Registry

/-!
# `LayeredConfig.Proofs.Registry` — which source answers

A registry asks its sources in rank order, and the first that defines a name answers with its text and with where it
stands.

## Contents
- **Members.** The ranked sources are those that were registered (`Registry.exists_mem_ranked_iff`).
- **Answers.** `exists_of_resolveFrom` finds the source behind a record; `Registry.Supplies` says that the source at an
  origin's place holds a text under a name, `supplies_of_resolve` that every answer comes from such a source.
-/

namespace LayeredConfig

namespace Registry

/-- Ranking keeps the sources. -/
theorem exists_mem_ranked_iff {sources : List Source} {P : Source → Prop} :
    (∃ s ∈ (ofSources sources).ranked, P s.source) ↔ ∃ s ∈ sources, P s := by
  simp only [ofSources, List.mem_mergeSort, numbered, List.mem_map, Prod.exists]
  constructor
  · rintro ⟨-, ⟨s, i, hs, rfl⟩, h⟩
    exact ⟨s, List.fst_mem_of_mem_zipIdx hs, h⟩
  · rintro ⟨s, hs, h⟩
    obtain ⟨i, hi, rfl⟩ := List.mem_iff_getElem.mp hs
    exact ⟨_, ⟨sources[i], i, List.mem_zipIdx_iff_getElem?.mpr (List.getElem?_eq_getElem hi), rfl⟩, h⟩

/-- A record that a list of sources answers is that of one of them, at the position where it stands, and none in front
of it defines the name. -/
theorem exists_of_resolveFrom {name : Text} {i : Nat} {l : List RankedSource} {r : Record}
    (h : resolveFrom name i l = some r) : ∃ (k : Nat) (s : RankedSource), l[k]? = some s ∧
      s.record? (i + k) name = some r ∧ ∀ (j : Nat) (t : RankedSource), j < k → l[j]? = some t → t.source.get? name = none := by
  induction l generalizing i with
  | nil => cases h
  | cons s l ih =>
      rw [resolveFrom, Option.or_eq_some_iff] at h
      rcases h with hs | ⟨hnone, hl⟩
      · exact ⟨0, s, rfl, hs, fun j t hj => absurd hj (Nat.not_lt_zero j)⟩
      · obtain ⟨k, t, hk, ht, hfirst⟩ := ih hl
        refine ⟨k + 1, t, hk, ?_, fun j u hj hu => ?_⟩
        · rw [← ht, Nat.add_assoc, Nat.add_comm 1 k]
        · cases j with
          | zero =>
              obtain rfl := Option.some.inj hu
              exact Option.map_eq_none_iff.mp hnone
          | succ j => exact hfirst j u (Nat.lt_of_succ_lt_succ hj) hu

/-- The source at the position of an origin is the one that the origin describes, holds a text under a name, and is
the one that answers for this name. -/
structure Supplies (registry : Registry) (o : Origin) (name text : Text) : Prop where
  answers : registry.resolve name = some (.ofSource name text o)
  held : ∃ s, registry.ranked[o.position]? = some s ∧ s.source.name = o.name ∧ s.ordinal = o.ordinal ∧
    s.source.line? name = o.line ∧ s.source.get? name = some text

/-- Every record that a registry answers is supplied by the source that it names. -/
theorem supplies_of_resolve {registry : Registry} {name : Text} {r : Record} (h : registry.resolve name = some r) :
    ∃ text, r = .ofSource name text r.origin ∧ registry.Supplies r.origin name text := by
  obtain ⟨k, s, hs, hrecord, -⟩ := exists_of_resolveFrom h
  rw [RankedSource.record?, Option.map_eq_some_iff, Nat.zero_add] at hrecord
  obtain ⟨text, htext, rfl⟩ := hrecord
  exact ⟨text, rfl, h, s, hs, rfl, rfl, rfl, htext⟩

/-- So is its name the one that was asked for, and no profile supplied it. -/
theorem name_of_resolve {r : Registry} {n : Text} {a : Record} (h : r.resolve n = some a) : a.name = n := by
  obtain ⟨v, hrecord, -⟩ := supplies_of_resolve h
  exact congrArg Record.name hrecord

theorem profile_of_resolve {r : Registry} {n : Text} {a : Record} (h : r.resolve n = some a) : a.profile = none := by
  obtain ⟨v, hrecord, -⟩ := supplies_of_resolve h
  exact congrArg Record.profile hrecord

end Registry

end LayeredConfig
