import LayeredConfig.Proofs.Name.Matching
import LayeredConfig.Proofs.Name.Sample
import LayeredConfig.Proofs.Name.Shape
import LayeredConfig.Secret
import Mathlib.Data.List.Induction

/-!
# `LayeredConfig.Proofs.Secret` — which secret patterns take effect

Wildcard equality is not transitive. A set under it drops a pattern that equals an older entry, and the names that
only the dropped pattern covers are then no secrets. This file says for which lists and names that happens.

## Contents
- **Kept patterns.** What is in the set, by the place in the list (`mem_ofPatterns_iff`).
- **One name.** `contains_ofPatterns_iff`: a name is secret when some listed pattern equals it and no older entry has
  displaced that pattern, unless the older entry equals the name itself.
- **All names.** A list of well-formed patterns protects every name of its language exactly when each pattern is
  covered by one that is kept (`forall_protects_iff`).
-/

namespace LayeredConfig

open Name

namespace SecretSet

/-! ## Kept patterns -/

theorem holds_iff {s : SecretSet} {name : Text} :
    s.holds name = true ↔ ∃ k ∈ s.patterns, sameEntry k name = true := by
  rw [holds, List.any_eq_true]

theorem foldl_insert_append (s : SecretSet) (ps qs : List Text) :
    (ps ++ qs).foldl insert s = qs.foldl insert (ps.foldl insert s) :=
  List.foldl_append

theorem patterns_insert (s : SecretSet) (p : Text) :
    (s.insert p).patterns = s.patterns ++ if s.holds p then [] else [p] := by
  unfold insert
  cases s.holds p with
  | true => simp
  | false => simp

/-- A set keeps its entries while patterns are added. -/
theorem patterns_prefix_foldl (s : SecretSet) (ps : List Text) : s.patterns <+: (ps.foldl insert s).patterns := by
  induction ps generalizing s with
  | nil => exact List.prefix_refl _
  | cons p ps ih =>
      rw [List.foldl_cons]
      refine List.IsPrefix.trans ?_ (ih (s.insert p))
      rw [patterns_insert]
      exact List.prefix_append _ _

/-- What the beginning of a list leaves in the set stays there. -/
theorem mem_ofPatterns_append {before rest : List Text} {k : Text} (h : k ∈ (ofPatterns before).patterns) :
    k ∈ (ofPatterns (before ++ rest)).patterns := by
  rw [ofPatterns, foldl_insert_append]
  exact (patterns_prefix_foldl _ rest).subset h

/-- A pattern is kept exactly where the patterns listed before it leave no entry that equals it. -/
theorem mem_ofPatterns_iff {ps : List Text} {q : Text} :
    q ∈ (ofPatterns ps).patterns ↔
      ∃ before after, ps = before ++ q :: after ∧ (ofPatterns before).holds q = false := by
  constructor
  · intro hq
    induction ps using List.reverseRecOn with
    | nil => simp [ofPatterns] at hq
    | append_singleton ps p ih =>
        rw [ofPatterns, foldl_insert_append, List.foldl_cons, List.foldl_nil, patterns_insert, List.mem_append] at hq
        rcases hq with hq | hq
        · obtain ⟨before, after, rfl, hnew⟩ := ih hq
          exact ⟨before, after ++ [p], by simp, hnew⟩
        · cases hnew : (ps.foldl insert ⟨[]⟩).holds p with
          | true => simp [hnew] at hq
          | false =>
              rw [hnew, if_neg (by decide), List.mem_singleton] at hq
              subst hq
              exact ⟨ps, [], rfl, hnew⟩
  · rintro ⟨before, after, rfl, hnew⟩
    rw [← List.singleton_append, ← List.append_assoc]
    apply mem_ofPatterns_append
    rw [ofPatterns, foldl_insert_append, List.foldl_cons, List.foldl_nil, patterns_insert]
    rw [ofPatterns] at hnew
    simp [hnew]

/-- A set holds no pattern that was not listed. -/
theorem mem_of_mem_ofPatterns {ps : List Text} {q : Text} (h : q ∈ (ofPatterns ps).patterns) : q ∈ ps := by
  obtain ⟨before, after, rfl, -⟩ := mem_ofPatterns_iff.mp h
  simp

theorem alike_of_sameEntry {a b : Text} (h : sameEntry a b = true) : alike a b = true := by
  rw [sameEntry, Bool.and_eq_true] at h
  exact h.2

/-! ## One name -/

/-- A name is secret exactly when a listed pattern equals it and every older entry that displaces this pattern equals
the name as well. -/
theorem contains_ofPatterns_iff {ps : List Text} {n : Text} :
    (ofPatterns ps).contains n = true ↔
      ∃ before p after, ps = before ++ p :: after ∧ sameEntry p (unprofiled n) = true ∧
        ∀ k ∈ (ofPatterns before).patterns, sameEntry k p = true → sameEntry k (unprofiled n) = true := by
  rw [contains, holds_iff]
  constructor
  · rintro ⟨q, hq, hsame⟩
    obtain ⟨before, after, rfl, hnew⟩ := mem_ofPatterns_iff.mp hq
    refine ⟨before, q, after, rfl, hsame, fun k hk hkq => ?_⟩
    -- nothing displaces a pattern that is kept
    have hholds := holds_iff.mpr ⟨k, hk, hkq⟩
    rw [hnew] at hholds
    exact absurd hholds (by decide)
  · rintro ⟨before, p, after, rfl, hsame, holder⟩
    cases hp : (ofPatterns before).holds p with
    | false => exact ⟨p, mem_ofPatterns_iff.mpr ⟨before, after, rfl, hp⟩, hsame⟩
    | true =>
        obtain ⟨k, hk, hkp⟩ := holds_iff.mp hp
        exact ⟨k, mem_ofPatterns_append hk, holder k hk hkp⟩

/-- A list of patterns does what it says for a name: the name is secret exactly when one of the patterns equals it. -/
def Protects (ps : List Text) (n : Text) : Prop :=
  (ofPatterns ps).contains n = true ↔ ∃ p ∈ ps, alike p (unprofiled n) = true

theorem exists_alike_of_contains {ps : List Text} {n : Text} (h : (ofPatterns ps).contains n = true) :
    ∃ p ∈ ps, alike p (unprofiled n) = true := by
  obtain ⟨q, hq, hsame⟩ := holds_iff.mp h
  exact ⟨q, mem_of_mem_ofPatterns hq, alike_of_sameEntry hsame⟩

theorem protects_iff {ps : List Text} {n : Text} :
    Protects ps n ↔ (∀ p ∈ ps, alike p (unprofiled n) = false) ∨
      ∃ before p after, ps = before ++ p :: after ∧ sameEntry p (unprofiled n) = true ∧
        ∀ k ∈ (ofPatterns before).patterns, sameEntry k p = true → sameEntry k (unprofiled n) = true := by
  rw [← contains_ofPatterns_iff, Protects]
  constructor
  · intro h
    by_cases hlisted : ∃ p ∈ ps, alike p (unprofiled n) = true
    · exact Or.inr (h.mpr hlisted)
    · left
      intro p hp
      exact Bool.eq_false_iff.mpr fun halike => hlisted ⟨p, hp, halike⟩
  · rintro (hnone | hsecret)
    · constructor
      · exact exists_alike_of_contains
      · rintro ⟨p, hp, halike⟩
        rw [hnone p hp] at halike
        exact absurd halike (by decide)
    · exact ⟨exists_alike_of_contains, fun _ => hsecret⟩

/-! ## All names -/

/-- On well-formed names the hash never keeps apart what the wildcards make equal. -/
theorem sameEntry_text_iff {p c : Pattern} (hc : c.IsConcrete) :
    sameEntry p.text c.text = true ↔ p.Covers c := by
  rw [sameEntry, Bool.and_eq_true, beq_iff_eq, ← alike_text_iff hc]
  exact ⟨fun h => h.2, fun h => ⟨p.closed.shapeHash_eq c.closed h, h⟩⟩

theorem contains_text_iff {ws : List Pattern} {n : Text} {c : Pattern} (hc : c.IsConcrete)
    (hn : unprofiled n = c.text) :
    (ofPatterns (ws.map Pattern.text)).contains n = true ↔
      ∃ q ∈ ws, q.text ∈ (ofPatterns (ws.map Pattern.text)).patterns ∧ q.Covers c := by
  rw [contains, holds_iff, hn]
  constructor
  · rintro ⟨k, hk, hsame⟩
    obtain ⟨q, hq, rfl⟩ := List.mem_map.mp (mem_of_mem_ofPatterns hk)
    exact ⟨q, hq, hk, (sameEntry_text_iff hc).mp hsame⟩
  · rintro ⟨q, -, hk, hcov⟩
    exact ⟨q.text, hk, (sameEntry_text_iff hc).mpr hcov⟩

theorem protects_text_iff {ws : List Pattern} {n : Text} {c : Pattern} (hc : c.IsConcrete)
    (hn : unprofiled n = c.text) :
    Protects (ws.map Pattern.text) n ↔ ∀ p ∈ ws, p.Covers c →
      ∃ q ∈ ws, q.text ∈ (ofPatterns (ws.map Pattern.text)).patterns ∧ q.Covers c := by
  have hlisted : (∃ p ∈ ws.map Pattern.text, alike p (unprofiled n) = true) ↔ ∃ p ∈ ws, p.Covers c := by
    rw [hn]
    constructor
    · rintro ⟨t, ht, halike⟩
      obtain ⟨p, hp, rfl⟩ := List.mem_map.mp ht
      exact ⟨p, hp, (alike_text_iff hc).mp halike⟩
    · rintro ⟨p, hp, hcov⟩
      exact ⟨p.text, List.mem_map_of_mem hp, (alike_text_iff hc).mpr hcov⟩
  rw [Protects, contains_text_iff hc hn, hlisted]
  constructor
  · intro h p hp hcov
    exact h.mpr ⟨p, hp, hcov⟩
  · intro h
    constructor
    · rintro ⟨q, hq, -, hcov⟩
      exact ⟨q, hq, hcov⟩
    · rintro ⟨p, hp, hcov⟩
      exact h p hp hcov

/-- A list of well-formed patterns protects every name of its language exactly when each of its patterns is covered
by one that is kept. -/
theorem forall_protects_iff {ws : List Pattern} :
    (∀ (n : Text) (c : Pattern), c.IsConcrete → unprofiled n = c.text → Protects (ws.map Pattern.text) n) ↔
      ∀ p ∈ ws, ∃ q ∈ ws, q.text ∈ (ofPatterns (ws.map Pattern.text)).patterns ∧ q.Covers p := by
  constructor
  · intro h p hp
    -- a name that tells apart all patterns of the list, behind an empty qualifier
    let bound := (ws.map fun q => q.text.length).max?.getD 0
    have hconcrete := p.isConcrete_sample bound
    have hname : unprofiled ('%' :: '.' :: (p.sample bound).text) = (p.sample bound).text := by
      simp [unprofiled, Text.cut]
    have hprotects := h _ _ hconcrete hname
    rw [protects_text_iff hconcrete hname] at hprotects
    obtain ⟨q, hq, hkept, hcov⟩ := hprotects p hp (p.covers_sample bound)
    have hlen : q.text.length ≤ bound :=
      List.le_max?_getD_of_mem (List.mem_map.mpr ⟨q, hq, rfl⟩)
    exact ⟨q, hq, hkept, (Pattern.covers_sample_iff hlen).mp hcov⟩
  · intro h n c hc hn
    rw [protects_text_iff hc hn]
    intro p hp hcov
    obtain ⟨q, hq, hkept, hqp⟩ := h p hp
    exact ⟨q, hq, hkept, hqp.trans hcov⟩

/-- **When listed patterns take effect.** For one name: no pattern equals it, or one does and every older entry that
displaces this pattern equals the name too. For all names of well-formed patterns: each pattern is covered by one that
is kept. -/
theorem takes_effect_iff (ps : List Text) (n : Text) (ws : List Pattern) :
    (Protects ps n ↔ (∀ p ∈ ps, alike p (unprofiled n) = false) ∨
      ∃ before p after, ps = before ++ p :: after ∧ sameEntry p (unprofiled n) = true ∧
        ∀ k ∈ (ofPatterns before).patterns, sameEntry k p = true → sameEntry k (unprofiled n) = true) ∧
    ((∀ (n : Text) (c : Pattern), c.IsConcrete → unprofiled n = c.text → Protects (ws.map Pattern.text) n) ↔
      ∀ p ∈ ws, ∃ q ∈ ws, q.text ∈ (ofPatterns (ws.map Pattern.text)).patterns ∧ q.Covers p) :=
  ⟨protects_iff, forall_protects_iff⟩

/-- The narrow pattern, listed first, displaces the wide one, and a name that only the wide one covers is no secret. -/
theorem not_protects_overlapped :
    ¬ Protects ["db.main.password".toList, "db.*.password".toList] "db.replica.password".toList := by
  intro h
  have hlisted : (ofPatterns ["db.main.password".toList, "db.*.password".toList]).contains
      "db.replica.password".toList = true :=
    h.mpr ⟨"db.*.password".toList, by decide, by decide +kernel⟩
  exact absurd hlisted (by decide +kernel)

end SecretSet

end LayeredConfig
