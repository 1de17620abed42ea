import LayeredConfig.Proofs.Name.Grammar
import Mathlib.Data.List.Induction

/-!
# `LayeredConfig.Proofs.Name.Cover` — the language of a pattern

A pattern covers a name when the segments of the name can be cut into consecutive blocks, one for each segment
of the pattern. This is the declared meaning of the wildcards and speaks of segments only; how texts are
scanned does not enter.

## Contents
- **One block.** `Segment.Covers`, and `Segment.Absorbs` for a block of several segments.
- **Whole names.** `Pattern.Covers`.
- **From the right.** `Aligns` takes one block after another from the right end (`aligns_reverse_iff`).
- **Order.** Covering is reflexive and transitive, so that patterns compare by it as their languages do.
-/

namespace LayeredConfig.Name

/-! ## One block -/

/-- `[*]` covers every group, digits cover themselves. -/
def Index.Covers (g h : Index) : Prop := g = .any ∨ g = h

/-- The `*` base covers every base, any other base covers itself; groups correspond one to one. -/
structure Segment.Covers (s t : Segment) : Prop where
  base : s.base = .star ∨ s.base.text = t.base.text
  indexes : List.Forall₂ Index.Covers s.indexes t.indexes

/-- A block ends in a segment that is covered. Earlier segments carry no index group, and there are some only
where the segment of the pattern is elastic. -/
def Segment.Absorbs (s : Segment) (elastic : Prop) (block : List Segment) : Prop :=
  ∃ before t, block = before ++ [t] ∧ s.Covers t ∧ (∀ u ∈ before, u.indexes = []) ∧ (before ≠ [] → elastic)

/-! ## Whole names -/

/-- The segment at place `i` of a pattern of `n` segments is elastic when its `*` is the first or the last
character of the pattern: an index group behind the last `*` takes the end from it. -/
def Segment.Elastic (s : Segment) (i n : Nat) : Prop :=
  s.base = .star ∧ (i = 0 ∨ i + 1 = n ∧ s.indexes = [])

/-- A cut of segments into blocks for the first segments of a pattern that has `n` of them. -/
def Cut (n : Nat) (p c : List Segment) : Prop :=
  ∃ blocks : List (List Segment), blocks.flatten = c ∧ blocks.length = p.length ∧
    ∀ i (s : Segment) b, p[i]? = some s → blocks[i]? = some b → s.Absorbs (s.Elastic i n) b

/-- The segments of the name can be cut into blocks, one for each segment of the pattern in order. -/
def Pattern.Covers (p c : Pattern) : Prop := Cut p.segments.length p.segments c.segments

theorem cut_nil {n : Nat} {c : List Segment} : Cut n [] c ↔ c = [] := by
  constructor
  · rintro ⟨blocks, rfl, hlen, -⟩
    rw [List.length_eq_zero_iff.mp hlen, List.flatten_nil]
  · rintro rfl
    exact ⟨[], rfl, rfl, fun i s b hs => by simp at hs⟩

/-- A cut for one more segment is a cut for the segments before it and a last block. -/
theorem cut_append_singleton {n : Nat} {p c : List Segment} {s : Segment} :
    Cut n (p ++ [s]) c ↔ ∃ c' b, c = c' ++ b ∧ s.Absorbs (s.Elastic p.length n) b ∧ Cut n p c' := by
  constructor
  · rintro ⟨blocks, rfl, hlen, hfill⟩
    rw [List.length_append, List.length_singleton] at hlen
    have hne : blocks ≠ [] := by
      rintro rfl
      simp at hlen
    obtain ⟨bs, b, rfl⟩ : ∃ bs b, blocks = bs ++ [b] :=
      ⟨blocks.dropLast, blocks.getLast hne, (List.dropLast_concat_getLast hne).symm⟩
    have hbs : bs.length = p.length := by simpa using hlen
    refine ⟨bs.flatten, b, by simp, ?_, bs, rfl, hbs, ?_⟩
    · exact hfill p.length s b (by simp) (by simp [← hbs])
    · intro i u d hu hd
      have hi : i < p.length := (List.getElem?_eq_some_iff.mp hu).1
      refine hfill i u d ?_ ?_
      · rw [List.getElem?_append_left hi, hu]
      · rw [List.getElem?_append_left (hbs ▸ hi), hd]
  · rintro ⟨c', b, rfl, hb, bs, rfl, hbs, hfill⟩
    refine ⟨bs ++ [b], by simp, by simp [hbs], ?_⟩
    intro i u d hu hd
    rcases Nat.lt_or_ge i p.length with hi | hi
    · rw [List.getElem?_append_left hi] at hu
      rw [List.getElem?_append_left (hbs ▸ hi)] at hd
      exact hfill i u d hu hd
    · -- past the earlier segments there is only the last one
      have hlt := (List.getElem?_eq_some_iff.mp hu).1
      have hi' : i = p.length := by
        rw [List.length_append, List.length_singleton] at hlt
        omega
      subst hi'
      simp only [List.getElem?_concat_length, Option.some.injEq] at hu
      rw [← hbs, List.getElem?_concat_length, Option.some.injEq] at hd
      subst hu
      subst hd
      exact hb

/-! ## From the right -/

/-- Blocks taken from the right: both lists hold the last segment first. `last` says whether the pattern ends
behind its first listed segment. -/
def Aligns : Bool → List Segment → List Segment → Prop
  | _, [], ts => ts = []
  | last, s :: rs, ts => ∃ t before after, ts = t :: before ++ after ∧ s.Covers t ∧
      (∀ u ∈ before, u.indexes = []) ∧
      (before ≠ [] → s.base = .star ∧ (rs = [] ∨ last = true ∧ s.indexes = [])) ∧ Aligns false rs after

/-- The blocks of a cut, from the right. -/
theorem aligns_reverse_iff {n : Nat} {last : Bool} {p c : List Segment} (hn : p.length ≤ n)
    (hlast : last = true ↔ p.length = n) : Aligns last p.reverse c.reverse ↔ Cut n p c := by
  induction p using List.reverseRecOn generalizing last c with
  | nil => simp [Aligns, cut_nil]
  | append_singleton p s ih =>
      have hlen : (p ++ [s]).length = p.length + 1 := by simp
      rw [hlen] at hn hlast
      have hfalse : false = true ↔ p.length = n := by
        simp only [Bool.false_eq_true, false_iff]
        omega
      have helastic : (p.reverse = [] ∨ last = true ∧ s.indexes = []) ↔
          (p.length = 0 ∨ p.length + 1 = n ∧ s.indexes = []) := by
        rw [hlast, List.reverse_eq_nil_iff, List.length_eq_zero_iff]
      rw [List.reverse_append, List.reverse_singleton, List.singleton_append, cut_append_singleton]
      constructor
      · rintro ⟨t, before, after, hc, hcov, hno, hel, hrest⟩
        refine ⟨after.reverse, before.reverse ++ [t], ?_, ?_, ?_⟩
        · have := congrArg List.reverse hc
          simpa using this
        · refine ⟨before.reverse, t, rfl, hcov, fun u hu => hno u (List.mem_reverse.mp hu), fun h => ?_⟩
          obtain ⟨hstar, hend⟩ := hel (fun e => h (by simp [e]))
          exact ⟨hstar, helastic.mp hend⟩
        · rw [← ih (by omega) hfalse, List.reverse_reverse]
          exact hrest
      · rintro ⟨c', b, rfl, ⟨before, t, rfl, hcov, hno, hel⟩, hcut⟩
        refine ⟨t, before.reverse, c'.reverse, by simp, hcov, fun u hu => hno u (List.mem_reverse.mp hu),
          fun h => ?_, (ih (by omega) hfalse).mpr hcut⟩
        obtain ⟨hstar, hend⟩ := hel (fun e => h (by simp [e]))
        exact ⟨hstar, helastic.mpr hend⟩

theorem Pattern.covers_iff_aligns {p c : Pattern} :
    p.Covers c ↔ Aligns true p.segments.reverse c.segments.reverse :=
  (aligns_reverse_iff (Nat.le_refl _) (by simp)).symm

/-! ## Order -/

theorem Segment.covers_refl (s : Segment) : s.Covers s :=
  ⟨Or.inr rfl, List.forall₂_same.mpr fun _ _ => Or.inr rfl⟩

theorem aligns_refl (last : Bool) (ts : List Segment) : Aligns last ts ts := by
  induction ts generalizing last with
  | nil => rfl
  | cons t ts ih => exact ⟨t, [], ts, rfl, t.covers_refl, by simp, by simp, ih false⟩

/-- Every name covers itself, one segment a block. -/
theorem Pattern.covers_refl (p : Pattern) : p.Covers p :=
  Pattern.covers_iff_aligns.mpr (aligns_refl true _)

theorem Index.Covers.trans {g h k : Index} (hgh : g.Covers h) (hhk : h.Covers k) : g.Covers k := by
  rcases hgh with rfl | rfl
  · exact Or.inl rfl
  · exact hhk

theorem Index.forall₂_covers_trans {gs hs ks : List Index} (hgh : List.Forall₂ Index.Covers gs hs)
    (hhk : List.Forall₂ Index.Covers hs ks) : List.Forall₂ Index.Covers gs ks := by
  induction hgh generalizing ks with
  | nil => exact hhk
  | cons hg _ ih =>
      cases hhk with
      | cons hk hks => exact List.Forall₂.cons (hg.trans hk) (ih hks)

/-- Only a `*` base covers a `*` base. -/
theorem Segment.Covers.star {s t : Segment} (h : s.Covers t) (ht : t.base = .star) : s.base = .star := by
  rcases h.base with hs | hs
  · exact hs
  · refine Base.star_mem_text.mp ?_
    rw [hs, Base.star_mem_text, ht]

theorem Segment.Covers.indexes_nil {s t : Segment} (h : s.Covers t) : s.indexes = [] ↔ t.indexes = [] := by
  have hlen := h.indexes.length_eq
  rw [← List.length_eq_zero_iff, hlen, List.length_eq_zero_iff]

theorem Segment.Covers.trans {s t u : Segment} (hst : s.Covers t) (htu : t.Covers u) : s.Covers u := by
  refine ⟨?_, Index.forall₂_covers_trans hst.indexes htu.indexes⟩
  rcases htu.base with ht | ht
  · exact Or.inl (hst.star ht)
  · exact hst.base.imp id fun hs => hs.trans ht

/-- What segments without index groups cover has none either. -/
theorem exists_split_of_aligns {ts us cs : List Segment} (hts : ∀ t ∈ ts, t.indexes = [])
    (h : Aligns false (ts ++ us) cs) :
    ∃ block rest, cs = block ++ rest ∧ (∀ u ∈ block, u.indexes = []) ∧ (ts = [] → block = []) ∧
      Aligns false us rest := by
  induction ts generalizing cs with
  | nil => exact ⟨[], cs, rfl, by simp, fun _ => rfl, h⟩
  | cons t ts ih =>
      obtain ⟨c, before, after, rfl, hcov, hno, -, hrest⟩ := h
      obtain ⟨block, rest, rfl, hblock, -, hus⟩ := ih (fun u hu => hts u (List.mem_cons_of_mem t hu)) hrest
      refine ⟨c :: before ++ block, rest, by simp, ?_, by simp, hus⟩
      have hc : c.indexes = [] := hcov.indexes_nil.mp (hts t List.mem_cons_self)
      intro u hu
      rw [List.cons_append, List.mem_cons, List.mem_append] at hu
      rcases hu with rfl | hu | hu
      · exact hc
      · exact hno u hu
      · exact hblock u hu

/-- The blocks of a block make up one block. -/
theorem Aligns.trans {last : Bool} {rs ps cs : List Segment} (hrp : Aligns last rs ps) (hpc : Aligns last ps cs) :
    Aligns last rs cs := by
  induction rs generalizing last ps cs with
  | nil =>
      cases hrp
      exact hpc
  | cons r rs ih =>
      obtain ⟨p, before, after, rfl, hcov, hno, hel, hrest⟩ := hrp
      obtain ⟨c, before', after', rfl, hcov', hno', hel', hrest'⟩ := hpc
      obtain ⟨block, rest, rfl, hblock, hempty, hafter⟩ := exists_split_of_aligns hno hrest'
      refine ⟨c, before' ++ block, rest, by simp, hcov.trans hcov', ?_, ?_, ih hrest hafter⟩
      · intro u hu
        rcases List.mem_append.mp hu with hu | hu
        · exact hno' u hu
        · exact hblock u hu
      · intro hne
        by_cases hb : before = []
        · -- the segment of the middle name is elastic itself, and stands at the same end
          have hne' : before' ≠ [] := by simpa [hempty hb] using hne
          obtain ⟨hstar, hend⟩ := hel' hne'
          refine ⟨hcov.star hstar, ?_⟩
          rcases hend with hnil | ⟨hlast, hindex⟩
          · left
            rw [(List.append_eq_nil_iff.mp hnil).2] at hrest
            cases rs with
            | nil => rfl
            | cons s ss =>
                obtain ⟨t, b, a, hcontra, -⟩ := hrest
                simp at hcontra
          · exact Or.inr ⟨hlast, hcov.indexes_nil.mpr hindex⟩
        · exact hel hb

/-- A pattern covers all that a pattern covers which it covers. -/
theorem Pattern.Covers.trans {p q c : Pattern} (hpq : p.Covers q) (hqc : q.Covers c) : p.Covers c := by
  rw [Pattern.covers_iff_aligns] at hpq hqc ⊢
  exact hpq.trans hqc

end LayeredConfig.Name
