import LayeredConfig.Proofs.Name.Cover

/-!
# `LayeredConfig.Proofs.Name.Sample` — one name that speaks for a pattern

A pattern covers infinitely many names. One of them is enough to find out which other patterns cover all of them:
every `*` stands for one segment and every `[*]` for one index whose texts are longer than anything that the other
patterns write out.

## Contents
- **The name.** `sample n` fills the wildcards with texts longer than `n`; the pattern covers it.
- **What it tells.** A pattern whose text is no longer than `n` covers the sample only when it covers the pattern
  (`Pattern.covers_sample_iff`).
-/

namespace LayeredConfig.Name

open Text

/-! ## Wildcards filled in -/

/-- A base in which a plain text of `n + 1` characters stands for the wildcard. -/
def Base.sample (n : Nat) : Base → Base
  | .star => .plain (List.replicate (n + 1) 'x') (by simp) fun c hc => by
      rw [List.eq_of_mem_replicate hc]
      decide
  | b => b

/-- An index in which `n + 1` digits stand for the wildcard. -/
def Index.sample (n : Nat) : Index → Index
  | .any => .digits (List.replicate (n + 1) '0') (by simp [isNumeric])
  | g => g

/-- A segment with its wildcards filled in. -/
def Segment.sample (n : Nat) (s : Segment) : Segment := ⟨s.base.sample n, s.indexes.map (Index.sample n)⟩

/-- A name with its wildcards filled in. -/
def Pattern.sample (n : Nat) (p : Pattern) : Pattern := ⟨p.segments.map (Segment.sample n), by simp [p.ne]⟩

theorem Segment.isConcrete_sample (n : Nat) (s : Segment) : (s.sample n).IsConcrete := by
  constructor
  · show s.base.sample n ≠ .star
    cases s.base <;> simp [Base.sample]
  · intro g hg
    obtain ⟨h, -, rfl⟩ := List.mem_map.mp hg
    cases h <;> simp [Index.sample]

theorem Pattern.isConcrete_sample (n : Nat) (p : Pattern) : (p.sample n).IsConcrete := by
  intro s hs
  obtain ⟨t, -, rfl⟩ := List.mem_map.mp hs
  exact t.isConcrete_sample n

theorem Segment.covers_sample (n : Nat) (s : Segment) : s.Covers (s.sample n) := by
  constructor
  · show s.base = .star ∨ s.base.text = (s.base.sample n).text
    cases s.base with
    | star => exact Or.inl rfl
    | plain t ne free => exact Or.inr rfl
    | quoted t ne free => exact Or.inr rfl
  · show List.Forall₂ Index.Covers s.indexes (s.indexes.map (Index.sample n))
    rw [List.forall₂_map_right_iff, List.forall₂_same]
    intro g _
    cases g with
    | any => exact Or.inl rfl
    | digits t numeric => exact Or.inr rfl

theorem aligns_sample (n : Nat) (last : Bool) (ts : List Segment) :
    Aligns last ts (ts.map (Segment.sample n)) := by
  induction ts generalizing last with
  | nil => rfl
  | cons t ts ih => exact ⟨t.sample n, [], _, rfl, t.covers_sample n, by simp, by simp, ih false⟩

/-- A pattern covers its sample, one segment a block. -/
theorem Pattern.covers_sample (n : Nat) (p : Pattern) : p.Covers (p.sample n) := by
  rw [Pattern.covers_iff_aligns]
  show Aligns true p.segments.reverse (p.segments.map (Segment.sample n)).reverse
  rw [← List.map_reverse]
  exact aligns_sample n true _

/-! ## What a sample tells -/

theorem Segment.length_base_le (s : Segment) : s.base.text.length ≤ s.text.length := by
  rw [Segment.text, List.length_append]
  exact Nat.le_add_right _ _

theorem Segment.length_index_le {s : Segment} {g : Index} (hg : g ∈ s.indexes) : g.text.length ≤ s.text.length := by
  obtain ⟨before, after, hsplit⟩ := List.append_of_mem hg
  simp only [Segment.text, hsplit, List.flatMap_append, List.flatMap_cons, List.length_append]
  omega

theorem Index.covers_of_covers_sample {n : Nat} {g h : Index} (hg : g.text.length ≤ n)
    (hc : g.Covers (h.sample n)) : g.Covers h := by
  rcases hc with rfl | rfl
  · exact Or.inl rfl
  · cases h with
    | digits t numeric => exact Or.inr rfl
    | any =>
        have hsample : (Index.any.sample n).text.length = n + 3 := by
          simp [Index.sample, Index.text, Index.inner]
        omega

/-- What a short segment covers in the sample it covers in the pattern: it does not write out what stands for the
wildcards. -/
theorem Segment.covers_of_covers_sample {n : Nat} {s t : Segment} (hs : s.text.length ≤ n)
    (h : s.Covers (t.sample n)) : s.Covers t := by
  constructor
  · rcases h.base with hb | hb
    · exact Or.inl hb
    · refine Or.inr (hb.trans ?_)
      show (t.base.sample n).text = t.base.text
      have hlen := s.length_base_le
      rw [hb] at hlen
      cases htb : t.base with
      | plain u ne free => rfl
      | quoted u ne free => rfl
      | star =>
          -- what stands for the wildcard is longer than the whole segment that should write it out
          have hsample : (t.sample n).base.text.length = n + 1 := by
            simp [Segment.sample, htb, Base.sample, Base.text]
          omega
  · have hidx : List.Forall₂ Index.Covers s.indexes (t.indexes.map (Index.sample n)) := h.indexes
    rw [List.forall₂_map_right_iff] at hidx
    have hlen : ∀ g ∈ s.indexes, g.text.length ≤ n := fun g hg => Nat.le_trans (Segment.length_index_le hg) hs
    refine List.Forall₂.imp ?_ ((List.forall₂_and_left _ _).mpr ⟨hlen, hidx⟩)
    intro g k hgk
    exact Index.covers_of_covers_sample hgk.1 hgk.2

theorem aligns_of_aligns_sample {n : Nat} {last : Bool} {ss ts : List Segment} (hss : ∀ s ∈ ss, s.text.length ≤ n)
    (h : Aligns last ss (ts.map (Segment.sample n))) : Aligns last ss ts := by
  induction ss generalizing last ts with
  | nil => exact List.map_eq_nil_iff.mp h
  | cons s ss ih =>
      obtain ⟨t', before', after', heq, hcov, hno, hel, hrest⟩ := h
      obtain ⟨front, after, rfl, hfront, rfl⟩ := List.map_eq_append_iff.mp heq
      obtain ⟨t, before, rfl, rfl, rfl⟩ := List.map_eq_cons_iff.mp hfront
      refine ⟨t, before, after, rfl, ?_, ?_, ?_, ?_⟩
      · exact Segment.covers_of_covers_sample (hss s List.mem_cons_self) hcov
      · intro u hu
        have := hno (u.sample n) (List.mem_map_of_mem hu)
        simpa [Segment.sample] using this
      · simpa using hel
      · exact ih (fun u hu => hss u (List.mem_cons_of_mem s hu)) hrest

/-- A pattern that is no longer than `n` covers the sample of another pattern exactly when it covers that pattern. -/
theorem Pattern.covers_sample_iff {n : Nat} {p q : Pattern} (hq : q.text.length ≤ n) :
    q.Covers (p.sample n) ↔ q.Covers p := by
  constructor
  · intro h
    rw [Pattern.covers_iff_aligns] at h ⊢
    refine aligns_of_aligns_sample (n := n) ?_ ?_
    · intro s hs
      have hmem : s.text ∈ q.segments.map Segment.text := List.mem_map_of_mem (List.mem_reverse.mp hs)
      exact Nat.le_trans (length_le_joinWith '.' hmem) hq
    · rw [List.map_reverse]
      exact h
  · intro h
    exact h.trans (p.covers_sample n)

end LayeredConfig.Name
