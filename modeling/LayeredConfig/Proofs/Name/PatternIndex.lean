import LayeredConfig.Name.PatternIndex
import LayeredConfig.Proofs.Name.Cutting
import LayeredConfig.Proofs.Name.Literal

/-!
# `LayeredConfig.Proofs.Name.PatternIndex` — the index loses no pattern

The index compares a name only with the patterns of some buckets. That this decides the same as a comparison
with every pattern rests on two things: a bucket holds exactly the patterns with its literal prefix
(`bucket_ofPatterns`), and the literal prefix of every pattern that equals the name is one of the prefixes at
which the index looks (`exists_take_of_alike`).

## Contents
- **Buckets.** What is stored, and that no stored prefix is longer than the index knows.
- **Prefixes.** The literal prefix of a pattern, in the pattern and in the names equal to it.
- **Queries.** The index accepts a name exactly when some pattern equals it.
-/

namespace LayeredConfig.Name

open Text

namespace PatternIndex

/-! ## Buckets -/

theorem getD_addTo (b : Dict Text (List Text)) (key j : Text) (ps : List Text) :
    ((addTo b key ps).get? j).getD [] = (b.get? j).getD [] ++ if j = key then ps else [] := by
  rw [addTo, Dict.get?_insert]
  by_cases h : j = key
  · rw [if_pos h, if_pos h, h, Option.getD_some]
  · rw [if_neg h, if_neg h, List.append_nil]

/-- Behind the patterns that stood there, a bucket gets those whose literal prefix is its text, in order. -/
theorem getD_foldl_addTo (ps : List Text) (b : Dict Text (List Text)) (key : Text) :
    ((ps.foldl (fun b p => addTo b (literalPrefix p) [p]) b).get? key).getD [] =
      (b.get? key).getD [] ++ ps.filter fun p => literalPrefix p = key := by
  induction ps generalizing b with
  | nil => simp
  | cons p ps ih =>
      rw [List.foldl_cons, ih, getD_addTo, List.filter_cons, List.append_assoc]
      by_cases h : literalPrefix p = key
      · simp [h]
      · simp [h, Ne.symm h]

/-- A bucket holds exactly the patterns with its literal prefix. -/
theorem bucket_ofPatterns (ps : List Text) (key : Text) :
    ((ofPatterns ps).buckets.get? key).getD [] = ps.filter fun p => literalPrefix p = key := by
  rw [ofPatterns, ofBuckets, getD_foldl_addTo, Dict.get?_empty, Option.getD_none, List.nil_append]

theorem bucketAccepts_ofPatterns {ps : List Text} {key name : Text} :
    (ofPatterns ps).bucketAccepts key name = true ↔
      ∃ p ∈ ps, literalPrefix p = key ∧ alike p name = true := by
  rw [bucketAccepts, bucket_ofPatterns, List.any_eq_true]
  simp only [List.mem_filter, decide_eq_true_eq, and_assoc]

/-- The index knows the longest of its bucket texts. -/
theorem length_le_longest {b : Dict Text (List Text)} {key : Text} {v : List Text} (h : b.get? key = some v) :
    (segments key).length ≤ (ofBuckets b).longest := by
  have hkey : key ∈ b.keys := List.mem_map.mpr ⟨(key, v), mem_of_lookupKey h, rfl⟩
  have hlen : (segments key).length ∈ b.keys.map fun key => (segments key).length :=
    List.mem_map_of_mem hkey
  rw [ofBuckets, List.foldl_max]
  exact Nat.le_trans (List.le_max?_getD_of_mem hlen) (Nat.le_max_right _ _)

/-- The bucket of a listed pattern is there, so that the index knows a length at least as large. -/
theorem length_literalPrefix_le {ps : List Text} {p : Text} (hp : p ∈ ps) :
    (segments (literalPrefix p)).length ≤ (ofPatterns ps).longest := by
  have hmem : p ∈ ((ofPatterns ps).buckets.get? (literalPrefix p)).getD [] := by
    rw [bucket_ofPatterns, List.mem_filter]
    exact ⟨hp, decide_eq_true rfl⟩
  cases h : (ofPatterns ps).buckets.get? (literalPrefix p) with
  | none => simp [h] at hmem
  | some v => exact length_le_longest h

end PatternIndex

/-! ## Prefixes -/

/-- A literal prefix that is not empty is made of the first segments of its pattern, with at least one segment
left behind them. -/
theorem literalPrefix_parts {p : Text} (h : literalPrefix p ≠ []) :
    ∃ run post, run ≠ [] ∧ post ≠ [] ∧ segments p = run ++ post ∧ literalPrefix p = dotted run := by
  have hrun : (segments p).dropLast.takeWhile (fun s => !s.contains '*') ≠ [] := by
    intro e
    exact h (by rw [literalPrefix, e, dotted, joinWith])
  obtain ⟨mid, hmid⟩ := List.takeWhile_prefix (fun s : Text => !s.contains '*') (l := (segments p).dropLast)
  have hsegs : segments p ≠ [] := by
    intro e
    simp [e] at hrun
  refine ⟨_, mid ++ [(segments p).getLast hsegs], hrun, by simp, ?_, rfl⟩
  rw [← List.append_assoc, hmid, List.dropLast_append_getLast hsegs]

theorem star_not_mem_literalPrefix (p : Text) : '*' ∉ literalPrefix p := by
  intro hm
  rw [literalPrefix, dotted, mem_joinWith (by decide)] at hm
  obtain ⟨s, hs, hstar⟩ := hm
  have hrun := List.all_eq_true.mp List.all_takeWhile s hs
  simp [hstar] at hrun

/-- The literal prefix of a pattern is a prefix of segments of every name that equals the pattern, and at least one
segment of the name is left behind it. -/
theorem exists_take_of_alike {p name : Text} (hname : name ≠ []) (hs : '*' ∉ name) (h : alike p name = true) :
    ∃ k, k < (segments name).length ∧ k ≤ (segments (literalPrefix p)).length ∧
      dotted ((segments name).take k) = literalPrefix p := by
  by_cases hl : literalPrefix p = []
  · -- the bucket of the empty text is tried last, for every name
    refine ⟨0, ?_, Nat.zero_le _, ?_⟩
    · rw [segments_of_ne_nil hname]
      exact List.length_pos_iff.mpr (segmentsFrom_ne_nil _ name)
    · rw [hl, List.take_zero, dotted, joinWith]
  · obtain ⟨run, post, hrun, hpost, hsegs, hprefix⟩ := literalPrefix_parts hl
    have hp : p ≠ [] := by
      rintro rfl
      exact hrun (List.append_eq_nil_iff.mp hsegs.symm).1
    rw [segments_of_ne_nil hp] at hsegs
    obtain ⟨htext, hcut, hself⟩ := eq_of_segmentsFrom_append hrun hpost hsegs
    rw [← hprefix] at htext hcut hself
    -- the name starts with the same text and a dot, at which the cutter is in the same state
    have hstart : literalPrefix p ++ ['.'] <+: name := by
      refine prefix_of_alike (star_not_mem_literalPrefix p) hs ⟨dotted post, ?_⟩ h
      rw [List.append_assoc, List.singleton_append, ← htext]
    obtain ⟨rest, rfl⟩ := hstart
    rw [List.append_assoc, List.singleton_append, segments_of_ne_nil (by simp), segmentsFrom_append_dot hcut,
      hself, segments_of_ne_nil hl, hself]
    refine ⟨run.length, ?_, Nat.le_refl _, ?_⟩
    · have := List.length_pos_iff.mpr (segmentsFrom_ne_nil (Scan.start.after (literalPrefix p)) rest)
      rw [List.length_append]
      omega
    · rw [List.take_left, hprefix]

/-! ## Queries -/

namespace PatternIndex

theorem accepts_iff {x : PatternIndex} {name : Text} (hname : name ≠ []) :
    x.accepts name = true ↔
      ∃ k, k < (segments name).length ∧ k ≤ x.longest ∧
        x.bucketAccepts (dotted ((segments name).take k)) name = true := by
  have hpos := List.length_pos_iff.mpr (segmentsFrom_ne_nil .start name)
  rw [← segments_of_ne_nil hname] at hpos
  have hne : (segments name).isEmpty = false := by
    rw [List.isEmpty_eq_false_iff]
    exact List.length_pos_iff.mp hpos
  simp only [accepts, hne, Bool.not_false, Bool.true_and, List.any_reverse, List.any_eq_true, List.mem_range]
  constructor
  · rintro ⟨k, hk, hacc⟩
    exact ⟨k, by omega, by omega, hacc⟩
  · rintro ⟨k, hlen, hlong, hacc⟩
    exact ⟨k, by omega, hacc⟩

/-- For a name without wildcards, looking into the buckets of its prefixes decides the same as comparing it with
every pattern, whatever texts the patterns are. -/
theorem accepts_ofPatterns_iff (ps : List Text) {name : Text} (hname : name ≠ []) (hs : '*' ∉ name) :
    (ofPatterns ps).accepts name = true ↔ ∃ p ∈ ps, alike p name = true := by
  rw [accepts_iff hname]
  constructor
  · rintro ⟨k, -, -, hacc⟩
    obtain ⟨p, hp, -, halike⟩ := bucketAccepts_ofPatterns.mp hacc
    exact ⟨p, hp, halike⟩
  · rintro ⟨p, hp, halike⟩
    obtain ⟨k, hlen, hk, htake⟩ := exists_take_of_alike hname hs halike
    refine ⟨k, hlen, Nat.le_trans hk (length_literalPrefix_le hp), ?_⟩
    rw [htake]
    exact bucketAccepts_ofPatterns.mpr ⟨p, hp, rfl, halike⟩

/-- Patterns with unbalanced brackets and stray quotes; the last stands in the bucket of `x` and equals the name. -/
theorem accepts_stray_quote :
    (ofPatterns ["a.b".toList, "x.]*[\".y".toList, "x.*.\"y".toList]).accepts "x.q.\"y".toList = true := by
  refine (accepts_ofPatterns_iff _ (by decide) (by decide)).mpr ⟨"x.*.\"y".toList, by decide, ?_⟩
  decide +kernel

end PatternIndex

end LayeredConfig.Name
