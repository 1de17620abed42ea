import LayeredConfig.Proofs.Name.Cutting
import LayeredConfig.Proofs.Name.Shape
import Mathlib.Algebra.Ring.Parity

/-!
# `LayeredConfig.Proofs.Name.TopLevel` — the dots at which a name is cut

The cutter carries one bit for the quotes and one count for the brackets. Both are facts about the text behind it: the
bit is the parity of the quotes, the count is the depth of the brackets outside them. A dot cuts where no quoted run and
no group is open. There the cutter is in its first state again, so that what follows is cut as a name of its own.

## Contents
- **State.** `bracketDepth` is the depth behind a text; `Scan.after_start` has the state of the cutter.
- **Cuts.** `CutAt` says by the segments that a dot was a cut, `cutAt_iff` by the text before it when it is one.
- **Parts.** `partSegments` are the segments of one side of a dot; `segments_cut_at_top_level`.
-/

namespace LayeredConfig.Name

open Text

/-! ## State -/

/-- How many groups are open after one more bracket; a closing bracket that closes none changes nothing. -/
def depthNext (depth : Nat) (c : Char) : Nat := if c = '[' then depth + 1 else depth - 1

/-- How many groups the brackets of a text leave open, those between quotes not counted. -/
def bracketDepth (t : Text) : Nat := (marks false t).foldl depthNext 0

theorem Scan.next_eq (s : Scan) (c : Char) :
    s.next c = ⟨quotedNext s.quoted c, (mark s.quoted c).foldl depthNext s.depth⟩ := by
  obtain ⟨quoted, depth⟩ := s
  by_cases hquote : c = '"'
  · simp [next, quotedNext, mark, hquote]
  · rw [quotedNext_of_ne hquote]
    cases quoted with
    | true => simp [next, mark, hquote]
    | false =>
        by_cases hopen : c = '['
        · simp [next, mark, depthNext, hopen]
        · by_cases hclose : c = ']'
          · simp [next, mark, depthNext, hclose]
          · simp [next, mark, hquote, hopen, hclose]

/-- The quotes and the brackets that count are all that the cutter sees of a text. -/
theorem Scan.after_eq (s : Scan) (t : Text) :
    s.after t = ⟨quotedAfter s.quoted t, (marks s.quoted t).foldl depthNext s.depth⟩ := by
  induction t generalizing s with
  | nil => rfl
  | cons c t ih => rw [Scan.after_cons, ih, Scan.next_eq, quotedAfter_cons, marks, List.foldl_append]

/-- Every quote opens a run or closes one. -/
theorem quotedAfter_eq (quoted : Bool) (t : Text) : quotedAfter quoted t = (quoted ^^ decide (Odd (t.count '"'))) := by
  induction t generalizing quoted with
  | nil => simp [quotedAfter]
  | cons c t ih =>
      rw [quotedAfter_cons, ih]
      by_cases hquote : c = '"'
      · rw [hquote, List.count_cons_self, quotedNext, if_pos rfl, decide_eq_decide.mpr Nat.odd_add_one, decide_not,
          Bool.not_xor, Bool.xor_not]
      · rw [quotedNext_of_ne hquote, List.count_cons_of_ne hquote]

/-- The state of the cutter behind a text. -/
theorem Scan.after_start (t : Text) : Scan.start.after t = ⟨decide (Odd (t.count '"')), bracketDepth t⟩ := by
  rw [Scan.after_eq, quotedAfter_eq]
  simp [start, bracketDepth]

/-- Only in its first state does the cutter cut. -/
theorem Scan.eq_start_of_cuts {s : Scan} {c : Char} (h : s.cuts c = true) : s = start := by
  obtain ⟨quoted, depth⟩ := s
  simp only [cuts, Bool.and_eq_true, Bool.not_eq_true', beq_iff_eq] at h
  rw [h.1.2, h.2, start]

theorem Scan.cuts_after_start_iff {t : Text} :
    (Scan.start.after t).cuts '.' = true ↔ Even (t.count '"') ∧ bracketDepth t = 0 := by
  rw [Scan.after_start]
  simp [cuts]

/-! ## Cuts -/

/-- The dot between two texts is a cut of the name that they make: some first segments of the name spell the text before
the dot, and those behind them the text after it. -/
def CutAt (before rest : Text) : Prop :=
  ∃ pre post, pre ≠ [] ∧ post ≠ [] ∧ segments (before ++ '.' :: rest) = pre ++ post ∧ dotted pre = before ∧ dotted post = rest

variable {before rest : Text}

theorem segments_of_dot (before rest : Text) :
    segments (before ++ '.' :: rest) = segmentsFrom .start (before ++ '.' :: rest) :=
  segments_of_ne_nil (List.append_ne_nil_of_right_ne_nil before (List.cons_ne_nil '.' rest))

theorem cutAt_iff_cuts : CutAt before rest ↔ (Scan.start.after before).cuts '.' = true := by
  constructor
  · rintro ⟨pre, post, hpre, hpost, hsegments, rfl, rfl⟩
    rw [segments_of_dot] at hsegments
    exact (eq_of_segmentsFrom_append hpre hpost hsegments).2.1
  · intro hcuts
    refine ⟨segmentsFrom .start before, segmentsFrom (Scan.start.after before) rest, segmentsFrom_ne_nil _ _,
      segmentsFrom_ne_nil _ _, ?_, dotted_segmentsFrom _ _, dotted_segmentsFrom _ _⟩
    rw [segments_of_dot, segmentsFrom_append_dot hcuts]

/-- A dot is a cut exactly when it stands outside of quotes and brackets. -/
theorem cutAt_iff : CutAt before rest ↔ Even (before.count '"') ∧ bracketDepth before = 0 :=
  cutAt_iff_cuts.trans Scan.cuts_after_start_iff

/-! ## Parts -/

/-- The segments of a text beside a dot; an empty one is an empty segment. -/
def partSegments (t : Text) : List Text := if t.isEmpty then [[]] else segments t

theorem segmentsFrom_start (t : Text) : segmentsFrom .start t = partSegments t := by
  cases t with
  | nil => rfl
  | cons c r => rfl

theorem segments_of_cutAt (h : CutAt before rest) :
    segments (before ++ '.' :: rest) = partSegments before ++ partSegments rest := by
  have hcuts := cutAt_iff_cuts.mp h
  rw [segments_of_dot, segmentsFrom_append_dot hcuts, Scan.eq_start_of_cuts hcuts, segmentsFrom_start, segmentsFrom_start]

/-- **A name is cut at its top-level dots and nowhere else.** The segments of a name make up the name again. A dot is a cut
exactly when an even number of quotes stands before it and the brackets before it that are not between quotes leave no
group open; what stands on either side of such a dot is then cut on its own. -/
theorem segments_cut_at_top_level :
    (∀ name, dotted (segments name) = name) ∧
      ∀ before rest, (CutAt before rest ↔ Even (before.count '"') ∧ bracketDepth before = 0) ∧
        (CutAt before rest → segments (before ++ '.' :: rest) = partSegments before ++ partSegments rest) :=
  ⟨dotted_segments, fun _ _ => ⟨cutAt_iff, segments_of_cutAt⟩⟩

/-- Brackets that close nothing, brackets and dots between quotes, and a group that stays open. -/
theorem segments_cut_at_top_level_unbalanced :
    CutAt "]a[\".]\".0]".toList ".x[.y".toList ∧
      segments "]a[\".]\".0]..x[.y".toList = ["]a[\".]\".0]".toList, [], "x[.y".toList] := by
  obtain ⟨-, hcut⟩ := segments_cut_at_top_level
  obtain ⟨htop, hparts⟩ := hcut "]a[\".]\".0]".toList ".x[.y".toList
  have h : CutAt "]a[\".]\".0]".toList ".x[.y".toList := htop.mpr (by decide)
  exact ⟨h, (hparts h).trans (by decide)⟩

end LayeredConfig.Name
