import LayeredConfig.Proofs.Name.Cutting
import LayeredConfig.Proofs.Name.Grammar

/-!
# `LayeredConfig.Proofs.Name.Whole` — the segments of a well-formed name

The cutter takes a well-formed name apart into the texts of its segments: none of them is cut, and each leaves nothing
open behind it. So a name that goes on with a dot behind another one goes on with a segment.

## Contents
- **`Uncut`, `Whole`.** Texts that the cutter reads in one piece.
- **Segments.** `Segment.whole`, `Pattern.segmentsFrom_text`.
- **Continuation.** `Pattern.exists_segment_of_append_dot`: what stands behind a name and a dot.
-/

namespace LayeredConfig.Name

open Text

/-! ## Texts in one piece -/

/-- A text that is not cut when it is read in a given state. -/
def Uncut (s : Scan) : Text → Prop
  | [] => True
  | c :: r => s.cuts c = false ∧ Uncut (s.next c) r

theorem uncut_append {s : Scan} {t u : Text} : Uncut s (t ++ u) ↔ Uncut s t ∧ Uncut (s.after t) u := by
  induction t generalizing s with
  | nil => simp [Uncut]
  | cons c t ih =>
      rw [List.cons_append, Uncut, Uncut, ih, Scan.after_cons, and_assoc]

theorem segmentsFrom_of_uncut {s : Scan} {t : Text} (h : Uncut s t) : segmentsFrom s t = [t] := by
  induction t generalizing s with
  | nil => rfl
  | cons c t ih =>
      rw [segmentsFrom_of_not_cuts h.1, ih h.2]
      rfl

/-- Characters that change no state and are no place to cut at. -/
theorem uncut_of_idle {s : Scan} {t : Text} (h : ∀ c ∈ t, s.next c = s ∧ s.cuts c = false) :
    Uncut s t ∧ s.after t = s := by
  induction t with
  | nil => exact ⟨trivial, rfl⟩
  | cons c t ih =>
      obtain ⟨hnext, hcuts⟩ := h c List.mem_cons_self
      obtain ⟨huncut, hafter⟩ := ih fun d hd => h d (List.mem_cons_of_mem c hd)
      rw [Uncut, Scan.after_cons, hnext]
      exact ⟨⟨hcuts, huncut⟩, hafter⟩

/-- A text that is read in one piece and leaves nothing open. -/
structure Whole (t : Text) : Prop where
  uncut : Uncut .start t
  closed : Scan.start.after t = .start

theorem Whole.append {t u : Text} (ht : Whole t) (hu : Whole u) : Whole (t ++ u) where
  uncut := uncut_append.mpr ⟨ht.uncut, ht.closed.symm ▸ hu.uncut⟩
  closed := by rw [Scan.after_append, ht.closed, hu.closed]

/-! ## Segments -/

/-- Outside quotes and brackets a text without either is in one piece when it holds no dot. -/
theorem whole_of_free {t : Text} (h : ∀ c ∈ t, c ≠ '.' ∧ c ≠ '"' ∧ c ≠ '[' ∧ c ≠ ']') : Whole t := by
  obtain ⟨huncut, hafter⟩ := uncut_of_idle (s := .start) (t := t) fun c hc => by
    obtain ⟨hdot, hquote, hopen, hclose⟩ := h c hc
    simp [Scan.next, Scan.cuts, Scan.start, hdot, hquote, hopen, hclose]
  exact ⟨huncut, hafter⟩

/-- Between quotes it may hold dots. -/
theorem whole_quoted {t : Text} (h : ∀ c ∈ t, c ≠ '"') : Whole ('"' :: t ++ ['"']) := by
  obtain ⟨huncut, hafter⟩ := uncut_of_idle (s := ⟨true, 0⟩) (t := t) fun c hc => by
    simp [Scan.next, Scan.cuts, h c hc]
  constructor
  · rw [List.cons_append, Uncut, uncut_append]
    refine ⟨rfl, huncut, ?_⟩
    show Uncut (Scan.after ⟨true, 0⟩ t) ['"']
    rw [hafter]
    exact ⟨rfl, trivial⟩
  · rw [List.cons_append, Scan.after_cons, Scan.after_append]
    show (Scan.after ⟨true, 0⟩ t).after ['"'] = .start
    rw [hafter]
    rfl

theorem Base.whole (b : Base) : Whole b.text := by
  cases b with
  | plain t ne free =>
      refine whole_of_free fun c hc => ?_
      obtain ⟨hdot, hres⟩ := free c hc
      obtain ⟨hquote, hopen, hclose, -⟩ := not_mem_reserved.mp hres
      exact ⟨hdot, hquote, hopen, hclose⟩
  | quoted t ne free => exact whole_quoted fun c hc => (not_mem_reserved.mp (free c hc)).1
  | star => exact ⟨⟨rfl, trivial⟩, rfl⟩

theorem Index.whole (g : Index) : Whole g.text := by
  obtain ⟨huncut, hafter⟩ := uncut_of_idle (s := ⟨false, 1⟩) (t := g.inner) fun c hc => by
    obtain ⟨hquote, hopen, hclose⟩ := g.inner_free hc
    simp [Scan.next, Scan.cuts, hquote, hopen, hclose]
  constructor
  · rw [Index.text, List.cons_append, Uncut, uncut_append]
    refine ⟨rfl, huncut, ?_⟩
    show Uncut (Scan.after ⟨false, 1⟩ g.inner) [']']
    rw [hafter]
    exact ⟨rfl, trivial⟩
  · rw [Index.text, List.cons_append, Scan.after_cons, Scan.after_append]
    show (Scan.after ⟨false, 1⟩ g.inner).after [']'] = .start
    rw [hafter]
    rfl

theorem whole_groups (gs : List Index) : Whole (gs.flatMap Index.text) := by
  induction gs with
  | nil => exact ⟨trivial, rfl⟩
  | cons g gs ih =>
      rw [List.flatMap_cons]
      exact g.whole.append ih

theorem Segment.whole (s : Segment) : Whole s.text := s.base.whole.append (whole_groups s.indexes)

/-- Pieces with dots between them are cut at these dots. -/
theorem segmentsFrom_dotted {ts : List Text} (hne : ts ≠ []) (h : ∀ t ∈ ts, Whole t) :
    segmentsFrom .start (dotted ts) = ts ∧ Scan.start.after (dotted ts) = .start := by
  induction ts with
  | nil => exact absurd rfl hne
  | cons t ts ih =>
      have ht := h t List.mem_cons_self
      by_cases hts : ts = []
      · subst hts
        exact ⟨segmentsFrom_of_uncut ht.uncut, ht.closed⟩
      · obtain ⟨hsegs, hafter⟩ := ih hts fun u hu => h u (List.mem_cons_of_mem t hu)
        have hdot : (Scan.start.after t).cuts '.' = true := by
          rw [ht.closed]
          rfl
        have htext : dotted (t :: ts) = t ++ '.' :: dotted ts := dotted_append (List.cons_ne_nil t []) hts
        constructor
        · rw [htext, segmentsFrom_append_dot hdot, segmentsFrom_of_uncut ht.uncut, ht.closed, hsegs,
            List.singleton_append]
        · rw [htext, Scan.after_append, ht.closed, Scan.after_cons, Scan.next_dot, hafter]

/-- The cutter takes a well-formed name apart into the texts of its segments. -/
theorem Pattern.segmentsFrom_text (p : Pattern) :
    segmentsFrom .start p.text = p.segments.map Segment.text ∧ Scan.start.after p.text = .start := by
  refine segmentsFrom_dotted (by simpa using p.ne) fun t ht => ?_
  obtain ⟨s, -, rfl⟩ := List.mem_map.mp ht
  exact s.whole

/-! ## Continuation -/

/-- What stands behind a name and a dot starts with a segment, where the two make up a name. -/
theorem Pattern.exists_segment_of_append_dot {p q : Pattern} {rest : Text} (h : p.text = q.text ++ '.' :: rest) :
    ∃ s ∈ p.segments, ∃ u, rest = s.text ++ u ∧ (u = [] ∨ ∃ v, u = '.' :: v) := by
  obtain ⟨hq, hclosed⟩ := q.segmentsFrom_text
  have hdot : (Scan.start.after q.text).cuts '.' = true := by
    rw [hclosed]
    rfl
  have hsegs : p.segments.map Segment.text = q.segments.map Segment.text ++ segmentsFrom .start rest := by
    rw [← p.segmentsFrom_text.1, h, segmentsFrom_append_dot hdot, hq, hclosed]
  obtain ⟨qs, rs, hsplit, -, hrest⟩ := List.map_eq_append_iff.mp hsegs
  have htext : rest = dotted (rs.map Segment.text) := by rw [hrest, dotted_segmentsFrom]
  cases rs with
  | nil => exact absurd hrest.symm (segmentsFrom_ne_nil _ _)
  | cons s rs =>
      refine ⟨s, by simp [hsplit], ?_⟩
      by_cases hrs : rs = []
      · subst hrs
        exact ⟨[], by rw [htext, List.append_nil]; rfl, Or.inl rfl⟩
      · refine ⟨'.' :: dotted (rs.map Segment.text), ?_, Or.inr ⟨_, rfl⟩⟩
        rw [htext, List.map_cons]
        exact dotted_append (List.cons_ne_nil s.text []) (by simpa using hrs)

end LayeredConfig.Name
