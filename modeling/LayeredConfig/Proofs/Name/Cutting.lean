import LayeredConfig.Name.Segment

/-!
# `LayeredConfig.Proofs.Name.Cutting` — cutting a name in two

The cutter reads a name from the left and carries only a `Scan` state. A name that goes on behind a dot at
which it is cut has therefore the segments of its beginning and then those of the rest, read in the state
that the beginning leaves; and every way to split the list of segments comes from such a dot.

## Contents
- **From the text.** `segmentsFrom_append_dot`: the dot ends one list of segments and starts the next.
- **From the segments.** `eq_of_segmentsFrom_append`: the dot that stands between two parts of the list.
-/

namespace LayeredConfig.Name

open Text

theorem consFirst_append (c : Char) {ts : List Text} (h : ts ≠ []) (us : List Text) :
    consFirst c (ts ++ us) = consFirst c ts ++ us := by
  cases ts with
  | nil => exact absurd rfl h
  | cons t r => rfl

/-- A dot between two parts of a name is the only thing that is lost when the parts are cut on their own. -/
theorem dotted_append {pre post : List Text} (hpre : pre ≠ []) (hpost : post ≠ []) :
    dotted (pre ++ post) = dotted pre ++ '.' :: dotted post :=
  joinWith_append '.' hpre hpost

/-! ## From the text to its segments -/

theorem segmentsFrom_of_cuts {s : Scan} (h : s.cuts '.' = true) (t : Text) :
    segmentsFrom s ('.' :: t) = [] :: segmentsFrom s t := by
  simp only [segmentsFrom, h, if_true]

theorem segmentsFrom_of_not_cuts {s : Scan} {c : Char} (h : s.cuts c = false) (t : Text) :
    segmentsFrom s (c :: t) = consFirst c (segmentsFrom (s.next c) t) := by
  simp [segmentsFrom, h]

/-- Behind a dot at which it cuts, the cutter starts a new list and keeps its state. -/
theorem segmentsFrom_append_dot {s : Scan} {t : Text} (h : (s.after t).cuts '.' = true) (r : Text) :
    segmentsFrom s (t ++ '.' :: r) = segmentsFrom s t ++ segmentsFrom (s.after t) r := by
  induction t generalizing s with
  | nil => exact segmentsFrom_of_cuts h r
  | cons c t ih =>
      rw [Scan.after_cons] at h
      have hrest := ih h
      cases hc : s.cuts c with
      | true =>
          have hdot := Scan.eq_dot_of_cuts hc
          subst hdot
          rw [Scan.next_dot] at hrest
          rw [List.cons_append, segmentsFrom_of_cuts hc, segmentsFrom_of_cuts hc, hrest, Scan.after_cons,
            Scan.next_dot]
          rfl
      | false =>
          rw [List.cons_append, segmentsFrom_of_not_cuts hc, segmentsFrom_of_not_cuts hc, hrest,
            consFirst_append c (segmentsFrom_ne_nil _ t), Scan.after_cons]

theorem segments_of_ne_nil {name : Text} (h : name ≠ []) : segments name = segmentsFrom .start name := by
  cases name with
  | nil => exact absurd rfl h
  | cons c r => rfl

/-! ## From the segments to the text -/

/-- Two non-empty parts of the list of segments meet at a dot of the text: the first part are the segments of
what stands before it, the second part those of the rest. -/
theorem eq_of_segmentsFrom_append {s : Scan} {t : Text} {pre post : List Text} (hpre : pre ≠ [])
    (hpost : post ≠ []) (h : segmentsFrom s t = pre ++ post) :
    t = dotted pre ++ '.' :: dotted post ∧ (s.after (dotted pre)).cuts '.' = true ∧
      segmentsFrom s (dotted pre) = pre := by
  have htext : t = dotted pre ++ '.' :: dotted post := by
    rw [← dotted_segmentsFrom s t, h, dotted_append hpre hpost]
  refine ⟨htext, ?_⟩
  clear htext
  induction t generalizing s pre with
  | nil =>
      -- a text without a dot has one segment, the list has at least two
      have hlen := congrArg List.length h
      have h1 := List.length_pos_iff.mpr hpre
      have h2 := List.length_pos_iff.mpr hpost
      simp only [segmentsFrom, List.length_append, List.length_cons, List.length_nil] at hlen
      omega
  | cons c t ih =>
      cases hc : s.cuts c with
      | true =>
          have hdot := Scan.eq_dot_of_cuts hc
          subst hdot
          rw [segmentsFrom_of_cuts hc] at h
          rcases List.cons_eq_append_iff.mp h with ⟨hnil, -⟩ | ⟨pre', rfl, hrest⟩
          · exact absurd hnil hpre
          · by_cases hp : pre' = []
            · subst hp
              exact ⟨hc, rfl⟩
            · have hjoin : dotted ([] :: pre') = '.' :: dotted pre' :=
                dotted_append (List.cons_ne_nil [] []) hp
              obtain ⟨hcut, hsegs⟩ := ih hp hrest
              rw [hjoin, Scan.after_cons, Scan.next_dot, segmentsFrom_of_cuts hc, hsegs]
              exact ⟨hcut, rfl⟩
      | false =>
          rw [segmentsFrom_of_not_cuts hc] at h
          cases hsegs : segmentsFrom (s.next c) t with
          | nil => exact absurd hsegs (segmentsFrom_ne_nil _ t)
          | cons u us =>
              rw [hsegs, consFirst] at h
              rcases List.cons_eq_append_iff.mp h with ⟨hnil, -⟩ | ⟨pre', rfl, hrest⟩
              · exact absurd hnil hpre
              · have hjoin : dotted ((c :: u) :: pre') = c :: dotted (u :: pre') :=
                  joinWith_consFirst '.' c (List.cons_ne_nil u pre')
                have hparts : segmentsFrom (s.next c) t = (u :: pre') ++ post := by
                  rw [hsegs, hrest, List.cons_append]
                obtain ⟨hcut, hpart⟩ := ih (List.cons_ne_nil u pre') hparts
                rw [hjoin, Scan.after_cons, segmentsFrom_of_not_cuts hc, hpart]
                exact ⟨hcut, rfl⟩

end LayeredConfig.Name
