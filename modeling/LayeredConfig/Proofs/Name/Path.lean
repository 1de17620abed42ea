import LayeredConfig.Proofs.Name.Groups
import LayeredConfig.Proofs.Name.Whole

/-!
# `LayeredConfig.Proofs.Name.Path` — paths and their steps

The paths of this file are the names by which a tree of paths is built and searched. They are wider than the
well-formed names of patterns: a plain base may hold a `*` among other characters, a quoted base may be empty or hold
brackets. What they have in common with them is that each is written in one way and taken apart again.

## Contents
- **Trees.** `PathBase`, `PathSegment`, `Path`, the `text` of each and the `steps` of the last two.
- **Groups.** A segment is taken apart into its steps (`PathSegment.splitGroups_text`).
- **Paths.** So is a path (`Path.keySteps_text`); no step is the recursive marker (`Path.ne_recursive_of_mem_steps`).
-/

namespace LayeredConfig.Name

open Text

/-! ## Trees -/

/-- The recursive marker, which is no base of a path. -/
def recursiveMarker : Text := ['*', '*']

/-- The base of a segment: a plain text, among them the wildcard, or a text between quotes. -/
inductive PathBase where
  | plain (text : Text) (ne : text ≠ []) (free : ∀ c ∈ text, c ≠ '.' ∧ c ≠ '"' ∧ c ≠ '[' ∧ c ≠ ']')
      (single : text ≠ recursiveMarker)
  | quoted (text : Text) (free : ∀ c ∈ text, c ≠ '"')

/-- How a base is written. -/
def PathBase.text : PathBase → Text
  | .plain t _ _ _ => t
  | .quoted t _ => '"' :: t ++ ['"']

/-- A base and its index groups, the outermost first. -/
structure PathSegment where
  base : PathBase
  indexes : List Index

namespace PathSegment

/-- How a segment is written. -/
def text (s : PathSegment) : Text := s.base.text ++ s.indexes.flatMap Index.text

/-- The steps of a segment: its base, then each of its groups; a quoted base keeps its groups in its step. -/
def steps (s : PathSegment) : List Text :=
  match s.base with
  | .plain t _ _ _ => t :: s.indexes.map Index.text
  | .quoted _ _ => [s.text]

end PathSegment

/-- A path without recursive marker. -/
structure Path where
  segments : List PathSegment
  ne : segments ≠ []

namespace Path

/-- How a path is written. -/
def text (p : Path) : Text := dotted (p.segments.map PathSegment.text)

/-- The steps of a path from left to right. -/
def steps (p : Path) : List Text := p.segments.flatMap PathSegment.steps

end Path

/-! ## Groups -/

theorem readGroups_text (gs : List Index) : readGroups (gs.flatMap Index.text) = .groups (gs.map Index.text) := by
  induction gs with
  | nil => simp [readGroups]
  | cons g gs ih =>
      have hcut := g.cut_text (gs.flatMap Index.text)
      have hindex : isIndex g.inner = true := isIndex_iff.mpr ⟨g, rfl⟩
      rw [List.flatMap_cons, readGroups, if_neg (by simp [Index.text])]
      split
      · next h => rw [hcut] at h; cases h
      · next h => rw [hcut] at h; cases h
      · next b inner rest h =>
          rw [hcut, Option.some.injEq, Prod.mk.injEq, List.cons.injEq] at h
          obtain ⟨⟨rfl, rfl⟩, rfl⟩ := h
          rw [if_neg (by decide), if_pos ⟨rfl, hindex⟩, ih]
          rfl

theorem getLast?_groups {gs : List Index} (hne : gs ≠ []) : (gs.flatMap Index.text).getLast? = some ']' := by
  induction gs with
  | nil => exact absurd rfl hne
  | cons g gs ih =>
      have hgroup : g.text.getLast? = some ']' := List.getLast?_concat
      rw [List.flatMap_cons, List.getLast?_append]
      by_cases hgs : gs = []
      · subst hgs
        exact hgroup
      · rw [ih hgs]
        rfl

/-- A segment is taken apart into its steps. -/
theorem PathSegment.splitGroups_text (s : PathSegment) : splitGroups s.text = some s.steps := by
  obtain ⟨base, indexes⟩ := s
  cases base with
  | quoted t free =>
      -- a quoted base is not looked at any further
      have hhead : (PathSegment.mk (.quoted t free) indexes).text.head? = some '"' := rfl
      rw [splitGroups, hhead, if_pos (by simp)]
      rfl
  | plain t ne free single =>
      have hbracket : '[' ∉ t := fun h => (free '[' h).2.2.1 rfl
      by_cases hindexes : indexes = []
      · subst hindexes
        have hlast : t.getLast? ≠ some ']' := fun h => (free ']' (List.mem_of_getLast? h)).2.2.2 rfl
        show splitGroups (t ++ []) = some [t]
        rw [List.append_nil, splitGroups, if_pos]
        simpa using Or.inl hlast
      · have hgroups := getLast?_groups hindexes
        have hlast : (t ++ indexes.flatMap Index.text).getLast? = some ']' := by
          rw [List.getLast?_append, hgroups]
          rfl
        have hhead : ((t ++ indexes.flatMap Index.text).head? == some '"') = false := by
          obtain ⟨c, r, rfl⟩ := List.exists_cons_of_ne_nil ne
          have hc := (free c List.mem_cons_self).2.1
          simpa using hc
        obtain ⟨g, gs, rfl⟩ := List.exists_cons_of_ne_nil hindexes
        have hrest : (g :: gs).flatMap Index.text = '[' :: (g.inner ++ ']' :: gs.flatMap Index.text) := by
          simp [Index.text]
        have hcut : cut '[' (t ++ (g :: gs).flatMap Index.text) = some (t, g.inner ++ ']' :: gs.flatMap Index.text) := by
          rw [hrest, cut_append hbracket]
        show splitGroups (t ++ (g :: gs).flatMap Index.text) = _
        unfold splitGroups
        rw [hlast, hhead, if_neg (by decide), hcut]
        dsimp only
        rw [← hrest, readGroups_text]
        simp [ne, steps]

/-! ## Paths -/

theorem PathBase.whole (b : PathBase) : Whole b.text := by
  cases b with
  | plain t ne free single => exact whole_of_free free
  | quoted t free => exact whole_quoted free

theorem PathSegment.whole (s : PathSegment) : Whole s.text := s.base.whole.append (whole_groups s.indexes)

theorem PathSegment.text_ne_nil (s : PathSegment) : s.text ≠ [] := by
  obtain ⟨base, indexes⟩ := s
  cases base with
  | plain t ne free single => exact List.append_ne_nil_of_left_ne_nil ne _
  | quoted t free => exact List.cons_ne_nil _ _

namespace Path

variable (p : Path)

theorem segments_text : Name.segments p.text = p.segments.map PathSegment.text := by
  have hne : p.segments.map PathSegment.text ≠ [] := by simpa using p.ne
  have hwhole : ∀ t ∈ p.segments.map PathSegment.text, Whole t := by
    intro t ht
    obtain ⟨s, -, rfl⟩ := List.mem_map.mp ht
    exact s.whole
  have hsegments := (segmentsFrom_dotted hne hwhole).1
  have htext : p.text ≠ [] := by
    intro hnil
    -- the empty text is one segment, and no segment of a path is empty
    have hempty : p.segments.map PathSegment.text = [[]] := by
      rw [← hsegments]
      show segmentsFrom .start p.text = _
      rw [hnil]
      rfl
    obtain ⟨s, -, hs⟩ := List.mem_map.mp (hempty ▸ List.mem_singleton_self ([] : Text))
    exact s.text_ne_nil hs
  rw [segments_of_ne_nil htext]
  exact hsegments

/-- A path is taken apart into its steps. -/
theorem keySteps_text : keySteps p.text = some p.steps := by
  have hsplit : p.segments.mapM (splitGroups ∘ PathSegment.text) = some (p.segments.map PathSegment.steps) :=
    mapM_eq_some_map fun s _ => s.splitGroups_text
  rw [keySteps, segments_text, List.mapM_map, hsplit, Option.map_some, steps, List.flatMap_def]

theorem ne_recursive_of_mem_steps {s : Text} (h : s ∈ p.steps) : s ≠ recursiveMarker := by
  obtain ⟨⟨base, indexes⟩, -, hs⟩ := List.mem_flatMap.mp h
  cases base with
  | plain t ne free single =>
      rcases List.mem_cons.mp hs with rfl | hs
      · exact single
      · obtain ⟨g, -, rfl⟩ := List.mem_map.mp hs
        simp [Index.text, recursiveMarker]
  | quoted t free =>
      rw [List.mem_singleton.mp hs]
      simp [PathSegment.text, PathBase.text, recursiveMarker]

/-- Nor is any step of paths that are listed with values. -/
theorem ne_recursive_of_mem_map {α : Type} {es : List (Path × α)} :
    ∀ e ∈ es.map fun e => (e.1.steps, e.2), ∀ s ∈ e.1, s ≠ recursiveMarker := by
  intro e he s hs
  obtain ⟨d, -, rfl⟩ := List.mem_map.mp he
  exact d.1.ne_recursive_of_mem_steps hs

end Path

end LayeredConfig.Name
