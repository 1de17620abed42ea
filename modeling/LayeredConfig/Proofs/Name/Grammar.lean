import LayeredConfig.Name.Wildcard
import Mathlib.Data.List.Forall2

/-!
# `LayeredConfig.Proofs.Name.Grammar` — well-formed names as trees

A well-formed name is a non-empty sequence of segments with dots between them. A segment is a base followed
by any number of index groups. The trees of this file carry what makes them well-formed, so that each of them
has exactly one written form and no theorem on them repeats a condition on characters.

## Contents
- **Trees.** `Base`, `Index`, `Segment`, `Pattern`, and the `text` of each.
- **Characters.** Which characters stand nowhere in a base or between the brackets of a group.
- **Concrete names.** A name without `*` holds neither a `*` base nor a `[*]` group (`Pattern.IsConcrete`).
- **From the right.** `back` writes segments, the last one first, with every text reversed; `behind` writes
  them behind another one (`back_cons`, `Pattern.reverse_text`).
-/

namespace LayeredConfig.Name

open Text

/-! ## Trees -/

/-- The characters that stand in no base text: the quote, the brackets and the wildcard. -/
def reserved : List Char := ['"', '[', ']', '*']

/-- The base of a segment: a plain text, a quoted text, in which dots may stand, or the wildcard. -/
inductive Base where
  | plain (text : Text) (ne : text ≠ []) (free : ∀ c ∈ text, c ≠ '.' ∧ c ∉ reserved)
  | quoted (text : Text) (ne : text ≠ []) (free : ∀ c ∈ text, c ∉ reserved)
  | star
  deriving DecidableEq

/-- How a base is written. -/
def Base.text : Base → Text
  | .plain t _ _ => t
  | .quoted t _ _ => '"' :: t ++ ['"']
  | .star => ['*']

/-- What an index group holds: digits or the wildcard. -/
inductive Index where
  | digits (text : Text) (numeric : isNumeric text = true)
  | any
  deriving DecidableEq

/-- What stands between the brackets of a group. -/
def Index.inner : Index → Text
  | .digits t _ => t
  | .any => ['*']

/-- How an index group is written. -/
def Index.text (g : Index) : Text := '[' :: g.inner ++ [']']

/-- A segment: a base and its index groups, the outermost first. -/
structure Segment where
  base : Base
  indexes : List Index
  deriving DecidableEq

/-- How a segment is written. -/
def Segment.text (s : Segment) : Text := s.base.text ++ s.indexes.flatMap Index.text

/-- A well-formed name, with or without wildcards. -/
structure Pattern where
  segments : List Segment
  ne : segments ≠ []
  deriving DecidableEq

/-- How a well-formed name is written. -/
def Pattern.text (p : Pattern) : Text := dotted (p.segments.map Segment.text)

/-! ## Characters -/

theorem not_mem_reserved {c : Char} : c ∉ reserved ↔ c ≠ '"' ∧ c ≠ '[' ∧ c ≠ ']' ∧ c ≠ '*' := by
  simp [reserved]

/-- The brackets of a group are the only ones in it. -/
theorem Index.inner_free (g : Index) {c : Char} (hc : c ∈ g.inner) : c ≠ '"' ∧ c ≠ '[' ∧ c ≠ ']' := by
  cases g with
  | digits t numeric =>
      have hdigit := isDigit_of_isNumeric numeric hc
      refine ⟨?_, ?_, ?_⟩ <;> (rintro rfl; exact absurd hdigit (by decide))
  | any =>
      rw [List.mem_singleton.mp hc]
      decide

/-! ## Concrete names -/

/-- A segment without a wildcard. -/
def Segment.IsConcrete (s : Segment) : Prop := s.base ≠ .star ∧ ∀ g ∈ s.indexes, g ≠ .any

/-- A name without a wildcard. -/
def Pattern.IsConcrete (p : Pattern) : Prop := ∀ s ∈ p.segments, s.IsConcrete

/-- Digits hold no wildcard. -/
theorem star_not_mem_of_isNumeric {t : Text} (h : isNumeric t = true) : '*' ∉ t :=
  fun hm => absurd (isDigit_of_isNumeric h hm) (by decide)

theorem Base.star_mem_text {b : Base} : '*' ∈ b.text ↔ b = .star := by
  cases b with
  | plain t ne free =>
      simp only [Base.text, reduceCtorEq, iff_false]
      exact fun hm => (free '*' hm).2 (by simp [reserved])
  | quoted t ne free =>
      simp only [Base.text, reduceCtorEq, iff_false, List.cons_append, List.mem_cons, List.mem_append]
      rintro (h | h | h)
      · exact absurd h (by decide)
      · exact free '*' h (by simp [reserved])
      · simp at h
  | star => simp [Base.text]

theorem Index.star_mem_text {g : Index} : '*' ∈ g.text ↔ g = .any := by
  cases g with
  | digits t numeric =>
      have ht := star_not_mem_of_isNumeric numeric
      simp [Index.text, Index.inner, ht]
  | any => simp [Index.text, Index.inner]

theorem Segment.star_not_mem_text {s : Segment} : '*' ∉ s.text ↔ s.IsConcrete := by
  simp only [Segment.text, List.mem_append, List.mem_flatMap, not_or, not_exists, not_and,
    Base.star_mem_text, Index.star_mem_text, Segment.IsConcrete, ne_eq]

/-- A name is concrete exactly when no wildcard is written in it. -/
theorem Pattern.star_not_mem_text {p : Pattern} : '*' ∉ p.text ↔ p.IsConcrete := by
  simp only [Pattern.text, dotted, mem_joinWith (show '*' ≠ '.' by decide), List.mem_map,
    exists_exists_and_eq_and, not_exists, not_and, Segment.star_not_mem_text, Pattern.IsConcrete]

/-! ## From the right -/

/-- A base, read from the right. -/
def Base.back (b : Base) : Text := b.text.reverse

/-- An index group, read from the right. -/
def Index.back (g : Index) : Text := g.text.reverse

/-- A segment, read from the right. -/
def Segment.back (s : Segment) : Text := s.text.reverse

/-- The text of segments that are given the last one first, read from the right. -/
def back (ts : List Segment) : Text := dotted (ts.map Segment.back)

/-- The same, behind a segment to the right of them. -/
def behind : List Segment → Text
  | [] => []
  | t :: ts => '.' :: back (t :: ts)

theorem back_cons (t : Segment) (ts : List Segment) : back (t :: ts) = t.back ++ behind ts := by
  cases ts with
  | nil => simp [back, behind, dotted, joinWith]
  | cons u us => rfl

/-- The text of a name, read from the right. -/
theorem Pattern.reverse_text (p : Pattern) : p.text.reverse = back p.segments.reverse := by
  rw [Pattern.text, dotted, reverse_joinWith, ← List.map_reverse, List.map_map]
  rfl

/-- A segment starts, from the right, with its last group; its base comes last. -/
theorem Segment.back_eq (s : Segment) :
    s.back = s.indexes.reverse.flatMap Index.back ++ s.base.back := by
  rw [Segment.back, Segment.text, List.reverse_append, List.reverse_flatMap]
  rfl

theorem Index.back_eq (g : Index) : g.back = ']' :: (g.inner.reverse ++ ['[']) := by
  simp [Index.back, Index.text]

/-- A base, from the right, starts with no bracket. -/
theorem Base.back_eq_cons (b : Base) : ∃ c u, b.back = c :: u ∧ c ≠ ']' := by
  cases b with
  | plain t ne free =>
      obtain ⟨c, u, h⟩ := List.exists_cons_of_ne_nil (List.reverse_ne_nil_iff.mpr ne)
      refine ⟨c, u, h, ?_⟩
      have hc : c ∈ t := List.mem_reverse.mp (h ▸ List.mem_cons_self)
      intro e
      exact (free c hc).2 (by simp [reserved, e])
  | quoted t ne free => exact ⟨'"', t.reverse ++ ['"'], by simp [Base.back, Base.text], by decide⟩
  | star => exact ⟨'*', [], rfl, by decide⟩

/-- A base that is no wildcard holds neither `*` nor a closing bracket. -/
theorem Base.mem_back_of_ne_star {b : Base} (hb : b ≠ .star) {c : Char} (hc : c ∈ b.back) :
    c ≠ '*' ∧ c ≠ ']' := by
  rw [Base.back, List.mem_reverse] at hc
  cases b with
  | plain t ne free =>
      have hres := (free c hc).2
      constructor <;> (rintro rfl; exact hres (by simp [reserved]))
  | quoted t ne free =>
      simp only [Base.text, List.cons_append, List.mem_cons, List.mem_append, List.not_mem_nil,
        or_false] at hc
      rcases hc with rfl | hc | rfl
      · decide
      · have hres := free c hc
        constructor <;> (rintro rfl; exact hres (by simp [reserved]))
      · decide
  | star => exact absurd rfl hb

/-- What stands behind a segment is nothing, or starts with the dot between the two. -/
theorem head_behind (ts : List Segment) : behind ts = [] ∨ ∃ u, behind ts = '.' :: u := by
  cases ts with
  | nil => exact Or.inl rfl
  | cons t us => exact Or.inr ⟨_, rfl⟩

end LayeredConfig.Name
