import LayeredConfig.Secret
import LayeredConfig.Proofs.Name.Shape

/-!
# `LayeredConfig.Proofs.Name.Hash` — equal names hash alike

The well-formed names of `Pattern` keep brackets out of quotes. The names of this file need not: between quotes all
characters but the quote and the wildcard may stand, and bases may be empty. Such names are still closed texts, so that
the hash of equal ones is the same.

## Contents
- **Trees.** `Wide.Base`, `Wide.Segment`, `Wide.Pattern`, and the `text` of each.
- **Hash.** `Wide.Pattern.closed`, and `Wide.shapeHash_eq_of_alike` for the hash and for sets of names.
-/

namespace LayeredConfig.Name

namespace Wide

/-! ## Trees -/

/-- The base of a segment: a plain text, a quoted text, in which dots and brackets may stand, or the wildcard. -/
inductive Base where
  | plain (text : Text) (free : ∀ c ∈ text, c ≠ '.' ∧ c ∉ reserved)
  | quoted (text : Text) (free : ∀ c ∈ text, c ≠ '"' ∧ c ≠ '*')
  | star

/-- How a base is written. -/
def Base.text : Base → Text
  | .plain t _ => t
  | .quoted t _ => '"' :: t ++ ['"']
  | .star => ['*']

/-- A segment: a base and its index groups, the outermost first. -/
structure Segment where
  base : Base
  indexes : List Index

/-- How a segment is written. -/
def Segment.text (s : Segment) : Text := s.base.text ++ s.indexes.flatMap Index.text

/-- A name, with or without wildcards. -/
structure Pattern where
  segments : List Segment

/-- How a name is written. -/
def Pattern.text (p : Pattern) : Text := dotted (p.segments.map Segment.text)

/-! ## Hash -/

theorem Base.closed (b : Base) : Closed b.text := by
  cases b with
  | plain t free => exact closed_of_not_mem fun hm => (free '"' hm).2 (by simp [reserved])
  | quoted t free => exact closed_quoted free
  | star => exact closed_of_not_mem (by decide)

theorem Pattern.closed (p : Pattern) : Closed p.text := by
  apply closed_dotted
  intro t ht
  obtain ⟨s, -, rfl⟩ := List.mem_map.mp ht
  exact s.base.closed.append_indexes s.indexes

/-- **Equal names hash alike**, with wildcards on either side or both. So a set of names that holds an entry equal to a
name finds it: the comparison of hashes in front of the scanner rules none out. -/
theorem shapeHash_eq_of_alike (a b : Pattern) (h : alike a.text b.text = true) :
    shapeHash a.text = shapeHash b.text ∧ ∀ s : SecretSet, a.text ∈ s.patterns → s.holds b.text = true := by
  have hhash : shapeHash a.text = shapeHash b.text := a.closed.shapeHash_eq b.closed h
  refine ⟨hhash, ?_⟩
  intro s hs
  unfold SecretSet.holds
  rw [List.any_eq_true]
  refine ⟨a.text, hs, ?_⟩
  rw [SecretSet.sameEntry, hhash, h, beq_self_eq_true]
  rfl

/-- A `*` that takes two segments, one of them a `*`; groups with a `*` on either side; and a quoted run whose brackets
are no group. -/
theorem shapeHash_eq_of_alike_overlapping :
    let quotedBase : Base := .quoted "x.[1]".toList (by decide)
    let plainBase : Base := .plain "b".toList (by decide)
    let a : Pattern := ⟨[⟨.star, []⟩, ⟨quotedBase, [.any]⟩, ⟨plainBase, [.digits "3".toList (by decide)]⟩]⟩
    let b : Pattern := ⟨[⟨.star, []⟩, ⟨plainBase, []⟩, ⟨quotedBase, [.digits "7".toList (by decide)]⟩, ⟨plainBase, [.any]⟩]⟩
    a.text = "*.\"x.[1]\"[*].b[3]".toList ∧ b.text = "*.b.\"x.[1]\"[7].b[*]".toList ∧ alike a.text b.text = true ∧
      shapeHash a.text = shapeHash b.text ∧ ∀ s : SecretSet, a.text ∈ s.patterns → s.holds b.text = true := by
  intro quotedBase plainBase a b
  have halike : alike a.text b.text = true := by decide +kernel
  exact ⟨by decide, by decide, halike, shapeHash_eq_of_alike a b halike⟩

end Wide

end LayeredConfig.Name
