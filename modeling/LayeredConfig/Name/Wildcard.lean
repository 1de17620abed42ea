import LayeredConfig.Name.Segment

/-!
# `LayeredConfig.Name.Wildcard` — names with wildcards

A `*` that stands alone in a segment matches one segment on the other side, `[*]` matches any `[digits]`.
A `*` at either end of its pattern may absorb several segments. A `*` never matches a segment that carries
brackets.

Patterns are read from the right, so that an index group is met before its base: every function here takes
reversed texts.

## Contents
- **Segments from the right.** `dropSegment` removes one segment, `stops` lists what is left after a `*` has
  absorbed one or more.
- **Matching.** `matchesRev` and `matchesPattern`; the wildcards are those of the pattern only.
- **Equality.** `alike` is symmetric (`alike_comm`) and reflexive (`alike_refl`).
- **Hash.** `shapeHash` covers the brackets outside quoted runs.
-/

namespace LayeredConfig.Name

open Text

/-! ## Segments from the right -/

/-- Removes the last segment of a reversed name: a quoted run that is not empty, or a non-empty run without
dots and brackets. -/
def dropSegment : Text → Option Text
  | [] => none
  | c :: r =>
      if c = '"' then
        match cut '"' r with
        | some (inner, rest) => if inner.isEmpty then none else some rest
        | none => none
      else
        let segment := (c :: r).takeWhile (· != '.')
        if segment.isEmpty || segment.any (fun d => d == '[' || d == ']') then none
        else some ((c :: r).dropWhile (· != '.'))

theorem length_dropSegment {t u : Text} (h : dropSegment t = some u) : u.length < t.length := by
  unfold dropSegment at h
  split at h
  · simp at h
  · next c r =>
      split at h
      · split at h
        · next inner rest hc =>
            split at h
            · simp at h
            · have := length_of_cut hc
              simp only [Option.some.injEq] at h
              subst h
              simp only [List.length_cons]
              omega
        · simp at h
      · dsimp only at h
        split at h
        · simp at h
        · next hs =>
            simp only [Option.some.injEq] at h
            subst h
            have hlen := congrArg List.length
              (List.takeWhile_append_dropWhile (p := (· != '.')) (l := c :: r))
            rw [List.length_append] at hlen
            have hpos : 0 < ((c :: r).takeWhile (· != '.')).length := by
              apply List.length_pos_iff.mpr
              intro e
              simp [e] at hs
            omega

/-- What is left of a reversed name after a `*` has absorbed one segment, and, when it is elastic, after each
further one. -/
def stops (elastic : Bool) (t : Text) : List Text :=
  match _h : dropSegment t with
  | none => []
  | some ('.' :: r) => ('.' :: r) :: if elastic then stops elastic r else []
  | some rest => [rest]
termination_by t.length
decreasing_by exact Nat.lt_of_succ_lt (length_dropSegment _h)

theorem stops_of_none {elastic : Bool} {t : Text} (h : dropSegment t = none) : stops elastic t = [] := by
  rw [stops]
  split
  · rfl
  · next r h' => simp [h] at h'
  · next rest _ h' => simp [h] at h'

/-- Behind a dot an elastic `*` goes on. -/
theorem stops_of_dot {elastic : Bool} {t r : Text} (h : dropSegment t = some ('.' :: r)) :
    stops elastic t = ('.' :: r) :: if elastic then stops elastic r else [] := by
  rw [stops]
  split
  · next h' => simp [h] at h'
  · next r' h' =>
      simp only [h, Option.some.injEq, List.cons.injEq, true_and] at h'
      rw [h']
  · next rest hne h' =>
      rw [h, Option.some.injEq] at h'
      exact absurd h' (Ne.symm (hne r))

/-- At the end of the name, and behind a quoted run that ends no segment, every `*` stops. -/
theorem stops_of_end {elastic : Bool} {t rest : Text} (h : dropSegment t = some rest)
    (hd : rest.head? ≠ some '.') : stops elastic t = [rest] := by
  rw [stops]
  split
  · next h' => simp [h] at h'
  · next r' h' =>
      rw [h, Option.some.injEq] at h'
      simp [h'] at hd
  · next rest' hne h' =>
      rw [h, Option.some.injEq] at h'
      rw [h']

/-! ## Matching -/

/-- Whether a `*` stands alone: between dots, at an end, or before an index group. The arguments are the
characters to its right and to its left. -/
def starStands (right left : Option Char) : Bool :=
  (left == none || left == some '.') && (right == none || right == some '.' || right == some '[')

/-- Whether two index texts agree: the same text, or `*` against digits. -/
def indexAgrees (p o : Text) : Bool :=
  p == o || (p == ['*'] && isNumeric o) || (o == ['*'] && isNumeric p)

/-- Matches a reversed pattern against a reversed name. `right` is the character that follows the rest of
the pattern, if there is one. -/
def matchesRev (right : Option Char) (p o : Text) : Bool :=
  match p, o with
  | [], [] => true
  | [], _ :: _ => false
  | _ :: _, [] => false
  | n :: p', c :: o' =>
      if n = '*' ∧ starStands right p'.head? then
        (stops (p'.isEmpty || right == none) (c :: o')).any fun rest => matchesRev (some '*') p' rest
      else if n = ']' ∧ c = ']' then
        match _h : cut '[' p', cut '[' o' with
        | some (pIndex, pRest), some (oIndex, oRest) =>
            indexAgrees pIndex oIndex && matchesRev (some '[') pRest oRest
        | _, _ => false
      else n == c && matchesRev (some n) p' o'
termination_by p.length
decreasing_by
  · exact Nat.lt_succ_self _
  · exact Nat.lt_succ_of_lt (Nat.lt_of_le_of_lt (Nat.le_add_left _ _) (length_of_cut _h))
  · exact Nat.lt_succ_self _

@[simp] theorem matchesRev_nil (right : Option Char) : matchesRev right [] [] = true := by
  rw [matchesRev]

@[simp] theorem matchesRev_nil_cons (right : Option Char) (c : Char) (o : Text) :
    matchesRev right [] (c :: o) = false := by
  rw [matchesRev]

@[simp] theorem matchesRev_cons_nil (right : Option Char) (n : Char) (p : Text) :
    matchesRev right (n :: p) [] = false := by
  rw [matchesRev]

/-- A character that is no `*` stands for itself, unless an index group ends on both sides. -/
theorem matchesRev_cons {right : Option Char} {n c : Char} {p o : Text} (hn : n ≠ '*')
    (hb : n ≠ ']' ∨ c ≠ ']') :
    matchesRev right (n :: p) (c :: o) = (n == c && matchesRev (some n) p o) := by
  have hb' : ¬(n = ']' ∧ c = ']') := by
    rintro ⟨h1, h2⟩
    exact hb.elim (· h1) (· h2)
  rw [matchesRev, if_neg (fun h => hn h.1), if_neg hb']

/-- A `*` that stands alone goes to its stops. -/
theorem matchesRev_star {right : Option Char} {c : Char} {p o : Text}
    (h : starStands right p.head? = true) :
    matchesRev right ('*' :: p) (c :: o) =
      (stops (p.isEmpty || right == none) (c :: o)).any fun rest => matchesRev (some '*') p rest := by
  rw [matchesRev, if_pos ⟨rfl, h⟩]

/-- Two index groups are compared as a whole. -/
theorem matchesRev_group {right : Option Char} {i j p o : Text} (hi : '[' ∉ i) (hj : '[' ∉ j) :
    matchesRev right (']' :: (i ++ '[' :: p)) (']' :: (j ++ '[' :: o)) =
      (indexAgrees i j && matchesRev (some '[') p o) := by
  rw [matchesRev, if_neg (by simp), if_pos ⟨rfl, rfl⟩]
  split
  · next pRest oRest hp ho =>
      rw [cut_append hi, Option.some.injEq, Prod.mk.injEq] at hp
      rw [cut_append hj, Option.some.injEq, Prod.mk.injEq] at ho
      rw [hp.1, hp.2, ho.1, ho.2]
  · next h => exact absurd (cut_append hj o) (h _ _ _ _ (cut_append hi p))

/-- Whether a pattern matches a name, with the wildcards of the pattern only. -/
def matchesPattern (pattern name : Text) : Bool := matchesRev none pattern.reverse name.reverse

/-! ## Equality with wildcards -/

/-- Whether two names are the same or one is a pattern that matches the other. -/
def alike (a b : Text) : Bool := a == b || matchesPattern a b || matchesPattern b a

theorem alike_refl (a : Text) : alike a a = true := by
  simp [alike]

theorem alike_comm (a b : Text) : alike a b = alike b a := by
  have h : (a == b) = (b == a) := by
    by_cases e : a = b
    · rw [e]
    · rw [beq_eq_false_iff_ne.mpr e, beq_eq_false_iff_ne.mpr (Ne.symm e)]
  simp only [alike, h, Bool.or_assoc, Bool.or_comm (matchesPattern a b)]

/-! ## Hash -/

/-- One step of the hash: whether a quoted run is open, and the number so far. -/
def hashStep (s : Bool × UInt64) (c : Char) : Bool × UInt64 :=
  if s.1 then (c != '"', s.2)
  else if c = '"' then (true, s.2)
  else if c = '[' ∨ c = ']' then (false, s.2 * 31 + UInt64.ofNat c.toNat)
  else s

/-- A hash of the brackets outside quoted runs; it says nothing about any other character. -/
def shapeHash (name : Text) : UInt64 := (name.foldl hashStep (false, 0)).2

end LayeredConfig.Name
