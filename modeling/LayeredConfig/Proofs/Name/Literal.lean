import LayeredConfig.Name.Wildcard
import Mathlib.Data.List.Basic

/-!
# `LayeredConfig.Proofs.Name.Literal` — what the scanner takes literally

Facts about the scanner on arbitrary texts, well-formed or not: brackets may be unbalanced and quotes may stray.

## Contents
- **One side without `*`.** Matching then goes both ways (`matchesRev_swap`), so that equality is matching in
  one direction (`alike_iff_of_no_star`); with no `*` on either side only equal texts match
  (`eq_of_matchesRev`).
- **Beginnings.** What stands before a dot of the pattern and holds no `*` is the beginning of every name that
  the pattern matches (`prefix_of_alike`).
-/

namespace LayeredConfig.Name

open Text

/-! ## One side without a wildcard -/

theorem indexAgrees_comm (p o : Text) : indexAgrees p o = indexAgrees o p := by
  have hsymm : (p == o) = (o == p) := Bool.eq_iff_iff.mpr (by rw [beq_iff_eq, beq_iff_eq, eq_comm])
  rw [indexAgrees, indexAgrees, hsymm, Bool.or_right_comm]

/-- Two index texts that are no wildcards agree only when they are equal. -/
theorem eq_of_indexAgrees {p o : Text} (hp : p ≠ ['*']) (ho : o ≠ ['*']) (h : indexAgrees p o = true) : p = o := by
  simp only [indexAgrees, Bool.or_eq_true, Bool.and_eq_true, beq_iff_eq] at h
  rcases h with (h | ⟨h, -⟩) | ⟨h, -⟩
  · exact h
  · exact absurd h hp
  · exact absurd h ho

theorem ne_star_of_not_mem {t : Text} (h : '*' ∉ t) : t ≠ ['*'] := by
  rintro rfl
  exact h (List.mem_singleton_self '*')

/-- A pattern without `*` matches only texts that match it in turn: the one wildcard it meets is a `[*]`, and
groups are compared without regard to the side. -/
theorem matchesRev_swap {right : Option Char} {o p : Text} (ho : '*' ∉ o) (h : matchesRev right o p = true)
    (right' : Option Char) : matchesRev right' p o = true := by
  fun_induction matchesRev right o p generalizing right' with
  | case1 => exact matchesRev_nil right'
  | case2 => simp at h
  | case3 => simp at h
  | case4 right n o c p hstar => exact absurd hstar.1 fun e => ho (by simp [e])
  | case5 right n o c p hstar hb i o' j p' hi hj ih =>
      rw [Bool.and_eq_true] at h
      rw [hb.1, hb.2, eq_of_cut hi, eq_of_cut hj, matchesRev_group (not_mem_of_cut hj) (not_mem_of_cut hi),
        indexAgrees_comm, h.1, Bool.true_and]
      refine ih (fun hm => ho ?_) h.2 (some '[')
      rw [eq_of_cut hi]
      simp [hm]
  | case6 => simp at h
  | case7 right n o c p hstar hb ih =>
      rw [Bool.and_eq_true, beq_iff_eq] at h
      obtain ⟨rfl, h⟩ := h
      rw [matchesRev_cons (fun e => ho (by simp [e])) (by simpa using hb), beq_self_eq_true, Bool.true_and]
      exact ih (fun hm => ho (List.mem_cons_of_mem n hm)) h (some n)

/-- Against a text without `*`, two names are equal when they are the same or the first matches the second. -/
theorem alike_iff_of_no_star {a b : Text} (hb : '*' ∉ b) :
    alike a b = true ↔ a = b ∨ matchesPattern a b = true := by
  simp only [alike, Bool.or_eq_true, beq_iff_eq]
  constructor
  · rintro ((h | h) | h)
    · exact Or.inl h
    · exact Or.inr h
    · exact Or.inr (matchesRev_swap (fun hm => hb (List.mem_reverse.mp hm)) h none)
  · exact Or.inl

/-- Without `*` on either side only equal texts match. -/
theorem eq_of_matchesRev {right : Option Char} {p o : Text} (hp : '*' ∉ p) (ho : '*' ∉ o)
    (h : matchesRev right p o = true) : p = o := by
  fun_induction matchesRev right p o with
  | case1 => rfl
  | case2 => simp at h
  | case3 => simp at h
  | case4 right n p c o hstar => exact absurd hstar.1 fun e => hp (by simp [e])
  | case5 right n p c o hstar hb i p' j o' hi hj ih =>
      have hpi := eq_of_cut hi
      have hoj := eq_of_cut hj
      rw [hpi] at hp
      rw [hoj] at ho
      simp only [List.mem_cons, List.mem_append, not_or] at hp ho
      rw [Bool.and_eq_true] at h
      have hij : i = j := eq_of_indexAgrees (ne_star_of_not_mem hp.2.1) (ne_star_of_not_mem ho.2.1) h.1
      rw [hpi, hoj, hb.1, hb.2, hij, ih hp.2.2.2 ho.2.2.2 h.2]
  | case6 => simp at h
  | case7 right n p c o hstar hb ih =>
      rw [Bool.and_eq_true, beq_iff_eq] at h
      simp only [List.mem_cons, not_or] at hp ho
      rw [h.1, ih hp.2 ho.2 h.2]

/-! ## Beginnings -/

/-- The segment that is removed from the end of a name is a quoted run, or a run up to a dot that neither starts with a
quote nor holds brackets. -/
theorem dropSegment_cases {t u : Text} (h : dropSegment t = some u) :
    (∃ inner, inner ≠ [] ∧ '"' ∉ inner ∧ t = ('"' :: inner ++ ['"']) ++ u) ∨
      t.head? ≠ some '"' ∧ t.takeWhile (· != '.') ≠ [] ∧ (∀ c ∈ t.takeWhile (· != '.'), c ≠ '[' ∧ c ≠ ']') ∧
        u = t.dropWhile (· != '.') := by
  cases t with
  | nil => cases h
  | cons c r =>
      rw [dropSegment] at h
      split at h
      · next hc =>
          left
          split at h
          · next inner rest hcut =>
              split at h
              · cases h
              · next hne =>
                  rw [Option.some.injEq] at h
                  subst h
                  refine ⟨inner, fun e => hne (List.isEmpty_iff.mpr e), not_mem_of_cut hcut, ?_⟩
                  rw [hc, eq_of_cut hcut]
                  simp
          · cases h
      · next hc =>
          right
          dsimp only at h
          split at h
          · cases h
          · next hplain =>
              simp only [Bool.or_eq_true, List.isEmpty_iff, List.any_eq_true, beq_iff_eq, not_or, not_exists,
                not_and] at hplain
              exact ⟨fun e => hc (Option.some.inj e), hplain.1, hplain.2, (Option.some.inj h).symm⟩

theorem dropSegment_suffix {t u : Text} (h : dropSegment t = some u) : u <:+ t := by
  rcases dropSegment_cases h with ⟨inner, -, -, rfl⟩ | ⟨-, -, -, rfl⟩
  · exact List.suffix_append _ _
  · exact List.dropWhile_suffix _

/-- A `*` stops at a beginning of the name. -/
theorem suffix_of_mem_stops {elastic : Bool} {t u : Text} (h : u ∈ stops elastic t) : u <:+ t := by
  fun_induction stops elastic t with
  | case1 => simp at h
  | case2 t r hdrop ih =>
      rcases List.mem_cons.mp h with rfl | h
      · exact dropSegment_suffix hdrop
      · cases elastic with
        | false => simp at h
        | true => exact (ih h).trans ((List.suffix_cons '.' r).trans (dropSegment_suffix hdrop))
  | case3 t rest hne hdrop =>
      rw [List.mem_singleton] at h
      subst h
      exact dropSegment_suffix hdrop

/-- An end that starts with a dot lies behind the index text, or its dot stands inside. -/
theorem suffix_or_mem_of_suffix {u i p : Text} (h : '.' :: u <:+ i ++ '[' :: p) :
    '.' :: u <:+ p ∨ '.' ∈ i ∧ p <:+ u := by
  obtain ⟨y, hy⟩ := h
  have hpre : p <:+ i ++ '[' :: p := ⟨i ++ ['['], by simp⟩
  rcases List.suffix_or_suffix_of_suffix ⟨y, hy⟩ hpre with hq | ⟨x, hx⟩
  · exact Or.inl hq
  · cases x with
    | nil =>
        rw [List.nil_append] at hx
        exact Or.inl (hx ▸ List.suffix_refl p)
    | cons d x =>
        right
        have hinner : (y ++ d :: x) ++ p = (i ++ ['[']) ++ p := by
          rw [List.append_assoc, hx, hy]
          simp
        have hinner := List.append_cancel_right hinner
        rw [List.cons_append, List.cons.injEq] at hx
        have hdot : '.' ∈ i ++ ['['] := by
          rw [← hinner, hx.1]
          simp
        exact ⟨by simpa using hdot, x, hx.2⟩

/-- What a pattern holds before one of its dots, without `*`, stands there in every text without `*` that it
matches. The text is read from the right: `u` with its dot is an end of both. -/
theorem suffix_of_matchesRev {right : Option Char} {u p o : Text} (hu : '*' ∉ u) (ho : '*' ∉ o)
    (hp : '.' :: u <:+ p) (h : matchesRev right p o = true) : '.' :: u <:+ o := by
  fun_induction matchesRev right p o with
  | case1 => exact hp
  | case2 => simp at hp
  | case3 => simp at h
  | case4 right n p c o hstar ih =>
      rw [List.any_eq_true] at h
      obtain ⟨rest, hrest, hm⟩ := h
      rcases List.suffix_cons_iff.mp hp with he | hp
      · -- the pattern's `*` is not the dot
        rw [List.cons.injEq] at he
        exact absurd (he.1.trans hstar.1) (by decide)
      · have hsuf := suffix_of_mem_stops hrest
        exact (ih rest (fun hm => ho (hsuf.subset hm)) hp hm).trans hsuf
  | case5 right n p c o hstar hb i p' j o' hi hj ih =>
      rw [Bool.and_eq_true] at h
      have hpi := eq_of_cut hi
      have hoj := eq_of_cut hj
      have hp' : '.' :: u <:+ p := by
        rcases List.suffix_cons_iff.mp hp with he | hp
        · rw [List.cons.injEq, hb.1] at he
          exact absurd he.1 (by decide)
        · exact hp
      have hrest : o' <:+ c :: o := by
        rw [hoj]
        exact ⟨c :: j ++ ['['], by simp⟩
      rw [hpi] at hp'
      rcases suffix_or_mem_of_suffix hp' with hq | ⟨hdot, hsub⟩
      · exact (ih (fun hm => ho (hrest.subset hm)) hq h.2).trans hrest
      · -- the dot stands between the brackets, where the two sides must be the same
        have hi' : i ≠ ['*'] := by
          rintro rfl
          simp at hdot
        have hj' : j ≠ ['*'] := ne_star_of_not_mem fun hm => ho (by simp [hoj, hm])
        have hij : i = j := eq_of_indexAgrees hi' hj' h.1
        have hsame : p' = o' :=
          eq_of_matchesRev (fun hm => hu (hsub.subset hm)) (fun hm => ho (hrest.subset hm)) h.2
        rw [hb.1, hpi] at hp
        rw [hb.2, hoj, ← hij, ← hsame]
        exact hp
  | case6 => simp at h
  | case7 right n p c o hstar hb ih =>
      rw [Bool.and_eq_true, beq_iff_eq] at h
      obtain ⟨rfl, h⟩ := h
      have ho' : '*' ∉ o := fun hm => ho (List.mem_cons_of_mem n hm)
      rcases List.suffix_cons_iff.mp hp with he | hp
      · rw [List.cons.injEq] at he
        obtain ⟨rfl, rfl⟩ := he
        have hsame := eq_of_matchesRev hu ho' h
        subst hsame
        exact List.suffix_refl _
      · exact (ih ho' hp h).trans (List.suffix_cons n o)

/-- What stands before a dot of the pattern and holds no `*` is the beginning of every name without `*` that is
equal to the pattern, and the dot stands behind it. -/
theorem prefix_of_alike {u p o : Text} (hu : '*' ∉ u) (ho : '*' ∉ o) (hp : u ++ ['.'] <+: p)
    (h : alike p o = true) : u ++ ['.'] <+: o := by
  rcases (alike_iff_of_no_star ho).mp h with rfl | hm
  · exact hp
  · have hback : (u ++ ['.']).reverse = '.' :: u.reverse := by simp
    rw [← List.reverse_suffix, hback] at hp ⊢
    exact suffix_of_matchesRev (fun hm => hu (List.mem_reverse.mp hm)) (fun hm => ho (List.mem_reverse.mp hm)) hp hm

end LayeredConfig.Name
