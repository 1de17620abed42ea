import LayeredConfig.Proofs.Name.Grammar
import LayeredConfig.Text.Utf8

/-!
# `LayeredConfig.Proofs.Name.Groups` — when a path can be split into steps

The reader of index groups cuts its text by offsets into the encoded form: up to the first closing bracket,
without the character before which it expects nothing but an opening bracket. Such a range exists only when its
ends are in order and lie between two characters. The reader finds out too late whether its text starts with an
opening bracket, so that a path may ask it for a range that does not exist.

## Contents
- **Ranges.** `Sliceable`, and `StepDefined` for the three ranges of one iteration.
- **Iterations.** `Visits` are the texts at which the loop arrives; a text is broken exactly when one of them
  asks for a range that does not exist.
- **Shape.** `Derails` describes the segments on which this happens, by their characters.
- **Paths.** A path has steps exactly when none of its segments derails.
-/

namespace LayeredConfig.Name

open Text

/-! ## Ranges of the encoded form -/

/-- The length of the encoded form. -/
def width (t : Text) : Nat := (Text.toUnits t).length

/-- Whether an offset lies at an end of the text or between two of its characters. -/
def IsBoundary (t : Text) (i : Nat) : Prop := ∃ a b, t = a ++ b ∧ width a = i

/-- Whether the range from one offset to another exists. -/
def Sliceable (t : Text) (i j : Nat) : Prop := i ≤ j ∧ IsBoundary t i ∧ IsBoundary t j

/-- The ranges that one iteration cuts out when it has found the first closing bracket: the text between the
brackets, the group, the rest. -/
def StepDefined (t : Text) : Prop :=
  ∀ a b, cut ']' t = some (a, b) →
    Sliceable t 1 (width a) ∧ Sliceable t 0 (width a + 1) ∧ Sliceable t (width a + 1) (width t)

theorem width_append (a b : Text) : width (a ++ b) = width a + width b := by
  simp [width, Text.toUnits]

theorem width_cons (c : Char) (t : Text) : width (c :: t) = (charUnits c).length + width t := by
  simp [width, Text.toUnits]

theorem length_charUnits_pos (c : Char) : 0 < (charUnits c).length := by
  unfold charUnits
  dsimp only
  split_ifs <;> simp

/-- The ASCII characters are those of one unit. -/
theorem length_charUnits_eq_one_iff {c : Char} : (charUnits c).length = 1 ↔ c.toNat < 0x80 := by
  unfold charUnits
  dsimp only
  split_ifs with h <;> simp [h]

/-- A text has an offset 1 exactly when it starts with an ASCII character. -/
theorem isBoundary_one_iff {c : Char} {t : Text} : IsBoundary (c :: t) 1 ↔ c.toNat < 0x80 := by
  rw [← length_charUnits_eq_one_iff]
  constructor
  · rintro ⟨a, b, hab, ha⟩
    cases a with
    | nil => simp [width, Text.toUnits] at ha
    | cons d a =>
        rw [List.cons_append, List.cons.injEq] at hab
        rw [width_cons, ← hab.1] at ha
        have := length_charUnits_pos c
        omega
  · intro hc
    exact ⟨[c], t, rfl, by simpa [width, Text.toUnits] using hc⟩

/-- Only the text between the brackets may fail to exist: the loop skips the first character before it has looked
at it. -/
theorem stepDefined_iff {t a b : Text} (h : cut ']' t = some (a, b)) :
    StepDefined t ↔ ∃ c inner, a = c :: inner ∧ c.toNat < 0x80 := by
  have ht := eq_of_cut h
  have hgroup : IsBoundary t (width a + 1) := by
    refine ⟨a ++ [']'], b, by simp [ht], ?_⟩
    rw [width_append]
    rfl
  constructor
  · intro hstep
    obtain ⟨⟨hle, hone, -⟩, -, -⟩ := hstep a b h
    cases a with
    | nil => exact absurd hle (by decide)
    | cons c inner =>
        rw [ht, List.cons_append] at hone
        exact ⟨c, inner, rfl, isBoundary_one_iff.mp hone⟩
  · rintro ⟨c, inner, rfl, hc⟩ a' b' h'
    rw [h, Option.some.injEq, Prod.mk.injEq] at h'
    rw [← h'.1]
    have hpos := length_charUnits_pos c
    refine ⟨⟨?_, ?_, ⟨c :: inner, ']' :: b, ht, rfl⟩⟩, ⟨Nat.zero_le _, ⟨[], t, rfl, rfl⟩, hgroup⟩, ?_, hgroup, ?_⟩
    · rw [width_cons]
      omega
    · rw [ht, List.cons_append]
      exact isBoundary_one_iff.mpr hc
    · have hbracket := length_charUnits_pos ']'
      rw [ht, width_append, width_cons ']' b]
      omega
    · exact ⟨t, [], by simp, rfl⟩

/-! ## Iterations -/

/-- The texts at which the loop arrives: the one it starts with, and what follows each group it takes off. -/
inductive Visits : Text → Text → Prop
  | first (t : Text) : Visits t t
  | next {t inner rest u : Text} (h : cut ']' t = some ('[' :: inner, rest)) (hi : isIndex inner = true)
      (hu : Visits rest u) : Visits t u

theorem visits_iff {t u : Text} :
    Visits t u ↔ u = t ∨
      ∃ inner rest, cut ']' t = some ('[' :: inner, rest) ∧ isIndex inner = true ∧ Visits rest u := by
  constructor
  · intro h
    cases h with
    | first => exact Or.inl rfl
    | next h hi hu => exact Or.inr ⟨_, _, h, hi, hu⟩
  · rintro (rfl | ⟨inner, rest, h, hi, hu⟩)
    · exact Visits.first u
    · exact Visits.next h hi hu

/-- Where the first text asks for ranges that exist, the loop breaks when it breaks on what follows the group. -/
theorem exists_visits_iff {t : Text} (ht : StepDefined t) :
    (∃ u, Visits t u ∧ ¬ StepDefined u) ↔
      ∃ inner rest, cut ']' t = some ('[' :: inner, rest) ∧ isIndex inner = true ∧
        ∃ u, Visits rest u ∧ ¬ StepDefined u := by
  constructor
  · rintro ⟨u, hu, hbad⟩
    rcases visits_iff.mp hu with rfl | ⟨inner, rest, h, hi, hu⟩
    · exact absurd ht hbad
    · exact ⟨inner, rest, h, hi, u, hu, hbad⟩
  · rintro ⟨inner, rest, h, hi, u, hu, hbad⟩
    exact ⟨u, Visits.next h hi hu, hbad⟩

theorem GroupRead.cons_eq_broken {g : Text} {r : GroupRead} : r.cons g = .broken ↔ r = .broken := by
  cases r <;> simp [GroupRead.cons]

/-- The loop breaks exactly when it arrives at a text at which some range does not exist. -/
theorem readGroups_eq_broken_iff_visits {t : Text} :
    readGroups t = .broken ↔ ∃ u, Visits t u ∧ ¬ StepDefined u := by
  fun_induction readGroups t with
  | case1 t hempty =>
      have hcut : cut ']' t = none := by
        rw [List.isEmpty_iff.mp hempty, cut]
      rw [exists_visits_iff (fun a b h => by simp [hcut] at h)]
      simp [hcut]
  | case2 t hempty hcut =>
      rw [exists_visits_iff (fun a b h => by simp [hcut] at h)]
      simp [hcut]
  | case3 t hempty rest hcut =>
      -- a bracket that closes at once: the range would run from 1 to 0
      simp only [true_iff]
      refine ⟨t, Visits.first t, ?_⟩
      rw [stepDefined_iff hcut]
      simp
  | case4 t hempty b inner rest hcut hwide =>
      -- a wide character: 1 lies inside it
      simp only [true_iff]
      refine ⟨t, Visits.first t, ?_⟩
      rw [stepDefined_iff hcut]
      rintro ⟨c, inner', he, hc⟩
      rw [List.cons.injEq] at he
      rw [← he.1] at hc
      omega
  | case5 t hempty b inner rest hcut hwide hgroup hlt ih =>
      obtain ⟨rfl, hi⟩ := hgroup
      rw [GroupRead.cons_eq_broken, ih, exists_visits_iff ((stepDefined_iff hcut).mpr ⟨_, _, rfl, by omega⟩)]
      constructor
      · intro h
        exact ⟨inner, rest, hcut, hi, h⟩
      · rintro ⟨inner', rest', hcut', -, h⟩
        simp only [hcut, Option.some.injEq, Prod.mk.injEq] at hcut'
        rw [hcut'.2]
        exact h
  | case6 t hempty b inner rest hcut hwide hgroup =>
      -- the ranges exist, and the loop gives up before it takes anything off
      rw [exists_visits_iff ((stepDefined_iff hcut).mpr ⟨_, _, rfl, by omega⟩)]
      simp only [reduceCtorEq, false_iff]
      rintro ⟨inner', rest', hcut', hi, -⟩
      simp only [hcut, Option.some.injEq, Prod.mk.injEq, List.cons.injEq] at hcut'
      exact hgroup ⟨hcut'.1.1, hcut'.1.2 ▸ hi⟩

/-! ## The shape of the texts that break the loop -/

/-- What follows the groups where the loop breaks: a second closing bracket, or a wide character and a closing
bracket later on. -/
def Broken (t : Text) : Prop := ∃ c rest, t = c :: rest ∧ (c = ']' ∨ 0x80 ≤ c.toNat ∧ ']' ∈ rest)

/-- The text between the brackets of a group is what the loop accepts there. -/
theorem isIndex_iff {inner : Text} : isIndex inner = true ↔ ∃ g : Index, g.inner = inner := by
  constructor
  · intro h
    rw [isIndex, Bool.or_eq_true, beq_iff_eq] at h
    rcases h with rfl | h
    · exact ⟨.any, rfl⟩
    · exact ⟨.digits inner h, rfl⟩
  · rintro ⟨g, rfl⟩
    cases g with
    | digits t numeric => simp [isIndex, Index.inner, numeric]
    | any => rfl

theorem Index.cut_text (g : Index) (t : Text) : cut ']' (g.text ++ t) = some ('[' :: g.inner, t) := by
  have hin : ']' ∉ '[' :: g.inner := by
    intro hm
    rcases List.mem_cons.mp hm with h | h
    · exact absurd h (by decide)
    · exact (g.inner_free h).2.2 rfl
  have h := cut_append hin t
  rwa [Index.text, List.append_assoc, List.singleton_append]

/-- The first character decides whether the ranges exist, once there is a closing bracket at all. -/
theorem not_stepDefined_iff {t : Text} : ¬ StepDefined t ↔ Broken t := by
  cases h : cut ']' t with
  | none =>
      have hdef : StepDefined t := fun a b hab => by simp [h] at hab
      have hmem := cut_eq_none_iff.mp h
      simp only [hdef, not_true_eq_false, false_iff]
      rintro ⟨c, rest, rfl, rfl | ⟨-, hin⟩⟩
      · exact hmem List.mem_cons_self
      · exact hmem (List.mem_cons_of_mem c hin)
  | some p =>
      obtain ⟨a, b⟩ := p
      have ht := eq_of_cut h
      have hnot := not_mem_of_cut h
      rw [stepDefined_iff h]
      cases a with
      | nil =>
          simp only [reduceCtorEq, false_and, exists_false, not_false_eq_true, true_iff]
          exact ⟨']', b, ht, Or.inl rfl⟩
      | cons c inner =>
          constructor
          · intro hwide
            refine ⟨c, inner ++ ']' :: b, ht, Or.inr ⟨?_, by simp⟩⟩
            exact Nat.le_of_not_lt fun hc => hwide ⟨c, inner, rfl, hc⟩
          · rintro ⟨d, rest, hd, hbad⟩ ⟨c', inner', he, hc⟩
            rw [ht, List.cons_append, List.cons.injEq] at hd
            rw [List.cons.injEq] at he
            rcases hbad with rfl | ⟨hwide, -⟩
            · exact hnot (by simp [hd.1])
            · rw [← hd.1, he.1] at hwide
              omega

/-- The loop arrives at what follows some index groups. -/
theorem visits_iff_groups {t u : Text} : Visits t u ↔ ∃ gs : List Index, t = gs.flatMap Index.text ++ u := by
  constructor
  · intro h
    induction h with
    | first t => exact ⟨[], rfl⟩
    | next h hi hu ih =>
        obtain ⟨g, rfl⟩ := isIndex_iff.mp hi
        obtain ⟨gs, rfl⟩ := ih
        refine ⟨g :: gs, ?_⟩
        rw [eq_of_cut h]
        simp [Index.text]
  · rintro ⟨gs, rfl⟩
    induction gs with
    | nil => exact Visits.first u
    | cons g gs ih =>
        refine Visits.next ?_ (isIndex_iff.mpr ⟨g, rfl⟩) ih
        rw [List.flatMap_cons, List.append_assoc]
        exact g.cut_text _

theorem readGroups_eq_broken_iff {t : Text} :
    readGroups t = .broken ↔ ∃ (gs : List Index) (u : Text), t = gs.flatMap Index.text ++ u ∧ Broken u := by
  rw [readGroups_eq_broken_iff_visits]
  constructor
  · rintro ⟨u, hu, hbad⟩
    obtain ⟨gs, ht⟩ := visits_iff_groups.mp hu
    exact ⟨gs, u, ht, not_stepDefined_iff.mp hbad⟩
  · rintro ⟨gs, u, ht, hbad⟩
    exact ⟨u, visits_iff_groups.mpr ⟨gs, ht⟩, not_stepDefined_iff.mpr hbad⟩

/-! ## Segments -/

/-- The texts at which the loop arrives in a segment: it runs behind the base of an unquoted segment that ends in a
closing bracket. -/
def SegmentVisits (s u : Text) : Prop :=
  s.getLast? = some ']' ∧ s.head? ≠ some '"' ∧ ∃ base r, cut '[' s = some (base, r) ∧ Visits ('[' :: r) u

/-- Segments that cannot be split: an unquoted base, at least one index group, and then directly a second closing
bracket or a wide character. -/
structure Derails (s : Text) : Prop where
  closed : s.getLast? = some ']'
  unquoted : s.head? ≠ some '"'
  groups : ∃ (base : Text) (g : Index) (gs : List Index) (u : Text),
    s = base ++ (g :: gs).flatMap Index.text ++ u ∧ '[' ∉ base ∧ Broken u

theorem splitGroups_eq_none_iff {s : Text} :
    splitGroups s = none ↔ s.getLast? = some ']' ∧ s.head? ≠ some '"' ∧
      ∃ base r, cut '[' s = some (base, r) ∧ readGroups ('[' :: r) = .broken := by
  unfold splitGroups
  by_cases hshape : s.getLast? = some ']' ∧ s.head? ≠ some '"'
  · have hcond : (s.getLast? != some ']' || s.head? == some '"') = false := by
      simp [hshape.1, hshape.2]
    rw [hcond, if_neg (by decide)]
    cases h : cut '[' s with
    | none => simp
    | some p =>
        obtain ⟨base, r⟩ := p
        cases hr : readGroups ('[' :: r) <;> simp [hr, hshape.1, hshape.2]
  · have hcond : (s.getLast? != some ']' || s.head? == some '"') = true := by
      rw [Bool.or_eq_true, bne_iff_ne, beq_iff_eq]
      by_cases hlast : s.getLast? = some ']'
      · exact Or.inr (Classical.byContradiction fun hq => hshape ⟨hlast, hq⟩)
      · exact Or.inl hlast
    rw [hcond, if_pos rfl]
    simp only [reduceCtorEq, false_iff]
    exact fun h => hshape ⟨h.1, h.2.1⟩

/-- A segment fails to split exactly when the loop asks for a range that does not exist. -/
theorem splitGroups_eq_none_iff_visits {s : Text} :
    splitGroups s = none ↔ ∃ u, SegmentVisits s u ∧ ¬ StepDefined u := by
  rw [splitGroups_eq_none_iff]
  simp only [readGroups_eq_broken_iff_visits, SegmentVisits]
  constructor
  · rintro ⟨hlast, hquote, base, r, hcut, u, hu, hbad⟩
    exact ⟨u, ⟨hlast, hquote, base, r, hcut, hu⟩, hbad⟩
  · rintro ⟨u, ⟨hlast, hquote, base, r, hcut, hu⟩, hbad⟩
    exact ⟨hlast, hquote, base, r, hcut, u, hu, hbad⟩

theorem splitGroups_eq_none_iff_derails {s : Text} : splitGroups s = none ↔ Derails s := by
  rw [splitGroups_eq_none_iff]
  constructor
  · rintro ⟨hlast, hquote, base, r, hcut, hbroken⟩
    obtain ⟨gs, u, hr, hbad⟩ := readGroups_eq_broken_iff.mp hbroken
    cases gs with
    | nil =>
        -- the loop starts at an opening bracket, where both of its ranges exist
        obtain ⟨c, rest, rfl, hc⟩ := hbad
        rw [List.flatMap_nil, List.nil_append, List.cons.injEq] at hr
        rw [← hr.1] at hc
        rcases hc with hc | ⟨hc, -⟩
        · exact absurd hc (by decide)
        · exact absurd hc (by decide)
    | cons g gs =>
        refine ⟨hlast, hquote, base, g, gs, u, ?_, not_mem_of_cut hcut, hbad⟩
        rw [eq_of_cut hcut, hr, List.append_assoc]
  · rintro ⟨hlast, hquote, base, g, gs, u, rfl, hbase, hbad⟩
    refine ⟨hlast, hquote, base, (g.inner ++ [']']) ++ (gs.flatMap Index.text ++ u), ?_, ?_⟩
    · have h := cut_append hbase ((g.inner ++ [']']) ++ (gs.flatMap Index.text ++ u))
      simpa [Index.text] using h
    · exact readGroups_eq_broken_iff.mpr ⟨g :: gs, u, by simp [Index.text], hbad⟩

/-! ## Paths -/

/-- Where every result is there, they are the results of a function. -/
theorem mapM_eq_some_map {α β : Type} {f : α → Option β} {g : α → β} {l : List α} (h : ∀ x ∈ l, f x = some (g x)) :
    l.mapM f = some (l.map g) := by
  induction l with
  | nil => rfl
  | cons x l ih =>
      rw [List.mapM_cons, h x List.mem_cons_self, ih fun y hy => h y (List.mem_cons_of_mem x hy)]
      rfl

theorem mapM_eq_none_iff {α β : Type} {f : α → Option β} {l : List α} :
    l.mapM f = none ↔ ∃ x ∈ l, f x = none := by
  induction l with
  | nil => simp
  | cons x l ih =>
      rw [List.mapM_cons]
      cases hx : f x with
      | none => simp [hx]
      | some y =>
          cases hl : l.mapM f with
          | none => simpa [hx] using ih.mp hl
          | some ys =>
              have hno : ¬ ∃ x ∈ l, f x = none := fun h => by simp [ih.mpr h] at hl
              simpa [hx] using hno

theorem keySteps_isSome_iff_splitGroups {path : Text} :
    (keySteps path).isSome = true ↔ ∀ s ∈ segments path, splitGroups s ≠ none := by
  rw [keySteps, Option.isSome_map, Option.isSome_iff_ne_none, ne_eq, mapM_eq_none_iff]
  simp only [not_exists, not_and, ne_eq]

/-- A path has steps exactly when every range exists for which the loop asks in one of its segments; and that is so
exactly when no segment carries a second closing bracket or a wide character directly behind its index groups. -/
theorem keySteps_isSome_iff (path : Text) :
    ((keySteps path).isSome = true ↔ ∀ s ∈ segments path, ∀ u, SegmentVisits s u → StepDefined u) ∧
      ((keySteps path).isSome = true ↔ ∀ s ∈ segments path, ¬ Derails s) := by
  rw [keySteps_isSome_iff_splitGroups]
  constructor
  · refine forall₂_congr fun s _ => ?_
    rw [ne_eq, splitGroups_eq_none_iff_visits]
    simp only [not_exists, not_and, not_not]
  · refine forall₂_congr fun s _ => ?_
    rw [ne_eq, splitGroups_eq_none_iff_derails]

/-- Behind a second closing bracket the loop asks for the range from 1 to 0. -/
theorem keySteps_doubled_bracket :
    keySteps "a[0]]".toList = none ∧
      ∃ s ∈ segments "a[0]]".toList, ∃ u a b, SegmentVisits s u ∧ cut ']' u = some (a, b) ∧
        ¬ Sliceable u 1 (width a) := by
  refine ⟨by decide +kernel, "a[0]]".toList, by decide, [']'], [], [], ⟨by decide, by decide, ?_⟩, by decide, ?_⟩
  · refine ⟨['a'], "0]]".toList, by decide, ?_⟩
    exact @Visits.next "[0]]".toList ['0'] [']'] [']'] (by decide) (by decide) (Visits.first [']'])
  · intro h
    exact absurd h.1 (by decide)

end LayeredConfig.Name
