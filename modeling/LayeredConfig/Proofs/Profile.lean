import LayeredConfig.Pipeline.Assembly
import Mathlib.Data.List.DropRight
import Mathlib.Data.List.Sort
import Mathlib.Data.List.TakeWhile

/-!
# `LayeredConfig.Proofs.Profile` — lists of profiles are normalised

However often a profile is given, and whatever blanks and empty entries stand around it, the list of profiles holds it
once. Its place is that of its last occurrence, the latest in front; only the parent stands behind all others. A list in
this form can be written with commas, from its end, and is read as it was.

## Contents
- **Fields.** Pieces without the separator are the fields of what they are joined to (`Text.fields_joinWith`).
- **Trimming.** `Text.trim_trim`; trimming adds no character (`Text.mem_of_mem_trim`).
- **Order.** `LatestFirst` lists the entries of another list by their last occurrence; there is one such list
  (`LatestFirst.unique`), and `distinct` finds it from the right (`latestFirst_distinct`).
- **Lists of profiles.** `tokens` are the entries of a text, `Normalised` is the form of every list of profiles
  (`normalised_parse`); `listed_joinWith`, `parse_normalised`.
- **Assembly.** The profiles of a configuration are normalised, wherever they come from (`Parts.normalised_profiles`).
-/

namespace LayeredConfig

namespace Text

/-! ## Fields -/

theorem not_mem_of_mem_fields {x : Char} {s t : Text} (h : t ∈ fields x s) : x ∉ t := by
  induction s generalizing t with
  | nil =>
      rw [List.mem_singleton.mp h]
      exact List.not_mem_nil
  | cons c r ih =>
      rw [fields] at h
      split at h
      · rcases List.mem_cons.mp h with rfl | h
        · exact List.not_mem_nil
        · exact ih h
      · next hc =>
          obtain ⟨u, us, hf⟩ := List.exists_cons_of_ne_nil (fields_ne_nil x r)
          rw [hf, consFirst, List.mem_cons] at h
          rcases h with rfl | h
          · exact List.not_mem_cons_of_ne_of_not_mem (Ne.symm hc) (ih (hf ▸ List.mem_cons_self))
          · exact ih (hf ▸ List.mem_cons_of_mem u h)

theorem fields_of_not_mem {x : Char} {t : Text} (h : x ∉ t) : fields x t = [t] := by
  induction t with
  | nil => rfl
  | cons c r ih =>
      rw [List.mem_cons, not_or] at h
      rw [fields, if_neg (Ne.symm h.1), ih h.2, consFirst]

theorem fields_append {x : Char} {t : Text} (h : x ∉ t) (s : Text) : fields x (t ++ x :: s) = t :: fields x s := by
  induction t with
  | nil => rw [List.nil_append, fields, if_pos rfl]
  | cons c r ih =>
      rw [List.mem_cons, not_or] at h
      rw [List.cons_append, fields, if_neg (Ne.symm h.1), ih h.2, consFirst]

/-- Pieces that do not hold the separator are found again. -/
theorem fields_joinWith {x : Char} {ts : List Text} (hne : ts ≠ []) (h : ∀ t ∈ ts, x ∉ t) : fields x (joinWith x ts) = ts := by
  induction ts with
  | nil => exact absurd rfl hne
  | cons t r ih =>
      obtain ⟨ht, hr⟩ := List.forall_mem_cons.mp h
      by_cases hend : r = []
      · rw [hend, joinWith, fields_of_not_mem ht]
      · have hjoin : joinWith x (t :: r) = t ++ x :: joinWith x r := joinWith_append x (List.cons_ne_nil t []) hend
        rw [hjoin, fields_append ht, ih hend hr]

/-! ## Trimming -/

theorem trim_trim (t : Text) : trim (trim t) = trim t := by
  have hleft : trimLeft (trim t) = trim t := by
    refine List.dropWhile_eq_self_iff.mpr fun hlength => Bool.eq_false_iff.mp (isBlank_head_trim (t := t) ?_)
    rw [List.head?_eq_getElem?, List.getElem?_eq_getElem hlength]
  have hright : dropRightWhile isBlank (trim t) = trim t :=
    List.rdropWhile_eq_self_iff.mpr fun hne =>
      Bool.eq_false_iff.mp (isBlank_getLast_trim (List.getLast?_eq_some_getLast hne))
  rw [trim, hleft, hright]

theorem mem_of_mem_trim {t : Text} {c : Char} (h : c ∈ trim t) : c ∈ t := by
  have hright : trim t <+: trimLeft t := dropRightWhile_prefix isBlank (trimLeft t)
  have hleft : trimLeft t <:+ t := List.dropWhile_suffix isBlank
  exact hleft.subset (hright.subset h)

end Text

namespace Profile

open Text

/-! ## Order -/

/-- Some place of `p` in a list has no `q` behind it: of different entries, the last `p` stands behind the last `q`. -/
def LastBehind (l : List Text) (p q : Text) : Prop := ∃ a b, l = a ++ p :: b ∧ q ∉ b

/-- The entries of a list, each of them once, by the place of their last occurrence: the last one of the list first. -/
structure LatestFirst (given ps : List Text) : Prop where
  nodup : ps.Nodup
  mem_iff {p : Text} : p ∈ ps ↔ p ∈ given
  latest : ps.Pairwise (LastBehind given)

variable {given l ps qs : List Text} {p q : Text}

theorem LastBehind.append_left (h : LastBehind l p q) (r : List Text) : LastBehind (r ++ l) p q := by
  obtain ⟨a, b, rfl, hb⟩ := h
  exact ⟨r ++ a, b, (List.append_assoc r a (p :: b)).symm, hb⟩

theorem LastBehind.append_right (h : LastBehind l p q) {r : List Text} (hr : q ∉ r) : LastBehind (l ++ r) p q := by
  obtain ⟨a, b, rfl, hb⟩ := h
  refine ⟨a, b ++ r, List.append_assoc a (p :: b) r, ?_⟩
  rw [List.mem_append, not_or]
  exact ⟨hb, hr⟩

theorem eq_of_cons_eq_append {a b b' : List Text} (h : p :: b = a ++ q :: b') (hq : q ∉ b) : p = q := by
  rcases List.cons_eq_append_iff.mp h with ⟨-, hcons⟩ | ⟨a', -, rfl⟩
  · exact (List.cons.inj hcons).1.symm
  · exact absurd (List.mem_append_right a' List.mem_cons_self) hq

/-- Of two different entries only one has its last occurrence behind the other. -/
theorem LastBehind.antisymm (hpq : LastBehind l p q) (hqp : LastBehind l q p) : p = q := by
  obtain ⟨a, b, rfl, hq⟩ := hpq
  obtain ⟨a', b', heq, hp⟩ := hqp
  rcases List.append_eq_append_iff.mp heq with ⟨s, -, hs⟩ | ⟨s, -, hs⟩
  · exact eq_of_cons_eq_append hs hq
  · exact (eq_of_cons_eq_append hs hp).symm

/-- There is one list of the entries of another one by their last occurrence. -/
theorem LatestFirst.unique (hps : LatestFirst given ps) (hqs : LatestFirst given qs) : ps = qs := by
  have hperm : ps.Perm qs :=
    (List.perm_ext_iff_of_nodup hps.nodup hqs.nodup).mpr fun p => hps.mem_iff.trans hqs.mem_iff.symm
  exact hperm.eq_of_pairwise (fun p q _ _ => LastBehind.antisymm) hps.latest hqs.latest

/-- A list without repetitions lists the entries of its reverse. -/
theorem latestFirst_reverse (h : ps.Nodup) : LatestFirst ps.reverse ps := by
  refine ⟨h, List.mem_reverse.symm, ?_⟩
  induction ps with
  | nil => exact List.Pairwise.nil
  | cons p ps ih =>
      obtain ⟨hp, hps⟩ := List.nodup_cons.mp h
      rw [List.reverse_cons]
      refine List.pairwise_cons.mpr ⟨fun q _ => ⟨ps.reverse, [], rfl, List.not_mem_nil⟩, ?_⟩
      refine (ih hps).imp_of_mem fun _ hr hqr => hqr.append_right ?_
      rw [List.mem_singleton]
      rintro rfl
      exact hp hr

theorem mem_addNew : q ∈ addNew ps p ↔ q ∈ ps ∨ q = p := by
  unfold addNew
  split
  · next hp => exact ⟨Or.inl, fun h => h.elim id fun e => e ▸ hp⟩
  · rw [List.mem_append, List.mem_singleton]

theorem nodup_addNew (h : ps.Nodup) (p : Text) : (addNew ps p).Nodup := by
  unfold addNew
  split
  · exact h
  · next hp =>
      refine List.nodup_append.mpr ⟨h, List.nodup_singleton p, fun q hq r hr => ?_⟩
      rw [List.mem_singleton.mp hr]
      rintro rfl
      exact hp hq

theorem distinct_concat (l : List Text) (p : Text) : distinct (l ++ [p]) = addNew (distinct l) p := List.foldl_append

/-- The first occurrences from the right are the last ones. -/
theorem latestFirst_distinct (given : List Text) : LatestFirst given (distinct given.reverse) := by
  induction given with
  | nil => exact ⟨List.nodup_nil, Iff.rfl, List.Pairwise.nil⟩
  | cons p l ih =>
      rw [List.reverse_cons, distinct_concat]
      have hlatest : (distinct l.reverse).Pairwise (LastBehind (p :: l)) := ih.latest.imp fun h => h.append_left [p]
      refine ⟨nodup_addNew ih.nodup p, ?_, ?_⟩
      · intro q
        rw [mem_addNew, ih.mem_iff, List.mem_cons, or_comm]
      · unfold addNew
        split
        · exact hlatest
        · next hp =>
            -- a new entry stands in front of all others in the list, and is put behind them
            refine List.pairwise_append.mpr ⟨hlatest, List.pairwise_singleton _ p, fun q hq r hr => ?_⟩
            obtain ⟨a, b, rfl⟩ := List.append_of_mem (ih.mem_iff.mp hq)
            rw [List.mem_singleton.mp hr]
            refine ⟨p :: a, b, rfl, fun hmem => hp (ih.mem_iff.mpr ?_)⟩
            exact List.mem_append_right a (List.mem_cons_of_mem q hmem)

/-! ## Lists of profiles -/

/-- The trimmed entries of a comma-separated list that are not empty, in the order of the text. -/
def tokens (value : Text) : List Text := ((fields ',' value).map trim).filter fun p => !p.isEmpty

/-- The form of a list of profiles: none stands in it twice, and each is a trimmed text that is not empty. -/
structure Normalised (ps : List Text) : Prop where
  nodup : ps.Nodup
  trimmed : ∀ p ∈ ps, p ≠ [] ∧ trim p = p

theorem mem_tokens {value : Text} (h : p ∈ tokens value) : (p ≠ [] ∧ trim p = p) ∧ ',' ∉ p := by
  obtain ⟨hmem, hne⟩ := List.mem_filter.mp h
  obtain ⟨t, ht, rfl⟩ := List.mem_map.mp hmem
  refine ⟨⟨by simpa using hne, trim_trim t⟩, fun hcomma => ?_⟩
  exact not_mem_of_mem_fields ht (mem_of_mem_trim hcomma)

/-- The profiles of a text are its entries by their last occurrence. -/
theorem latestFirst_listed (value : Text) : LatestFirst (tokens value) (listed value) := latestFirst_distinct (tokens value)

theorem normalised_listed (value : Text) : Normalised (listed value) where
  nodup := (latestFirst_listed value).nodup
  trimmed _ hp := (mem_tokens ((latestFirst_listed value).mem_iff.mp hp)).1

/-- The parent is put behind the others, trimmed, unless it is empty or one of them. -/
theorem withParent_eq (ps : List Text) (parent : Option Text) :
    withParent ps parent = ps ++ ((parent.map trim).filter fun p => p ≠ [] ∧ p ∉ ps).toList := by
  cases parent with
  | none => exact (List.append_nil ps).symm
  | some p =>
      by_cases hempty : trim p = []
      · simp [withParent, hempty]
      · by_cases hmem : trim p ∈ ps
        · simp [withParent, addNew, hempty, hmem]
        · simp [withParent, addNew, hempty, hmem, Option.filter]

theorem Normalised.withParent (h : Normalised ps) (parent : Option Text) : Normalised (withParent ps parent) := by
  cases parent with
  | none => exact h
  | some p =>
      show Normalised (if (trim p).isEmpty then ps else addNew ps (trim p))
      split
      · exact h
      · next hne =>
          refine ⟨nodup_addNew h.nodup (trim p), fun q hq => ?_⟩
          rcases mem_addNew.mp hq with hq | rfl
          · exact h.trimmed q hq
          · exact ⟨by simpa using hne, trim_trim p⟩

theorem normalised_parse (value : Text) (parent : Option Text) : Normalised (parse value parent) :=
  (normalised_listed value).withParent parent

/-- A written list has its own entries. -/
theorem tokens_joinWith (h : ∀ p ∈ ps, (p ≠ [] ∧ trim p = p) ∧ ',' ∉ p) : tokens (joinWith ',' ps) = ps := by
  by_cases hempty : ps = []
  · rw [hempty]
    rfl
  · have htrim : ps.map trim = ps := (List.map_congr_left fun p hp => (h p hp).1.2).trans (List.map_id ps)
    rw [tokens, fields_joinWith hempty fun p hp => (h p hp).2, htrim, List.filter_eq_self]
    intro p hp
    simpa using (h p hp).1.1

/-- A normalised list without commas is written from its end, and is read as it was. -/
theorem listed_joinWith (h : Normalised ps) (hcomma : ∀ p ∈ ps, ',' ∉ p) : listed (joinWith ',' ps.reverse) = ps := by
  have htokens : tokens (joinWith ',' ps.reverse) = ps.reverse :=
    tokens_joinWith fun p hp => ⟨h.trimmed p (List.mem_reverse.mp hp), hcomma p (List.mem_reverse.mp hp)⟩
  have hlisted := latestFirst_listed (joinWith ',' ps.reverse)
  rw [htokens] at hlisted
  exact hlisted.unique (latestFirst_reverse h.nodup)

/-- **Lists of profiles are normalised.** None stands in the list twice, and none is empty or has blanks around it. Without a
parent the list holds the entries of the text and no others, each at the place of its last occurrence and the latest first;
the parent comes behind them unless it is empty or among them, and nothing else does. What was listed without a parent,
written from its end with commas, is read as the same list. -/
theorem parse_normalised (value : Text) (parent : Option Text) :
    Normalised (parse value parent) ∧ LatestFirst (tokens value) (parse value none) ∧
      parse value parent =
        parse value none ++ ((parent.map trim).filter fun p => p ≠ [] ∧ p ∉ tokens value).toList ∧
      parse (joinWith ',' (parse value none).reverse) none = parse value none := by
  have hlisted := latestFirst_listed value
  refine ⟨normalised_parse value parent, hlisted, ?_, ?_⟩
  · show withParent (listed value) parent = listed value ++ _
    simp only [withParent_eq, hlisted.mem_iff]
  · exact listed_joinWith (normalised_listed value) fun p hp => (mem_tokens (hlisted.mem_iff.mp hp)).2

/-- A profile that is given twice, an empty entry, and a parent with blanks around it. -/
example : parse "dev, local,,dev".toList (some " common ".toList) = ["dev".toList, "local".toList, "common".toList] := by
  decide

end Profile

/-! ## Assembly -/

/-- The profiles of a configuration are normalised, whether they are given or read from a property. -/
theorem Parts.normalised_profiles (p : Parts) (files : List TableSource) : Profile.Normalised (p.pipeline files).profiles := by
  show Profile.Normalised (p.activeProfiles _ _)
  unfold activeProfiles
  split
  · exact (Profile.normalised_listed _).withParent _
  · exact (Profile.normalised_listed _).withParent _

end LayeredConfig
