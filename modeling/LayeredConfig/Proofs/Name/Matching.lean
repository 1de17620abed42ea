import LayeredConfig.Proofs.Name.Cover
import LayeredConfig.Proofs.Name.Literal

/-!
# `LayeredConfig.Proofs.Name.Matching` — the scanner decides the language of a pattern

The scanner reads two texts from the right, character by character, with jumps over index groups and several
ways to go on behind a `*`. On well-formed texts it takes one block of the name for each segment of the
pattern, so that it answers whether the pattern covers the name.

## Contents
- **Segments of a text.** `dropSegment_back` removes exactly one base, `mem_stops_back` says where a `*` may
  stop.
- **One segment.** `matchesRev_indexes` for the index groups, `matchesRev_literal` and `matchesRev_wildcard`
  for the base.
- **Whole names.** `matchesRev_back` steps over one segment of the pattern, `matchesRev_behind` is the
  induction over all of them.
- **Equality.** `alike_text_iff_covers`: against a concrete name the equality of texts decides whether the
  pattern covers it, from either side.
-/

namespace LayeredConfig.Name

open Text

/-! ## Segments of a text -/

/-- A run without dots, quotes and brackets is removed as a whole, up to the end of the name or a dot. -/
theorem dropSegment_run {t r : Text} (ht : t ≠ []) (hfree : ∀ c ∈ t, c ≠ '.' ∧ c ≠ '"' ∧ c ≠ '[' ∧ c ≠ ']')
    (hr : r = [] ∨ ∃ u, r = '.' :: u) : dropSegment (t ++ r) = some r := by
  have hstop : r.takeWhile (· != '.') = [] ∧ r.dropWhile (· != '.') = r := by
    rcases hr with rfl | ⟨u, rfl⟩ <;> simp
  obtain ⟨c, u, rfl⟩ := List.exists_cons_of_ne_nil ht
  have htake : ((c :: u) ++ r).takeWhile (· != '.') = c :: u := by
    rw [List.takeWhile_append_of_pos (fun d hd => by simp [(hfree d hd).1]), hstop.1, List.append_nil]
  have hdrop : ((c :: u) ++ r).dropWhile (· != '.') = r := by
    rw [List.dropWhile_append_of_pos (fun d hd => by simp [(hfree d hd).1]), hstop.2]
  have hbr : (c :: u).any (fun d => d == '[' || d == ']') = false := by
    rw [List.any_eq_false]
    intro d hd
    simp [(hfree d hd).2.2.1, (hfree d hd).2.2.2]
  rw [List.cons_append] at htake hdrop ⊢
  rw [dropSegment, if_neg (hfree c List.mem_cons_self).2.1]
  simp only [htake, hdrop, hbr]
  simp

/-- A base is the whole segment that is removed, when the end of the name or a dot stands before it. -/
theorem dropSegment_back (b : Base) {r : Text} (hr : r = [] ∨ ∃ u, r = '.' :: u) :
    dropSegment (b.back ++ r) = some r := by
  cases b with
  | plain t ne free =>
      refine dropSegment_run (List.reverse_ne_nil_iff.mpr ne) (fun c hc => ?_) hr
      obtain ⟨hdot, hres⟩ := free c (List.mem_reverse.mp hc)
      obtain ⟨hq, ho, hb, -⟩ := not_mem_reserved.mp hres
      exact ⟨hdot, hq, ho, hb⟩
  | quoted t ne free =>
      have hq : '"' ∉ t.reverse := fun hm => free '"' (List.mem_reverse.mp hm) (by simp [reserved])
      have hback : (Base.quoted t ne free).back ++ r = '"' :: (t.reverse ++ '"' :: r) := by
        simp [Base.back, Base.text]
      rw [hback, dropSegment, if_pos rfl, cut_append hq]
      simp [ne]
  | star => exact dropSegment_run (by simp [Base.back, Base.text]) (by simp [Base.back, Base.text]) hr

/-- Nothing ends in an index group that a `*` could absorb. -/
theorem dropSegment_bracket (r : Text) : dropSegment (']' :: r) = none := by
  rw [dropSegment, if_neg (by decide)]
  simp

/-- The base decides where the written segment ends: two bases before the end or a dot are the same. -/
theorem back_append_inj {b b' : Base} {r r' : Text} (hr : r = [] ∨ ∃ u, r = '.' :: u)
    (hr' : r' = [] ∨ ∃ u, r' = '.' :: u) (h : b.back ++ r = b'.back ++ r') :
    b.text = b'.text ∧ r = r' := by
  have hrest : some r = some r' := by
    rw [← dropSegment_back b hr, h, dropSegment_back b' hr']
  rw [Option.some.injEq] at hrest
  subst hrest
  exact ⟨List.reverse_injective (List.append_cancel_right h), rfl⟩

/-- A `*` that has absorbed a base stops there, or, when it is elastic, behind any further segments without
index groups. -/
theorem mem_stops_back {elastic : Bool} {b : Base} {ts : List Segment} {x : Text} :
    x ∈ stops elastic (b.back ++ behind ts) ↔ ∃ before after, ts = before ++ after ∧
      (∀ u ∈ before, u.indexes = []) ∧ (before ≠ [] → elastic = true) ∧ x = behind after := by
  induction ts generalizing b with
  | nil =>
      rw [behind, stops_of_end (dropSegment_back b (Or.inl rfl)) (by simp), List.mem_singleton]
      constructor
      · rintro rfl
        exact ⟨[], [], rfl, by simp, by simp, rfl⟩
      · rintro ⟨before, after, h, -, -, rfl⟩
        rw [(List.append_eq_nil_iff.mp h.symm).2, behind]
  | cons t ts ih =>
      rw [behind, stops_of_dot (dropSegment_back b (Or.inr ⟨_, rfl⟩)), List.mem_cons]
      constructor
      · rintro (rfl | hx)
        · exact ⟨[], t :: ts, rfl, by simp, by simp, rfl⟩
        · cases elastic with
          | false => simp at hx
          | true =>
              rw [if_pos rfl, back_cons, Segment.back_eq] at hx
              cases hidx : t.indexes.reverse with
              | cons g gs =>
                  -- a segment with a group stops the `*`
                  rw [hidx, List.flatMap_cons, Index.back_eq] at hx
                  simp only [List.cons_append] at hx
                  rw [stops_of_none (dropSegment_bracket _)] at hx
                  exact absurd hx List.not_mem_nil
              | nil =>
                  rw [hidx, List.flatMap_nil, List.nil_append] at hx
                  obtain ⟨before, after, rfl, hno, -, rfl⟩ := ih.mp hx
                  refine ⟨t :: before, after, rfl, ?_, fun _ => rfl, rfl⟩
                  intro u hu
                  rcases List.mem_cons.mp hu with rfl | hu
                  · exact List.reverse_eq_nil_iff.mp hidx
                  · exact hno u hu
      · rintro ⟨before, after, h, hno, hel, rfl⟩
        cases before with
        | nil =>
            left
            rw [← show t :: ts = after from h, behind]
        | cons u before =>
            right
            rw [List.cons_append, List.cons.injEq] at h
            obtain ⟨rfl, rfl⟩ := h
            have he : elastic = true := hel (by simp)
            subst he
            rw [if_pos rfl, back_cons, Segment.back_eq, hno t List.mem_cons_self,
              List.reverse_nil, List.flatMap_nil, List.nil_append]
            exact ih.mpr ⟨before, after, rfl, fun v hv => hno v (List.mem_cons_of_mem t hv), fun _ => rfl, rfl⟩

/-! ## One segment -/

/-- Index groups agree exactly when the concrete one is covered. -/
theorem indexAgrees_reverse {g h : Index} (hh : h ≠ .any) :
    indexAgrees g.inner.reverse h.inner.reverse = true ↔ g.Covers h := by
  have hstar : ∀ t : Text, isNumeric t = true → t ≠ ['*'] := fun t ht e =>
    star_not_mem_of_isNumeric ht (by simp [e])
  have hnum : ∀ t : Text, isNumeric t.reverse = isNumeric t := fun t => by simp [isNumeric]
  cases h with
  | any => exact absurd rfl hh
  | digits u hu =>
      have hu' := hstar u hu
      cases g with
      | any => simp [indexAgrees, Index.inner, Index.Covers, hnum, hu]
      | digits t ht =>
          have ht' := hstar t ht
          have hsing : ∀ v : Text, v.reverse = ['*'] ↔ v = ['*'] := fun v => by
            rw [List.reverse_eq_iff, List.reverse_singleton]
          simp [indexAgrees, Index.inner, Index.Covers, hsing, ht', hu']

theorem Index.bracket_not_mem (g : Index) : '[' ∉ g.inner.reverse := by
  intro hm
  exact (g.inner_free (List.mem_reverse.mp hm)).2.1 rfl

/-- Where the pattern goes on with a base, the name must not go on with a group. -/
theorem matchesRev_base_bracket {right : Option Char} (b : Base) (p o : Text) :
    matchesRev right (b.back ++ p) (']' :: o) = false := by
  obtain ⟨c, u, hb, hc⟩ := b.back_eq_cons
  rw [hb, List.cons_append]
  by_cases hstar : c = '*' ∧ starStands right (u ++ p).head? = true
  · rw [hstar.1, matchesRev_star hstar.2, stops_of_none (dropSegment_bracket o), List.any_nil]
  · have hne : ¬(c = ']' ∧ (']' : Char) = ']') := fun h => hc h.1
    rw [matchesRev, if_neg hstar, if_neg hne]
    simp [hc]

/-- The groups of a segment of the pattern are matched one by one with those of a segment of the name, and
the base behind them with the base. -/
theorem matchesRev_indexes {right : Option Char} {gs hs : List Index} {b d : Base} {p o : Text}
    (hh : ∀ h ∈ hs, h ≠ .any) :
    matchesRev right (gs.flatMap Index.back ++ (b.back ++ p)) (hs.flatMap Index.back ++ (d.back ++ o)) = true ↔
      List.Forall₂ Index.Covers gs hs ∧
        matchesRev (if gs = [] then right else some '[') (b.back ++ p) (d.back ++ o) = true := by
  induction gs generalizing right hs with
  | nil =>
      cases hs with
      | nil => simp
      | cons h hs =>
          rw [List.flatMap_nil, List.nil_append, List.flatMap_cons, Index.back_eq]
          simp only [List.cons_append, matchesRev_base_bracket]
          simp
  | cons g gs ih =>
      cases hs with
      | nil =>
          obtain ⟨c, u, hd, hc⟩ := d.back_eq_cons
          rw [List.flatMap_nil, List.nil_append, List.flatMap_cons, Index.back_eq, hd]
          simp only [List.cons_append]
          rw [matchesRev_cons (by decide) (Or.inr hc)]
          simp [Ne.symm hc]
      | cons h hs =>
          have hcov := indexAgrees_reverse (g := g) (hh h List.mem_cons_self)
          have hrest := @ih (some '[') hs fun k hk => hh k (List.mem_cons_of_mem h hk)
          rw [List.flatMap_cons, List.flatMap_cons, Index.back_eq, Index.back_eq]
          simp only [List.cons_append, List.append_assoc, List.nil_append]
          rw [matchesRev_group g.bracket_not_mem h.bracket_not_mem, Bool.and_eq_true, hcov, hrest,
            List.forall₂_cons, and_assoc, if_neg (List.cons_ne_nil g gs), ite_self]

/-- A text without `*` and closing brackets stands for itself. -/
theorem matchesRev_literal {right : Option Char} {u p o : Text} (hu : ∀ c ∈ u, c ≠ '*' ∧ c ≠ ']') :
    matchesRev right (u ++ p) o = true ↔
      ∃ o', o = u ++ o' ∧ matchesRev (u.getLast?.or right) p o' = true := by
  induction u generalizing right o with
  | nil => simp
  | cons c u ih =>
      have hc := hu c List.mem_cons_self
      have hlast : (c :: u).getLast?.or right = u.getLast?.or (some c) := by
        rw [List.getLast?_cons, Option.or_some]
        rfl
      have hrest := @ih (some c)
      cases o with
      | nil => simp
      | cons d o =>
          rw [List.cons_append, matchesRev_cons hc.1 (Or.inl hc.2), Bool.and_eq_true, beq_iff_eq,
            hrest fun e he => hu e (List.mem_cons_of_mem c he), hlast]
          constructor
          · rintro ⟨rfl, o', rfl, h⟩
            exact ⟨o', rfl, h⟩
          · rintro ⟨o', h, hm⟩
            rw [List.cons_append, List.cons.injEq] at h
            exact ⟨h.1.symm, o', h.2, hm⟩

/-- Behind a segment both texts end, or both go on with a dot. -/
theorem matchesRev_behind_iff {right : Option Char} {rs : List Segment} {o : Text} :
    matchesRev right (behind rs) o = true ↔
      rs = [] ∧ o = [] ∨ rs ≠ [] ∧ ∃ o', o = '.' :: o' ∧ matchesRev (some '.') (back rs) o' = true := by
  cases rs with
  | nil => cases o <;> simp [behind]
  | cons r rs =>
      cases o with
      | nil => simp [behind]
      | cons d o =>
          rw [behind, matchesRev_cons (by decide) (Or.inl (by decide)), Bool.and_eq_true, beq_iff_eq]
          constructor
          · rintro ⟨rfl, h⟩
            exact Or.inr ⟨by simp, o, rfl, h⟩
          · rintro (⟨h, -⟩ | ⟨-, o', h, hm⟩)
            · exact absurd h (by simp)
            · rw [List.cons.injEq] at h
              exact ⟨h.1.symm, h.2 ▸ hm⟩

/-- What follows a base on the left does not depend on the character to its right. -/
theorem matchesRev_behind_right {right : Option Char} {rs : List Segment} {o : Text} :
    matchesRev right (behind rs) o = matchesRev none (behind rs) o := by
  rw [Bool.eq_iff_iff, matchesRev_behind_iff, matchesRev_behind_iff]

/-- A base without wildcard matches the base of the same text. -/
theorem matchesRev_base {right : Option Char} {b d : Base} {rs ts : List Segment} (hb : b ≠ .star) :
    matchesRev right (b.back ++ behind rs) (d.back ++ behind ts) = true ↔
      b.text = d.text ∧ matchesRev none (behind rs) (behind ts) = true := by
  rw [matchesRev_literal fun c hc => Base.mem_back_of_ne_star hb hc]
  constructor
  · rintro ⟨o, ho, hm⟩
    have hdot : o = [] ∨ ∃ u, o = '.' :: u := by
      rcases matchesRev_behind_iff.mp hm with ⟨-, h⟩ | ⟨-, u, h, -⟩
      · exact Or.inl h
      · exact Or.inr ⟨u, h⟩
    obtain ⟨htext, hrest⟩ := back_append_inj (head_behind ts) hdot ho
    rw [matchesRev_behind_right, ← hrest] at hm
    exact ⟨htext.symm, hm⟩
  · rintro ⟨htext, hm⟩
    refine ⟨behind ts, ?_, ?_⟩
    · rw [Base.back, Base.back, htext]
    · rw [matchesRev_behind_right]
      exact hm

/-- A `*` base matches any base, and before it, when the `*` is elastic, further segments without groups. -/
theorem matchesRev_wildcard {right : Option Char} {d : Base} {rs ts : List Segment}
    (hright : right = none ∨ right = some '.' ∨ right = some '[') :
    matchesRev right (Base.star.back ++ behind rs) (d.back ++ behind ts) = true ↔
      ∃ before after, ts = before ++ after ∧ (∀ u ∈ before, u.indexes = []) ∧
        (before ≠ [] → rs = [] ∨ right = none) ∧ matchesRev none (behind rs) (behind after) = true := by
  obtain ⟨c, u, hd, -⟩ := d.back_eq_cons
  have hstands : starStands right (behind rs).head? = true := by
    have hleft : (behind rs).head? = none ∨ (behind rs).head? = some '.' := by
      cases rs <;> simp [behind]
    rcases hright with rfl | rfl | rfl <;> rcases hleft with h | h <;> rw [h] <;> decide
  have hempty : (behind rs).isEmpty = true ↔ rs = [] := by
    cases rs <;> simp [behind]
  have helastic : ((behind rs).isEmpty || right == none) = true ↔ rs = [] ∨ right = none := by
    rw [Bool.or_eq_true, hempty, beq_iff_eq]
  have hstep : matchesRev right (Base.star.back ++ behind rs) (d.back ++ behind ts) =
      (stops ((behind rs).isEmpty || right == none) (d.back ++ behind ts)).any
        fun rest => matchesRev (some '*') (behind rs) rest := by
    rw [hd, List.cons_append]
    exact matchesRev_star hstands
  rw [hstep, List.any_eq_true]
  constructor
  · rintro ⟨x, hx, hm⟩
    obtain ⟨before, after, rfl, hno, hel, rfl⟩ := mem_stops_back.mp hx
    rw [matchesRev_behind_right] at hm
    exact ⟨before, after, rfl, hno, fun h => helastic.mp (hel h), hm⟩
  · rintro ⟨before, after, rfl, hno, hel, hm⟩
    rw [← matchesRev_behind_right] at hm
    exact ⟨behind after, mem_stops_back.mpr ⟨before, after, rfl, hno, fun h => helastic.mpr (hel h), rfl⟩, hm⟩

/-! ## Whole names -/

/-- One step: the scanner takes one block for the last segment of the pattern and goes on before it. -/
theorem matchesRev_back {right : Option Char} {s : Segment} {rs ts : List Segment}
    (hright : right = none ∨ right = some '.') (hts : ∀ t ∈ ts, t.IsConcrete)
    (ih : ∀ us, (∀ u ∈ us, u.IsConcrete) →
      (matchesRev none (behind rs) (behind us) = true ↔ Aligns false rs us)) :
    matchesRev right (back (s :: rs)) (back ts) = true ↔ Aligns right.isNone (s :: rs) ts := by
  cases ts with
  | nil =>
      obtain ⟨c, u, h⟩ : ∃ c u, back (s :: rs) = c :: u := by
        apply List.exists_cons_of_ne_nil
        obtain ⟨c, u, hb, -⟩ := s.base.back_eq_cons
        rw [back_cons, Segment.back_eq, hb]
        simp
      rw [h, show back [] = [] from rfl, matchesRev_cons_nil]
      simp [Aligns]
  | cons t ts =>
      have ht : ∀ g ∈ t.indexes.reverse, g ≠ .any := fun g hg =>
        (hts t List.mem_cons_self).2 g (List.mem_reverse.mp hg)
      have hlast : right.isNone = true ∧ s.indexes = [] ↔
          (if s.indexes.reverse = [] then right else some '[') = none := by
        by_cases h : s.indexes = [] <;> simp [h]
      have hstand : (if s.indexes.reverse = [] then right else some '[') = none ∨
          (if s.indexes.reverse = [] then right else some '[') = some '.' ∨
          (if s.indexes.reverse = [] then right else some '[') = some '[' := by
        rcases hright with rfl | rfl <;> split <;> simp
      rw [back_cons, back_cons, Segment.back_eq, Segment.back_eq, List.append_assoc, List.append_assoc,
        matchesRev_indexes ht, List.forall₂_reverse_iff]
      by_cases hs : s.base = .star
      · rw [hs, matchesRev_wildcard hstand]
        constructor
        · rintro ⟨hidx, before, after, rfl, hno, hel, hm⟩
          refine ⟨t, before, after, rfl, ⟨Or.inl hs, hidx⟩, hno, fun h => ⟨hs, ?_⟩, ?_⟩
          · rw [hlast]
            exact hel h
          · refine (ih after fun u hu => hts u ?_).mp hm
            exact List.mem_cons_of_mem t (List.mem_append_right before hu)
        · rintro ⟨t', before, after, h, hcov, hno, hel, hrest⟩
          rw [List.cons_append, List.cons.injEq] at h
          obtain ⟨rfl, rfl⟩ := h
          refine ⟨hcov.indexes, before, after, rfl, hno, fun h => ?_, ?_⟩
          · rw [← hlast]
            exact (hel h).2
          · refine (ih after fun u hu => hts u ?_).mpr hrest
            exact List.mem_cons_of_mem t (List.mem_append_right before hu)
      · rw [matchesRev_base hs, ih ts fun u hu => hts u (List.mem_cons_of_mem t hu)]
        constructor
        · rintro ⟨hidx, htext, hrest⟩
          exact ⟨t, [], ts, rfl, ⟨Or.inr htext, hidx⟩, by simp, by simp, hrest⟩
        · rintro ⟨t', before, after, h, hcov, -, hel, hrest⟩
          rw [List.cons_append, List.cons.injEq] at h
          obtain ⟨rfl, rfl⟩ := h
          -- only a wildcard has segments before the one it covers
          have hbefore : before = [] := Classical.byContradiction fun hne => hs (hel hne).1
          subst hbefore
          exact ⟨hcov.indexes, hcov.base.resolve_left hs, hrest⟩

/-- Every step together: before a dot the scanner decides the alignment of what is left. -/
theorem matchesRev_behind {rs ts : List Segment} (hts : ∀ t ∈ ts, t.IsConcrete) :
    matchesRev none (behind rs) (behind ts) = true ↔ Aligns false rs ts := by
  induction rs generalizing ts with
  | nil => cases ts <;> simp [behind, Aligns]
  | cons s rs ih =>
      rw [matchesRev_behind_iff]
      cases ts with
      | nil => simp [behind, Aligns]
      | cons t ts =>
          have hstep := @matchesRev_back (some '.') s rs (t :: ts) (Or.inr rfl) hts fun us hus => ih hus
          rw [← show Aligns (some '.').isNone (s :: rs) (t :: ts) ↔ Aligns false (s :: rs) (t :: ts) from Iff.rfl,
            ← hstep]
          simp [behind]

/-- Matching decides whether a pattern covers a concrete name. -/
theorem matchesPattern_text_iff {p c : Pattern} (hc : c.IsConcrete) :
    matchesPattern p.text c.text = true ↔ p.Covers c := by
  obtain ⟨s, rs, hp⟩ := List.exists_cons_of_ne_nil (List.reverse_ne_nil_iff.mpr p.ne)
  have hcs : ∀ t ∈ c.segments.reverse, t.IsConcrete := fun t ht => hc t (List.mem_reverse.mp ht)
  rw [matchesPattern, Pattern.reverse_text, Pattern.reverse_text, Pattern.covers_iff_aligns, hp]
  exact matchesRev_back (Or.inl rfl) hcs fun us hus => matchesRev_behind hus

/-! ## Equality -/

/-- A pattern equals a concrete name when it covers it: matching in the other direction adds nothing. -/
theorem alike_text_iff {p c : Pattern} (hc : c.IsConcrete) : alike p.text c.text = true ↔ p.Covers c := by
  rw [alike_iff_of_no_star (Pattern.star_not_mem_text.mpr hc), matchesPattern_text_iff hc]
  constructor
  · rintro (htext | hcov)
    · -- the same text is matched by itself, whatever tree it was written from
      rw [← matchesPattern_text_iff hc, htext, matchesPattern_text_iff hc]
      exact c.covers_refl
    · exact hcov
  · exact Or.inr

/-- **Equality decides the declared language.** A pattern and a concrete name are equal, from either side,
exactly when the segments of the name can be cut into blocks for the segments of the pattern. -/
theorem alike_text_iff_covers (p c : Pattern) (hc : '*' ∉ c.text) :
    (alike p.text c.text = true ↔ p.Covers c) ∧ (alike c.text p.text = true ↔ p.Covers c) := by
  have hiff : alike p.text c.text = true ↔ p.Covers c := alike_text_iff (Pattern.star_not_mem_text.mp hc)
  refine ⟨hiff, ?_⟩
  rw [alike_comm]
  exact hiff

/-- The first `*` of `*.b[*]` takes both segments before `b[7]`. -/
theorem covers_of_alike_elastic :
    let p : Pattern := ⟨[⟨.star, []⟩, ⟨.plain ['b'] (by simp) (by simp [reserved]), [.any]⟩], by simp⟩
    let c : Pattern := ⟨[⟨.plain ['x'] (by simp) (by simp [reserved]), []⟩,
      ⟨.quoted ['y', '.', 'z'] (by simp) (by simp [reserved]), []⟩,
      ⟨.plain ['b'] (by simp) (by simp [reserved]), [.digits ['7'] (by decide)]⟩], by simp⟩
    c.text = "x.\"y.z\".b[7]".toList ∧ '*' ∉ c.text ∧ p.Covers c := by
  intro p c
  have hc : '*' ∉ c.text := by decide
  refine ⟨by decide, hc, ?_⟩
  exact (alike_text_iff_covers p c hc).1.mp (by decide +kernel)

end LayeredConfig.Name
