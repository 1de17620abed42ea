import LayeredConfig.Proofs.Name.Grammar
import LayeredConfig.Proofs.Name.Literal

/-!
# `LayeredConfig.Proofs.Name.Shape` — equal names have the same brackets

The hash reads a name from the left and skips quoted runs; the scanner reads two names from the right, compares groups
as a whole and jumps over what a `*` takes, and it knows no quotes. Between quotes brackets may stand as they like, and
a jump of the scanner need not end where a group does. What ties the two together is the state of the quotes: at every
step of a match it is the same on both sides, and so are the brackets outside quotes that are still to come.

## Contents
- **Brackets that count.** `quotedAfter` is the state of the quotes, `marks` are the brackets outside them; the hash is
  one of `marks` (`shapeHash_eq_of_marks`), and both can be read from either side (`marks_reverse`).
- **Texts.** `Silent` texts leave both as they are. In `Tidy` texts quoted runs stand alone and hold no `*`.
- **Steps.** What a `*` takes is silent (`marks_of_mem_stops`), groups that agree have the same marks
  (`groupBack_agrees`); hence `marks_eq_of_matchesRev`.
- **Closed texts.** Tidy texts that close their quotes, and how they are put together; `Closed.shapeHash_eq`.
-/

namespace LayeredConfig.Name

open Text

variable {quoted : Bool} {t u : Text}

/-! ## Brackets that count -/

/-- Whether a quoted run is open after one more character. -/
def quotedNext (quoted : Bool) (c : Char) : Bool := if c = '"' then !quoted else quoted

/-- Whether a quoted run is open after a text. -/
def quotedAfter (quoted : Bool) (t : Text) : Bool := t.foldl quotedNext quoted

/-- A character, if it is a bracket outside quotes. -/
def mark (quoted : Bool) (c : Char) : Text := if !quoted && (c == '[' || c == ']') then [c] else []

/-- The brackets of a text outside quoted runs. -/
def marks : Bool → Text → Text
  | _, [] => []
  | quoted, c :: r => mark quoted c ++ marks (quotedNext quoted c) r

theorem quotedAfter_cons (c : Char) : quotedAfter quoted (c :: t) = quotedAfter (quotedNext quoted c) t := rfl

theorem quotedAfter_append : quotedAfter quoted (t ++ u) = quotedAfter (quotedAfter quoted t) u := List.foldl_append

theorem marks_append : marks quoted (t ++ u) = marks quoted t ++ marks (quotedAfter quoted t) u := by
  induction t generalizing quoted with
  | nil => rfl
  | cons c t ih => rw [List.cons_append, marks, marks, ih, List.append_assoc, quotedAfter_cons]

theorem quotedNext_of_ne {c : Char} (h : c ≠ '"') : quotedNext quoted c = quoted := if_neg h

theorem quotedAfter_of_not_mem (h : '"' ∉ t) : quotedAfter quoted t = quoted := by
  induction t with
  | nil => rfl
  | cons c t ih =>
      rw [List.mem_cons, not_or] at h
      rw [quotedAfter_cons, quotedNext_of_ne (Ne.symm h.1), ih h.2]

theorem quotedNext_twice (c : Char) : quotedNext (quotedNext quoted c) c = quoted := by
  by_cases h : c = '"' <;> simp [quotedNext, h]

/-- A quote is no bracket, and no other character changes the state: a bracket counts in either direction. -/
theorem mark_quotedNext (c : Char) : mark (quotedNext quoted c) c = mark quoted c := by
  by_cases h : c = '"'
  · simp [mark, h]
  · rw [quotedNext_of_ne h]

theorem mark_reverse (c : Char) : (mark quoted c).reverse = mark quoted c := by
  unfold mark
  split <;> rfl

/-- Back at the start of a text the state is the one before it. -/
theorem quotedAfter_reverse : quotedAfter (quotedAfter quoted t) t.reverse = quoted := by
  induction t generalizing quoted with
  | nil => rfl
  | cons c t ih =>
      rw [List.reverse_cons, quotedAfter_append]
      show quotedNext (quotedAfter (quotedAfter (quotedNext quoted c) t) t.reverse) c = quoted
      rw [ih, quotedNext_twice]

theorem marks_reverse : marks (quotedAfter quoted t) t.reverse = (marks quoted t).reverse := by
  induction t generalizing quoted with
  | nil => rfl
  | cons c t ih =>
      -- from the right `c` comes last, in the state that it leaves when it is read from the left
      rw [List.reverse_cons, marks_append, quotedAfter_cons, ih, quotedAfter_reverse, marks, marks, marks,
        mark_quotedNext, List.reverse_append, mark_reverse, List.append_nil]

/-- The hash after one more bracket. -/
def markHash (h : UInt64) (c : Char) : UInt64 := h * 31 + UInt64.ofNat c.toNat

theorem hashStep_eq (h : UInt64) (c : Char) :
    hashStep (quoted, h) c = (quotedNext quoted c, (mark quoted c).foldl markHash h) := by
  unfold hashStep quotedNext mark
  cases quoted with
  | true => by_cases hc : c = '"' <;> simp [hc]
  | false =>
      by_cases hc : c = '"'
      · simp [hc]
      · by_cases hb : c = '[' ∨ c = ']' <;> simp [hc, hb, markHash]

theorem foldl_hashStep_eq (h : UInt64) :
    t.foldl hashStep (quoted, h) = (quotedAfter quoted t, (marks quoted t).foldl markHash h) := by
  induction t generalizing quoted h with
  | nil => rfl
  | cons c t ih => rw [List.foldl_cons, hashStep_eq, ih, marks, List.foldl_append, quotedAfter_cons]

/-- The hash depends on the brackets outside quotes and on their order. -/
theorem shapeHash_eq_of_marks (h : marks false t = marks false u) : shapeHash t = shapeHash u := by
  rw [shapeHash, shapeHash, foldl_hashStep_eq, foldl_hashStep_eq, h]

/-! ## Texts without marks -/

/-- A text that leaves the state of the quotes and has no bracket that counts. -/
structure Silent (quoted : Bool) (t : Text) : Prop where
  quotedAfter_eq : quotedAfter quoted t = quoted
  marks_eq : marks quoted t = []

theorem silent_of_forall (h : ∀ c ∈ t, c ≠ '"' ∧ (quoted = false → c ≠ '[' ∧ c ≠ ']')) : Silent quoted t := by
  constructor
  · apply quotedAfter_of_not_mem
    intro hm
    exact (h '"' hm).1 rfl
  · induction t with
    | nil => rfl
    | cons c t ih =>
        obtain ⟨hquote, hbracket⟩ := h c List.mem_cons_self
        have hmark : mark quoted c = [] := by
          cases quoted with
          | true => rfl
          | false => simp [mark, hbracket rfl]
        rw [marks, quotedNext_of_ne hquote, hmark, ih fun d hd => h d (List.mem_cons_of_mem c hd), List.append_nil]

/-- A whole quoted run. -/
theorem silent_quoted (h : '"' ∉ t) : Silent false ('"' :: t ++ ['"']) := by
  -- inside the quotes brackets do not count
  obtain ⟨hstate, hmarks⟩ : Silent true t := by
    apply silent_of_forall
    intro c hc
    refine ⟨?_, fun hclosed => (by cases hclosed)⟩
    rintro rfl
    exact h hc
  constructor
  · rw [List.cons_append, quotedAfter_cons, quotedAfter_append]
    show quotedAfter (quotedAfter true t) ['"'] = false
    rw [hstate]
    rfl
  · rw [List.cons_append, marks, marks_append]
    show marks true t ++ marks (quotedAfter true t) ['"'] = []
    rw [hmarks, hstate]
    rfl

theorem Silent.marks_append (h : Silent quoted t) : marks quoted (t ++ u) = marks quoted u := by
  rw [Name.marks_append, h.marks_eq, h.quotedAfter_eq, List.nil_append]

/-! ## Tidy texts -/

/-- A text, read from the right, in which a quoted run holds no `*` and stands alone: outside quotes only a dot or the
start of an index group has a quote behind it. -/
def Tidy : Bool → Text → Prop
  | _, [] => True
  | quoted, c :: r =>
      (quoted = true → c ≠ '*') ∧ (quotedNext quoted c = false → r.head? = some '"' → c = '.' ∨ c = '[') ∧
        Tidy (quotedNext quoted c) r

theorem Tidy.of_append (h : Tidy quoted (t ++ u)) : Tidy (quotedAfter quoted t) u := by
  induction t generalizing quoted with
  | nil => exact h
  | cons c t ih => exact ih h.2.2

theorem Silent.tidy_of_append (h : Silent quoted t) (htidy : Tidy quoted (t ++ u)) : Tidy quoted u :=
  h.quotedAfter_eq ▸ htidy.of_append

/-- Tidy texts may be joined where no quoted run starts. -/
theorem Tidy.append_cons {c : Char} (hc : c ≠ '"') (ht : Tidy quoted t) (hu : Tidy (quotedAfter quoted t) (c :: u)) :
    Tidy quoted (t ++ c :: u) := by
  induction t generalizing quoted with
  | nil => exact hu
  | cons d t ih =>
      obtain ⟨hstar, hedge, ht⟩ := ht
      refine ⟨hstar, fun hopen hhead => hedge hopen ?_, ih ht hu⟩
      -- behind the last character of the first text stands `c`
      cases t with
      | nil => exact absurd (Option.some.inj hhead) hc
      | cons e t => exact hhead

theorem tidy_of_not_mem (h : '"' ∉ t) : Tidy false t := by
  induction t with
  | nil => trivial
  | cons c t ih =>
      rw [List.mem_cons, not_or] at h
      refine ⟨fun hopen => (by cases hopen), fun _ hhead => absurd (List.mem_of_head? hhead) h.2, ?_⟩
      rw [quotedNext_of_ne (Ne.symm h.1)]
      exact ih h.2

theorem tidy_quoted (h : ∀ c ∈ t, c ≠ '"' ∧ c ≠ '*') : Tidy true (t ++ ['"']) := by
  induction t with
  | nil => exact ⟨fun _ => by decide, fun _ hhead => (by cases hhead), trivial⟩
  | cons c t ih =>
      obtain ⟨hquote, hstar⟩ := h c List.mem_cons_self
      have hnext : quotedNext true c = true := quotedNext_of_ne hquote
      refine ⟨fun _ => hstar, fun hclosed => absurd (hnext.symm.trans hclosed) (by decide), ?_⟩
      rw [hnext]
      exact ih fun d hd => h d (List.mem_cons_of_mem c hd)

/-! ## Steps of a match -/

/-- A run without dots and brackets that starts with no quote holds none. -/
theorem quote_not_mem_takeWhile (h : Tidy false t) (hhead : t.head? ≠ some '"')
    (hfree : ∀ c ∈ t.takeWhile (· != '.'), c ≠ '[' ∧ c ≠ ']') : '"' ∉ t.takeWhile (· != '.') := by
  induction t with
  | nil => exact List.not_mem_nil
  | cons c t ih =>
      by_cases hdot : c = '.'
      · simp [hdot]
      · have htake : (c :: t).takeWhile (· != '.') = c :: t.takeWhile (· != '.') :=
          List.takeWhile_cons_of_pos (bne_iff_ne.mpr hdot)
        rw [htake] at hfree ⊢
        have hc : c ≠ '"' := fun e => hhead (congrArg some e)
        obtain ⟨-, hedge, htidy⟩ := h
        rw [quotedNext_of_ne hc] at hedge htidy
        -- a quoted run would start here, but `c` is neither a dot nor the start of a group
        have hnext : t.head? ≠ some '"' := by
          intro hquote
          rcases hedge rfl hquote with e | e
          · exact hdot e
          · exact (hfree c List.mem_cons_self).1 e
        have hrest := ih htidy hnext fun d hd => hfree d (List.mem_cons_of_mem c hd)
        exact List.not_mem_cons_of_ne_of_not_mem (Ne.symm hc) hrest

/-- The segment that a `*` takes is silent. -/
theorem exists_silent_of_dropSegment (ht : Tidy false t) (h : dropSegment t = some u) :
    ∃ part, t = part ++ u ∧ Silent false part := by
  rcases dropSegment_cases h with ⟨inner, -, hinner, rfl⟩ | ⟨hhead, -, hfree, rfl⟩
  · exact ⟨_, rfl, silent_quoted hinner⟩
  · have hquote := quote_not_mem_takeWhile ht hhead hfree
    refine ⟨_, List.takeWhile_append_dropWhile.symm, ?_⟩
    apply silent_of_forall
    intro c hc
    refine ⟨?_, fun _ => hfree c hc⟩
    rintro rfl
    exact hquote hc

/-- What is left at a stop of a `*` has all the marks. -/
theorem marks_of_mem_stops {elastic : Bool} (ht : Tidy false t) (h : u ∈ stops elastic t) :
    marks false u = marks false t ∧ Tidy false u := by
  fun_induction stops elastic t with
  | case1 => cases h
  | case2 t r hdrop ih =>
      obtain ⟨part, rfl, hpart⟩ := exists_silent_of_dropSegment ht hdrop
      have hrest := hpart.tidy_of_append ht
      rw [hpart.marks_append]
      rcases List.mem_cons.mp h with rfl | h
      · exact ⟨rfl, hrest⟩
      · cases elastic with
        | false => cases h
        | true => exact ih hrest.2.2 h
  | case3 t rest hne hdrop =>
      obtain ⟨part, rfl, hpart⟩ := exists_silent_of_dropSegment ht hdrop
      rw [List.mem_singleton] at h
      subst h
      exact ⟨hpart.marks_append.symm, hpart.tidy_of_append ht⟩

/-- A group, read from the right. -/
def groupBack (inner : Text) : Text := ']' :: inner ++ ['[']

theorem marks_groupBack {inner : Text} (h : Silent false inner) : marks false (groupBack inner) = [']', '['] := by
  show ']' :: marks false (inner ++ ['[']) = [']', '[']
  rw [h.marks_append]
  rfl

theorem quotedAfter_groupBack {inner : Text} (h : Silent false inner) :
    quotedAfter false (groupBack inner) = false := by
  show quotedAfter false (inner ++ ['[']) = false
  rw [quotedAfter_append, h.quotedAfter_eq]
  rfl

theorem groupBack_eq_of_silent {i j : Text} (hi : Silent false i) (hj : Silent false j) :
    marks false (groupBack i) = marks false (groupBack j) ∧
      quotedAfter false (groupBack i) = quotedAfter false (groupBack j) := by
  rw [marks_groupBack hi, marks_groupBack hj, quotedAfter_groupBack hi, quotedAfter_groupBack hj]
  exact ⟨rfl, rfl⟩

theorem Index.silent (g : Index) : Silent false g.inner := by
  apply silent_of_forall
  intro c hc
  obtain ⟨hquote, hopen, hclose⟩ := g.inner_free hc
  exact ⟨hquote, fun _ => ⟨hopen, hclose⟩⟩

theorem ne_star_of_tidy {inner : Text} (h : Tidy true (groupBack inner ++ t)) : inner ≠ ['*'] := by
  rintro rfl
  exact h.2.2.1 rfl rfl

/-- Groups that agree have the same marks and leave the same state. Inside quotes they are no groups, and agree only
when they are the same text. -/
theorem groupBack_agrees {i j : Text} (hi : Tidy quoted (groupBack i ++ t)) (hj : Tidy quoted (groupBack j ++ u))
    (h : indexAgrees i j = true) : marks quoted (groupBack i) = marks quoted (groupBack j) ∧
      quotedAfter quoted (groupBack i) = quotedAfter quoted (groupBack j) := by
  cases quoted with
  | true =>
      rw [eq_of_indexAgrees (ne_star_of_tidy hi) (ne_star_of_tidy hj) h]
      exact ⟨rfl, rfl⟩
  | false =>
      simp only [indexAgrees, Bool.or_eq_true, Bool.and_eq_true, beq_iff_eq] at h
      rcases h with (rfl | ⟨rfl, hnumeric⟩) | ⟨rfl, hnumeric⟩
      · exact ⟨rfl, rfl⟩
      · exact groupBack_eq_of_silent Index.any.silent (Index.digits j hnumeric).silent
      · exact groupBack_eq_of_silent (Index.digits i hnumeric).silent Index.any.silent

/-! ## Matching -/

/-- **Tidy texts that match have the same marks.** The state of the quotes is the same on both sides at every step. -/
theorem marks_eq_of_matchesRev {right : Option Char} {p o : Text} (hp : Tidy quoted p) (ho : Tidy quoted o)
    (h : matchesRev right p o = true) : marks quoted p = marks quoted o := by
  fun_induction matchesRev right p o generalizing quoted with
  | case1 => rfl
  | case2 => cases h
  | case3 => cases h
  | case4 right n p c o hstar ih =>
      -- between quotes there is no `*`
      have hopen : quoted = false := by
        rw [← Bool.not_eq_true]
        exact fun hopen => hp.1 hopen hstar.1
      subst hopen
      rw [hstar.1] at hp ⊢
      obtain ⟨rest, hrest, hmatch⟩ := List.any_eq_true.mp h
      obtain ⟨hmarks, htidy⟩ := marks_of_mem_stops ho hrest
      exact (ih rest hp.2.2 htidy hmatch).trans hmarks
  | case5 right n p c o hstar hb i p' j o' hi hj ih =>
      rw [Bool.and_eq_true] at h
      -- between quotes the two openings are found as well, behind texts that are the same
      have hpi : n :: p = groupBack i ++ p' := by
        rw [hb.1, eq_of_cut hi]
        simp [groupBack]
      have hoj : c :: o = groupBack j ++ o' := by
        rw [hb.2, eq_of_cut hj]
        simp [groupBack]
      rw [hpi] at hp ⊢
      rw [hoj] at ho ⊢
      obtain ⟨hmarks, hstate⟩ := groupBack_agrees hp ho h.1
      have hrest := ih hp.of_append (hstate ▸ ho.of_append) h.2
      rw [marks_append, marks_append, hmarks, hrest, hstate]
  | case6 => cases h
  | case7 right n p c o hstar hb ih =>
      rw [Bool.and_eq_true, beq_iff_eq] at h
      obtain ⟨rfl, h⟩ := h
      rw [marks, marks, ih hp.2.2 ho.2.2 h]

/-! ## Closed texts -/

/-- A text that closes its quotes and is tidy when it is read from the right. -/
structure Closed (t : Text) : Prop where
  quotedAfter_eq : quotedAfter false t = false
  tidy : Tidy false t.reverse

theorem closed_of_not_mem (h : '"' ∉ t) : Closed t where
  quotedAfter_eq := quotedAfter_of_not_mem h
  tidy := tidy_of_not_mem fun hm => h (List.mem_reverse.mp hm)

theorem closed_quoted (h : ∀ c ∈ t, c ≠ '"' ∧ c ≠ '*') : Closed ('"' :: t ++ ['"']) := by
  constructor
  · have hquote : '"' ∉ t := fun hm => (h '"' hm).1 rfl
    exact (silent_quoted hquote).quotedAfter_eq
  · have hback : ('"' :: t ++ ['"']).reverse = '"' :: (t.reverse ++ ['"']) := by simp
    rw [hback]
    refine ⟨fun hopen => (by cases hopen), fun hclosed => (by cases hclosed), ?_⟩
    apply tidy_quoted
    intro c hc
    exact h c (List.mem_reverse.mp hc)

/-- Closed texts may be joined by a dot or by the start of an index group. -/
theorem Closed.append_cons {c : Char} (hc : c = '.' ∨ c = '[') (ht : Closed t) (hu : Closed u) : Closed (t ++ c :: u) := by
  have hquote : c ≠ '"' := by
    rcases hc with rfl | rfl <;> decide
  have hstar : c ≠ '*' := by
    rcases hc with rfl | rfl <;> decide
  constructor
  · rw [quotedAfter_append, ht.quotedAfter_eq, quotedAfter_cons, quotedNext_of_ne hquote, hu.quotedAfter_eq]
  · have hstate : quotedAfter false u.reverse = false := by
      have hback : quotedAfter (quotedAfter false u) u.reverse = false := quotedAfter_reverse
      rwa [hu.quotedAfter_eq] at hback
    rw [List.reverse_append, List.reverse_cons, List.append_assoc, List.singleton_append]
    refine hu.tidy.append_cons hquote ⟨fun _ => hstar, fun _ _ => hc, ?_⟩
    rw [hstate, quotedNext_of_ne hquote]
    exact ht.tidy

theorem Closed.append_indexes (h : Closed t) (gs : List Index) : Closed (t ++ gs.flatMap Index.text) := by
  induction gs generalizing t with
  | nil => simpa using h
  | cons g gs ih =>
      -- a group starts with the bracket at which it is joined, and holds no quote
      have hinner : '"' ∉ g.inner ++ [']'] := by
        intro hm
        rcases List.mem_append.mp hm with hm | hm
        · exact (g.inner_free hm).1 rfl
        · exact absurd (List.mem_singleton.mp hm) (by decide)
      have hgroup : Closed (t ++ g.text) := h.append_cons (Or.inr rfl) (closed_of_not_mem hinner)
      rw [List.flatMap_cons, ← List.append_assoc]
      exact ih hgroup

theorem closed_dotted {ts : List Text} (h : ∀ t ∈ ts, Closed t) : Closed (dotted ts) := by
  induction ts with
  | nil => exact closed_of_not_mem List.not_mem_nil
  | cons t ts ih =>
      have hrest := ih fun u hu => h u (List.mem_cons_of_mem t hu)
      cases ts with
      | nil => exact h t List.mem_cons_self
      | cons u us => exact (h t List.mem_cons_self).append_cons (Or.inl rfl) hrest

/-- A closed text has the same marks from either side, in reverse order. -/
theorem Closed.marks_reverse (h : Closed t) : marks false t.reverse = (marks false t).reverse := by
  rw [← Name.marks_reverse, h.quotedAfter_eq]

theorem Closed.shapeHash_eq_of_matchesPattern (ht : Closed t) (hu : Closed u) (h : matchesPattern t u = true) :
    shapeHash t = shapeHash u := by
  have hback : marks false t.reverse = marks false u.reverse := marks_eq_of_matchesRev ht.tidy hu.tidy h
  rw [ht.marks_reverse, hu.marks_reverse] at hback
  exact shapeHash_eq_of_marks (List.reverse_injective hback)

/-- Closed texts that are equal under the wildcards of either side hash alike. -/
theorem Closed.shapeHash_eq (ht : Closed t) (hu : Closed u) (h : alike t u = true) : shapeHash t = shapeHash u := by
  simp only [alike, Bool.or_eq_true, beq_iff_eq] at h
  rcases h with (h | h) | h
  · rw [h]
  · exact ht.shapeHash_eq_of_matchesPattern hu h
  · exact (hu.shapeHash_eq_of_matchesPattern ht h).symm

/-! ## Well-formed names -/

theorem Base.closed (b : Base) : Closed b.text := by
  cases b with
  | plain t ne free => exact closed_of_not_mem fun hm => (free '"' hm).2 (by simp [reserved])
  | quoted t ne free =>
      refine closed_quoted fun c hc => ?_
      obtain ⟨hquote, -, -, hstar⟩ := not_mem_reserved.mp (free c hc)
      exact ⟨hquote, hstar⟩
  | star => exact closed_of_not_mem (by decide)

theorem Pattern.closed (p : Pattern) : Closed p.text := by
  apply closed_dotted
  intro t ht
  obtain ⟨s, -, rfl⟩ := List.mem_map.mp ht
  exact s.base.closed.append_indexes s.indexes

end LayeredConfig.Name
