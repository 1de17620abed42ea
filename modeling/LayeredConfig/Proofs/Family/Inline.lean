import LayeredConfig.Family.Inline
import Mathlib.Data.List.Basic

/-!
# `LayeredConfig.Proofs.Family.Inline` — inline values are read as they were written

In an inline value a character that would separate, and a backslash, stand behind a backslash where they belong to a
text. The texts of a list and the entries of a map that are written so are read back in their order.

## Contents
- **Escapes.** `escape` writes a text; `ReadsAs` says which marks a text is read as, whatever stands behind it.
- **Runs.** Pieces without the separator between them are found as the runs (`runs_marks_joinWith`).
- **Lists.** `writeList`; what is read of it in any case (`splitList_writeList_eq_filter`), and `splitList_writeList`.
- **Maps.** `writeEntry`, `writeMap`; what is read of it in any case (`splitMap_writeMap_eq_map`), and `splitMap_writeMap`.
-/

namespace LayeredConfig.Family

open Text Name

variable {separators : List Char}

/-! ## Escapes -/

/-- The text with a backslash in front of every backslash and every separator. -/
def escape (separators : List Char) (t : Text) : Text :=
  t.flatMap fun c => if c = '\\' ∨ c ∈ separators then ['\\', c] else [c]

/-- Escaping adds no character but the backslash. -/
theorem mem_of_mem_escape {t : Text} {c : Char} (h : c ∈ escape separators t) : c = '\\' ∨ c ∈ t := by
  obtain ⟨d, hd, hc⟩ := List.mem_flatMap.mp h
  split at hc
  · rcases List.mem_pair.mp hc with rfl | rfl
    · exact Or.inl rfl
    · exact Or.inr hd
  · exact Or.inr (List.mem_singleton.mp hc ▸ hd)

/-- The text is read as certain marks, and what stands behind it is read on its own. -/
def ReadsAs (separators : List Char) (t : Text) (ms : List Mark) : Prop :=
  ∀ u, marks separators (t ++ u) = ms ++ marks separators u

theorem ReadsAs.append {t u : Text} {ms ns : List Mark} (ht : ReadsAs separators t ms) (hu : ReadsAs separators u ns) :
    ReadsAs separators (t ++ u) (ms ++ ns) := by
  intro v
  rw [List.append_assoc, ht, hu, List.append_assoc]

theorem ReadsAs.marks_eq {t : Text} {ms : List Mark} (h : ReadsAs separators t ms) : marks separators t = ms := by
  have hend := h []
  rwa [List.append_nil, marks, List.append_nil] at hend

/-- Apart from the backslash a character is a mark of its own. -/
theorem readsAs_char {c : Char} (hc : c ≠ '\\') :
    ReadsAs separators [c] [if c ∈ separators then .separator c else .plain c] := by
  intro u
  rw [List.singleton_append, marks]
  · rfl
  · intro h
    exact absurd h hc
  · intro d r h
    exact absurd h hc

theorem readsAs_separator {c : Char} (hc : c ∈ separators) (hne : c ≠ '\\') :
    ReadsAs separators [c] [.separator c] := by
  have h : ReadsAs separators [c] [if c ∈ separators then .separator c else .plain c] := readsAs_char hne
  rwa [if_pos hc] at h

/-- An escaped text is read as its own characters, none of which separates. -/
theorem readsAs_escape (t : Text) : ReadsAs separators (escape separators t) (t.map .plain) := by
  induction t with
  | nil => intro u; rfl
  | cons c t ih =>
      have hchar : ReadsAs separators (if c = '\\' ∨ c ∈ separators then ['\\', c] else [c]) [.plain c] := by
        split
        · next h =>
            intro u
            show marks separators ('\\' :: c :: u) = _
            rw [marks, if_pos h]
            rfl
        · next h =>
            rw [not_or] at h
            have hc : ReadsAs separators [c] [if c ∈ separators then .separator c else .plain c] := readsAs_char h.1
            rwa [if_neg h.2] at hc
      exact hchar.append ih

/-! ## Runs -/

variable {x : Char}

/-- A run goes on to the next separator. -/
theorem runs_append {ms : List Mark} (h : .separator x ∉ ms) (ns : List Mark) :
    runs x (ms ++ .separator x :: ns) = ms :: runs x ns := by
  induction ms with
  | nil => rw [List.nil_append, runs, if_pos rfl]
  | cons m ms ih =>
      obtain ⟨hm, hms⟩ := not_or.mp (mt List.mem_cons.mpr h)
      rw [List.cons_append, runs, if_neg (Ne.symm hm), ih hms]

theorem runs_of_not_mem {ms : List Mark} (h : .separator x ∉ ms) : runs x ms = [ms] := by
  induction ms with
  | nil => rfl
  | cons m ms ih =>
      obtain ⟨hm, hms⟩ := not_or.mp (mt List.mem_cons.mpr h)
      rw [runs, if_neg (Ne.symm hm), ih hms]

/-- Written one behind the other with the separator between them, pieces that do not hold it are the runs. -/
theorem runs_marks_joinWith {α : Type} {write : α → Text} {read : α → List Mark} (hx : x ∈ separators) (hne : x ≠ '\\')
    {l : List α} (hl : l ≠ []) (h : ∀ a ∈ l, ReadsAs separators (write a) (read a) ∧ .separator x ∉ read a) :
    runs x (marks separators (joinWith x (l.map write))) = l.map read := by
  induction l with
  | nil => exact absurd rfl hl
  | cons a l ih =>
      obtain ⟨hread, hfree⟩ := h a List.mem_cons_self
      by_cases hnil : l = []
      · subst hnil
        show runs x (marks separators (write a)) = [read a]
        rw [hread.marks_eq, runs_of_not_mem hfree]
      · have hjoin : joinWith x ((a :: l).map write) = write a ++ ([x] ++ joinWith x (l.map write)) :=
          joinWith_append x (List.cons_ne_nil (write a) []) (by simpa using hnil)
        rw [hjoin, hread, readsAs_separator hx hne, List.singleton_append, runs_append hfree,
          ih hnil fun b hb => h b (List.mem_cons_of_mem a hb), List.map_cons]

theorem separator_not_mem_plain (t : Text) : .separator x ∉ t.map Mark.plain := by
  intro h
  obtain ⟨c, -, hc⟩ := List.mem_map.mp h
  cases hc

theorem textOf_plain (t : Text) : textOf (t.map .plain) = t := by
  rw [textOf, List.map_map]
  exact List.map_id t

/-! ## Lists -/

/-- How a list is written inline. -/
def writeList (items : List Text) : Text := joinWith ',' (items.map (escape [',']))

/-- The items of a list are read as they were written, without the empty ones. -/
theorem splitList_writeList_eq_filter (items : List Text) :
    splitList (writeList items) = items.filter fun t => !t.isEmpty := by
  by_cases hne : items = []
  · subst hne
    rfl
  · have hruns : runs ',' (marks [','] (writeList items)) = items.map (List.map .plain) :=
      runs_marks_joinWith (by simp) (by decide) hne fun t _ => ⟨readsAs_escape t, separator_not_mem_plain t⟩
    have htexts : (items.map (List.map Mark.plain)).map textOf = items := by
      rw [List.map_map]
      exact (List.map_congr_left fun t _ => textOf_plain t).trans (List.map_id items)
    rw [splitList, hruns, htexts]

theorem splitList_writeList {items : List Text} (h : ∀ t ∈ items, t ≠ []) : splitList (writeList items) = items := by
  rw [splitList_writeList_eq_filter, List.filter_eq_self]
  intro t ht
  simpa [List.isEmpty_iff] using h t ht

theorem mem_of_mem_writeList {items : List Text} {c : Char} (h : c ∈ writeList items) (hc : c ≠ ',' ∧ c ≠ '\\') :
    ∃ t ∈ items, c ∈ t := by
  obtain ⟨u, hu, hmem⟩ := (mem_joinWith hc.1).mp h
  obtain ⟨t, ht, rfl⟩ := List.mem_map.mp hu
  exact ⟨t, ht, (mem_of_mem_escape hmem).resolve_left hc.2⟩

/-! ## Maps -/

/-- How the key and the value of an entry are written. -/
def writeEntry (e : Text × Text) : Text := escape [';', '='] e.1 ++ ('=' :: escape [';', '='] e.2)

/-- How a map is written inline, its entries in the given order. -/
def writeMap (es : List (Text × Text)) : Text := joinWith ';' (es.map writeEntry)

theorem readsAs_writeEntry (e : Text × Text) :
    ReadsAs [';', '='] (writeEntry e) (e.1.map .plain ++ ([.separator '='] ++ e.2.map .plain)) := by
  have hequals : ReadsAs [';', '='] ['='] [.separator '='] := readsAs_separator (by simp) (by decide)
  exact (readsAs_escape e.1).append (hequals.append (readsAs_escape e.2))

theorem cutEntry_plain (key v : Text) :
    cutEntry (key.map .plain ++ ([.separator '='] ++ v.map .plain)) = some (key, v) := by
  induction key with
  | nil =>
      show cutEntry (.separator '=' :: v.map .plain) = _
      rw [cutEntry, if_pos rfl, textOf_plain]
  | cons c key ih =>
      rw [List.map_cons, List.cons_append, cutEntry, if_neg (by simp), ih]
      rfl

/-- The entries of a map are read as they were written, without those that have no key and without the quotes around a
key. -/
theorem splitMap_writeMap_eq_map (es : List (Text × Text)) :
    splitMap (writeMap es) = (es.filter fun e => !e.1.isEmpty).map fun e => (unquoted e.1, e.2) := by
  by_cases hne : es = []
  · subst hne
    rfl
  · have hruns : runs ';' (marks [';', '='] (writeMap es)) =
        es.map fun e => e.1.map .plain ++ ([.separator '='] ++ e.2.map .plain) := by
      refine runs_marks_joinWith (by simp) (by decide) hne fun e _ => ⟨readsAs_writeEntry e, ?_⟩
      simp only [List.mem_append, List.mem_singleton, not_or]
      exact ⟨separator_not_mem_plain _, by simp, separator_not_mem_plain _⟩
    have hkept : ((es.filter fun e => !e.1.isEmpty).map fun e => (unquoted e.1, e.2)) =
        es.filterMap fun e => if !e.1.isEmpty then some (unquoted e.1, e.2) else none := by
      rw [← List.filterMap_eq_map, List.filterMap_filter]
      rfl
    rw [splitMap, hruns, List.filterMap_map, hkept]
    refine List.filterMap_congr fun e _ => ?_
    simp only [Function.comp_apply, cutEntry_plain]
    cases e.1.isEmpty <;> rfl

theorem splitMap_writeMap {es : List (Text × Text)} (h : ∀ e ∈ es, e.1 ≠ [] ∧ isQuoted e.1 = false) :
    splitMap (writeMap es) = es := by
  have hkeys : es.filter (fun e => !e.1.isEmpty) = es := by
    rw [List.filter_eq_self]
    intro e he
    simpa [List.isEmpty_iff] using (h e he).1
  rw [splitMap_writeMap_eq_map, hkeys]
  refine (List.map_congr_left fun e he => ?_).trans (List.map_id es)
  rw [unquoted, (h e he).2]
  rfl

theorem mem_of_mem_writeMap {es : List (Text × Text)} {c : Char} (h : c ∈ writeMap es)
    (hc : c ≠ ';' ∧ c ≠ '=' ∧ c ≠ '\\') : ∃ e ∈ es, c ∈ e.1 ∨ c ∈ e.2 := by
  obtain ⟨hsemicolon, hequals, hslash⟩ := hc
  obtain ⟨u, hu, hmem⟩ := (mem_joinWith hsemicolon).mp h
  obtain ⟨e, he, rfl⟩ := List.mem_map.mp hu
  refine ⟨e, he, ?_⟩
  rcases List.mem_append.mp hmem with hmem | hmem
  · exact Or.inl ((mem_of_mem_escape hmem).resolve_left hslash)
  · rcases List.mem_cons.mp hmem with rfl | hmem
    · exact absurd rfl hequals
    · exact Or.inr ((mem_of_mem_escape hmem).resolve_left hslash)

end LayeredConfig.Family
