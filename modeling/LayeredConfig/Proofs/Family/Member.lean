import LayeredConfig.Family.Reading
import LayeredConfig.Proofs.Dict

/-!
# `LayeredConfig.Proofs.Family.Member` — the members of lists and maps

A name belongs to an element or an entry when it goes on in a certain way behind the root. This file says in which:
the readers of an index group and of a key are characterised by the texts that they accept, and the members that are
listed for a root by the names that they come from.

## Contents
- **`Follows`.** What may stand behind the segment of a member, and ends a text without dots and brackets
  (`eq_of_append_follows`).
- **Elements.** `indexGroup_eq_some_iff`, `element?_eq_some_iff`, `mem_elements`.
- **Keys.** What is read of a plain key and of a quoted one (`keySegment_plain`, `keySegment_quoted`), and where the
  listed members come from (`mem_groupKeys`, `mem_keyedMembers`).
- **Readings.** `readList_cases`, `readMap_cases`.
-/

namespace LayeredConfig

open Text Name

namespace Text

/-! ## Decimal numbers -/

/-- The digits of a number denote it. -/
theorem digitsValue_ofNat (n : Nat) : digitsValue (ofNat n) = n :=
  Nat.ofDigitChars_toDigits (by decide) (by decide)

theorem isNumeric_ofNat (n : Nat) : isNumeric (ofNat n) = true := by
  have hne : ofNat n ≠ [] := Nat.toDigits_ne_nil
  have hdigits : ∀ c ∈ ofNat n, c.isDigit = true := fun c hc =>
    Nat.isDigit_of_mem_toDigits (by decide) (by decide) hc
  simpa [isNumeric, hne] using hdigits

end Text

namespace Family

/-- A text that may follow the segment of a member: nothing, or one that starts with a dot or a bracket. -/
def Follows (u : Text) : Prop := u = [] ∨ u.head? = some '.' ∨ u.head? = some '['

theorem follows_nil : Follows [] := Or.inl rfl

theorem follows_dot (u : Text) : Follows ('.' :: u) := Or.inr (Or.inl rfl)

theorem follows_bracket (u : Text) : Follows ('[' :: u) := Or.inr (Or.inr rfl)

/-- Two texts without dots and opening brackets agree where they stand before something that may follow a segment. -/
theorem eq_of_append_follows {t t' v v' : Text} (ht : ∀ c ∈ t, c ≠ '.' ∧ c ≠ '[') (ht' : ∀ c ∈ t', c ≠ '.' ∧ c ≠ '[')
    (hv : Follows v) (hv' : Follows v') (h : t ++ v = t' ++ v') : t = t' ∧ v = v' := by
  have hstop {c : Char} {a b : Text} (hc : c ≠ '.' ∧ c ≠ '[') (hb : Follows b) (hcb : c :: a = b) : False := by
    subst hcb
    rcases hb with hb | hb | hb
    · cases hb
    · exact hc.1 (Option.some.inj hb)
    · exact hc.2 (Option.some.inj hb)
  induction t generalizing t' with
  | nil =>
      cases t' with
      | nil => exact ⟨rfl, h⟩
      | cons d t' => exact (hstop (ht' d List.mem_cons_self) hv h.symm).elim
  | cons c t ih =>
      cases t' with
      | nil => exact (hstop (ht c List.mem_cons_self) hv' h).elim
      | cons d t' =>
          obtain ⟨rfl, hrest⟩ := List.cons.inj h
          obtain ⟨rfl, hv⟩ := ih (fun e he => ht e (List.mem_cons_of_mem c he))
            (fun e he => ht' e (List.mem_cons_of_mem c he)) hrest
          exact ⟨rfl, hv⟩

/-! ## Elements -/

theorem bracket_not_mem_of_isNumeric {digits : Text} (h : isNumeric digits = true) : ']' ∉ digits :=
  fun hm => absurd (isDigit_of_isNumeric h hm) (by decide)

/-- An index group is read where its digits denote an index and something may follow it. -/
theorem indexGroup_eq_some_iff {t digits : Text} {i : Nat} :
    indexGroup t = some (i, digits) ↔ ∃ u, t = '[' :: digits ++ ']' :: u ∧ isNumeric digits = true ∧
      i = digitsValue digits ∧ i ≤ maxIndex ∧ Follows u := by
  constructor
  · intro h
    unfold indexGroup at h
    split at h
    · next r =>
        split at h
        · next ds u hcut =>
            simp only [Option.ite_none_right_eq_some, Option.some.injEq, Prod.mk.injEq, Bool.and_eq_true,
              Bool.or_eq_true, decide_eq_true_eq, List.isEmpty_iff, beq_iff_eq] at h
            obtain ⟨⟨⟨hnumeric, hle⟩, hu⟩, rfl, rfl⟩ := h
            exact ⟨u, by rw [eq_of_cut hcut, List.cons_append], hnumeric, rfl, hle, or_assoc.mp hu⟩
        · cases h
    · cases h
  · rintro ⟨u, rfl, hnumeric, rfl, hle, hu⟩
    have hu' : (u.isEmpty || u.head? == some '.' || u.head? == some '[') = true := by
      simpa [Follows, List.isEmpty_iff, or_assoc] using hu
    rw [List.cons_append, indexGroup]
    simp only [cut_append (bracket_not_mem_of_isNumeric hnumeric), hnumeric, hle, hu', decide_true, Bool.and_self,
      if_true]

theorem element?_eq_some_iff {root name e : Text} {i : Nat} :
    element? root name = some (i, e) ↔ ∃ digits u, name = root ++ '[' :: digits ++ ']' :: u ∧
      isNumeric digits = true ∧ i = digitsValue digits ∧ i ≤ maxIndex ∧ Follows u ∧
      e = root ++ '[' :: digits ++ [']'] := by
  simp only [element?, Option.bind_eq_some_iff, Option.map_eq_some_iff, afterPrefix?_eq_some_iff, Prod.exists,
    indexGroup_eq_some_iff, Prod.mk.injEq]
  constructor
  · rintro ⟨rest, rfl, i, digits, ⟨u, rfl, hnumeric, rfl, hle, hu⟩, rfl, rfl⟩
    exact ⟨digits, u, by rw [List.append_assoc], hnumeric, rfl, hle, hu, rfl⟩
  · rintro ⟨digits, u, rfl, hnumeric, rfl, hle, hu, rfl⟩
    exact ⟨_, List.append_assoc _ _ _, _, digits, ⟨u, rfl, hnumeric, rfl, hle, hu⟩, rfl, rfl⟩

/-- A listed element has the index group of some name behind the root. -/
theorem mem_elements {root e : Text} {names : List Text} (h : e ∈ elements root names) :
    ∃ digits, isNumeric digits = true ∧ e = root ++ '[' :: digits ++ [']'] := by
  obtain ⟨⟨i, e⟩, hentry, rfl⟩ := List.mem_map.mp h
  obtain ⟨name, -, hname⟩ := Dict.exists_of_mem_ofPairsFirst hentry
  obtain ⟨digits, u, -, hnumeric, -, -, -, rfl⟩ := element?_eq_some_iff.mp hname
  exact ⟨digits, hnumeric, rfl⟩

/-! ## Keys -/

/-- A key without a dot, an opening bracket or a backslash is read up to what follows it. -/
theorem plainKey_append {t u : Text} (ht : ∀ c ∈ t, c ≠ '.' ∧ c ≠ '[' ∧ c ≠ '\\') (hu : Follows u) :
    plainKey (t ++ u) = (t, t, u) := by
  induction t with
  | nil =>
      rcases hu with rfl | hu | hu
      · rfl
      · obtain ⟨r, rfl⟩ := List.head?_eq_some_iff.mp hu
        rfl
      · obtain ⟨r, rfl⟩ := List.head?_eq_some_iff.mp hu
        rfl
  | cons c t ih =>
      obtain ⟨hdot, hbracket, hslash⟩ := ht c List.mem_cons_self
      have hread : plainKey (c :: (t ++ u)) =
          (c :: (plainKey (t ++ u)).1, c :: (plainKey (t ++ u)).2.1, (plainKey (t ++ u)).2.2) := by
        rw [plainKey]
        · simp [hdot, hbracket]
        · exact fun r hc => absurd hc hslash
      rw [List.cons_append, hread, ih fun d hd => ht d (List.mem_cons_of_mem c hd)]

/-- A plain key is spelled as it is. -/
theorem keySegment_plain {t u : Text} (ne : t ≠ []) (ht : ∀ c ∈ t, c ≠ '.' ∧ c ≠ '[' ∧ c ≠ '\\' ∧ c ≠ '"')
    (hu : Follows u) : keySegment (t ++ u) = some (t, t, u) := by
  have hread := plainKey_append (fun c hc => ⟨(ht c hc).1, (ht c hc).2.1, (ht c hc).2.2.1⟩) hu
  obtain ⟨c, t, rfl⟩ := List.exists_cons_of_ne_nil ne
  have hquote : c ≠ '"' := (ht c List.mem_cons_self).2.2.2
  unfold keySegment
  split
  · next r hr => exact absurd (List.cons.inj hr).1 hquote
  · rw [hread]

/-- A quoted key is what stands between the quotes. -/
theorem keySegment_quoted {t : Text} (ht : '"' ∉ t) (u : Text) :
    keySegment ('"' :: t ++ '"' :: u) = some (t, '"' :: t ++ ['"'], u) := by
  show (cut '"' (t ++ '"' :: u)).map _ = _
  rw [cut_append ht]
  rfl

/-- Where a name lies below a root that is not empty. -/
theorem below?_eq_some_iff {root name rest : Text} (hroot : root ≠ []) :
    below? root name = some rest ↔ name = root ++ '.' :: rest := by
  rw [below?, if_neg (by simpa using hroot), afterPrefix?_eq_some_iff, List.append_assoc, List.singleton_append]

/-- A listed member at any depth is spelled in some name. -/
theorem mem_groupKeys {root key member : Text} {names : List Text} (h : (key, member) ∈ groupKeys root names) :
    ∃ name ∈ names, groupMember? root name = some (key, member) :=
  Dict.exists_of_mem_ofPairsFirst h

theorem groupMember?_of_keyedMember? {root name : Text} {p : Text × Text} (h : keyedMember? root name = some p) :
    groupMember? root name = some p := by
  obtain ⟨rest, hrest, h⟩ := Option.bind_eq_some_iff.mp h
  obtain ⟨⟨key, written, tail⟩, hkey, h⟩ := Option.bind_eq_some_iff.mp h
  rw [groupMember?, hrest, Option.bind_some, hkey, Option.map_some]
  exact (Option.ite_none_right_eq_some.mp h).2

/-- So is a listed member that is a value or a list. -/
theorem mem_keyedMembers {root key member : Text} {names : List Text} (h : (key, member) ∈ keyedMembers root names) :
    ∃ name ∈ names, groupMember? root name = some (key, member) := by
  obtain ⟨name, hname, hmember⟩ := Dict.exists_of_mem_ofPairsFirst h
  exact ⟨name, hname, groupMember?_of_keyedMember? hmember⟩

/-! ## Readings -/

/-- A list is read as its elements or as an inline value. -/
theorem readList_cases (lookup : Text → Option Record) (names : List Text) (root : Text) :
    readList lookup names root = .indexed (elements root names) ∨
      ∃ r items, readList lookup names root = .inline r items := by
  unfold readList
  dsimp only
  split
  · exact Or.inr ⟨_, _, rfl⟩
  · exact Or.inl rfl

/-- A map is read as its members or as an inline value. -/
theorem readMap_cases (lookup : Text → Option Record) (names : List Text) (root : Text) :
    readMap lookup names root = .keyed (keyedMembers root names) ∨
      ∃ r entries, readMap lookup names root = .inline r entries := by
  unfold readMap
  dsimp only
  split
  · exact Or.inr ⟨_, _, rfl⟩
  · exact Or.inl rfl

end Family

end LayeredConfig
