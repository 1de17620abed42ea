import LayeredConfig.Proofs.Environment.Words

/-!
# `LayeredConfig.Proofs.Environment.Dotted` — names that their key gives back

The dotted form of a key is a best effort: a single `_` is read as a dot, `_N_` as an index, and a `__` pair opens or
closes a quoted key. Three places are open to a second reading: a `_` before a run of digits, a `__` behind an index, and
a `__` behind a run of digits. This file describes names in which each of them has one reading, and shows that their key
gives them back.

## Contents
- **Names.** `Part`, `Body` and `DottedName`, the `text` of each.
- **Steps.** What the reader makes of the key of a word, of the two ends of a quoted key, and of an index
  (`dottedFrom_word`, `dottedFrom_inner`, `dottedFrom_group`).
- **No index.** Behind a dot the key of a body is not read as an index (`indexAt_body`).
- **Main statement.** `dottedOf_key`, by induction over the body.
-/

namespace LayeredConfig.Environment

open Text Name

/-! ## Names -/

/-- An unquoted segment: a word, and an index or none. -/
structure Part where
  word : Word
  index : Option Digits

/-- How the index of a segment is written. -/
def indexText : Option Digits → Text
  | none => []
  | some d => d.group

/-- How an unquoted segment is written. -/
def Part.text (p : Part) : Text := p.word.text ++ indexText p.index

/-- Segments with dots between them, the first and the last of them unquoted. A quoted key stands directly behind an
unquoted segment that has no index and holds a letter. -/
inductive Body where
  | last (p : Part)
  | dot (p : Part) (rest : Body)
  | keyed (w : Word) (letter : ∃ c ∈ w.text, c.isLower = true) (k : QuotedKey) (rest : Body)

/-- How segments are written. -/
def Body.text : Body → Text
  | .last p => p.text
  | .dot p rest => p.text ++ '.' :: rest.text
  | .keyed w _ k rest => w.text ++ '.' :: (k.text ++ '.' :: rest.text)

/-- A name: its segments, behind a `%` or not. -/
structure DottedName where
  qualified : Bool
  body : Body

/-- How a name is written. -/
def DottedName.text (n : DottedName) : Text := if n.qualified then '%' :: n.body.text else n.body.text

/-! ## Steps -/

/-- Any other unit than `_` is read as its small letter. -/
theorem dottedFrom_cons {quoted : Bool} {c : Char} (h : c ≠ '_') (r : Text) :
    dottedFrom quoted (c :: r) = c.toLower :: dottedFrom quoted r := by
  rw [dottedFrom]
  · rintro _ rfl
    exact absurd rfl h
  · exact h

/-- The key of a word is read as the word, whatever follows it. -/
theorem dottedFrom_word (quoted : Bool) (w : Word) (r : Text) :
    dottedFrom quoted (capitalKey w.text ++ r) = w.text ++ dottedFrom quoted r := by
  have hread {t : Text} (ht : '_' ∉ t) :
      dottedFrom quoted (t ++ r) = asciiLower t ++ dottedFrom quoted r := by
    induction t with
    | nil => rfl
    | cons c t ih =>
        have hc : c ≠ '_' := by
          rintro rfl
          exact ht List.mem_cons_self
        have hrest := ih fun hm => ht (List.mem_cons_of_mem c hm)
        rw [List.cons_append, dottedFrom_cons hc, hrest]
        rfl
  rw [hread w.underscore_not_mem, w.lower_key]

/-- A `_` in a quoted key is a dot. -/
theorem dottedFrom_quoted_dot {c : Char} (h : c ≠ '_') (r : Text) :
    dottedFrom true ('_' :: c :: r) = '.' :: dottedFrom true (c :: r) := by
  rw [dottedFrom]
  · rfl
  · rintro _ heq
    exact absurd (List.cons.inj heq).1 h

/-- So is one outside, unless an index follows. -/
theorem dottedFrom_dot {c : Char} (h : c ≠ '_') {r : Text} (hindex : indexAt (c :: r) = none) :
    dottedFrom false ('_' :: c :: r) = '.' :: dottedFrom false (c :: r) := by
  rw [dottedFrom]
  · rw [if_neg (by decide)]
    split
    · rfl
    · next heq => rw [hindex] at heq; cases heq
    · next heq => rw [hindex] at heq; cases heq
  · rintro _ heq
    exact absurd (List.cons.inj heq).1 h

/-- What stands between the quotes is read up to the pair that closes them. -/
theorem dottedFrom_inner (k : QuotedKey) (r : Text) :
    dottedFrom true (capitalKey k.inner ++ '_' :: '_' :: r) =
      k.inner ++ '"' :: (if r.isEmpty then [] else '.' :: dottedFrom false r) := by
  obtain ⟨ws, ne⟩ := k
  have hclose : dottedFrom true ('_' :: '_' :: r) = '"' :: (if r.isEmpty then [] else '.' :: dottedFrom false r) := by
    rw [dottedFrom]
    rfl
  show dottedFrom true (capitalKey (dotted (ws.map Word.text)) ++ _) = dotted (ws.map Word.text) ++ _
  induction ws with
  | nil => exact absurd rfl ne
  | cons w ws ih =>
      cases ws with
      | nil =>
          show dottedFrom true (capitalKey w.text ++ _) = w.text ++ _
          rw [dottedFrom_word, hclose]
      | cons v vs =>
          have hsplit : dotted ((w :: v :: vs).map Word.text) = w.text ++ '.' :: dotted ((v :: vs).map Word.text) := rfl
          have hrest := ih (List.cons_ne_nil v vs)
          obtain ⟨c, u, hcons, hc⟩ := Word.exists_keys_eq_cons (List.cons_ne_nil v vs) ('_' :: '_' :: r)
          rw [hsplit, capitalKey_append, List.append_assoc, dottedFrom_word, capitalKey_dot, List.cons_append, hcons,
            dottedFrom_quoted_dot hc, ← hcons, hrest, List.append_assoc, List.cons_append]

/-- A pair outside opens a quoted key. -/
theorem dottedFrom_open (r : Text) : dottedFrom false ('_' :: '_' :: r) = '.' :: '"' :: dottedFrom true r := by
  rw [dottedFrom]
  rfl

/-- Behind a `_` digits and another `_` are an index where the key ends or goes on with a third one. -/
theorem dottedFrom_index {c : Char} (h : c ≠ '_') {r digits : Text} {rest : Option Text}
    (hindex : indexAt (c :: r) = some (digits, rest)) :
    dottedFrom false ('_' :: c :: r) =
      '[' :: digits ++ ']' :: rest.elim [] fun rest => '.' :: dottedFrom false rest := by
  rw [dottedFrom]
  · rw [if_neg (by decide)]
    split
    · next heq => rw [hindex] at heq; cases heq
    · next heq =>
        rw [hindex] at heq
        cases heq
        rfl
    · next heq =>
        rw [hindex] at heq
        cases heq
        rfl
  · rintro _ heq
    exact absurd (List.cons.inj heq).1 h

/-- The key of an index is read as the index, at the end of a key and before a dot. -/
theorem dottedFrom_group (d : Digits) (r : Text) :
    dottedFrom false (capitalKey d.group) = d.group ∧
      dottedFrom false (capitalKey d.group ++ '_' :: r) = d.group ++ '.' :: dottedFrom false r := by
  have hne : d.text.isEmpty = false := by simpa using d.ne_nil
  rw [d.capitalKey_group]
  constructor
  · obtain ⟨htake, hdrop⟩ := d.takeWhile_append []
    have hindex : indexAt (d.text ++ ['_']) = some (d.text, none) := by simp [indexAt, htake, hdrop, hne]
    obtain ⟨c, u, hcons, hc⟩ := d.exists_eq_cons ['_']
    rw [List.cons_append, hcons, dottedFrom_index hc (hcons ▸ hindex)]
    rfl
  · obtain ⟨htake, hdrop⟩ := d.takeWhile_append ('_' :: r)
    have hindex : indexAt (d.text ++ '_' :: '_' :: r) = some (d.text, some r) := by simp [indexAt, htake, hdrop, hne]
    obtain ⟨c, u, hcons, hc⟩ := d.exists_eq_cons ('_' :: '_' :: r)
    have hkey : '_' :: d.text ++ ['_'] ++ '_' :: r = '_' :: c :: u := by simp [← hcons]
    rw [hkey, dottedFrom_index hc (hcons ▸ hindex)]
    simp [Digits.group]

/-! ## No index -/

/-- The key of a word is not read as an index where no `_` follows, where something else than another `_` follows that
one, and where there is a letter in the word. -/
theorem indexAt_word (w : Word) {r : Text}
    (h : r = [] ∨ ∃ u, r = '_' :: u ∧ ((∃ c ∈ w.text, c.isLower = true) ∨ ∃ c v, u = c :: v ∧ c ≠ '_')) :
    indexAt (capitalKey w.text ++ r) = none := by
  cases hindex : indexAt (capitalKey w.text ++ r) with
  | none => rfl
  | some p =>
      obtain ⟨digits, rest⟩ := p
      obtain ⟨hdigits, hsplit⟩ := eq_of_indexAt hindex
      have hfree : '_' ∉ digits := fun hm => absurd (hdigits '_' hm) (by decide)
      rcases h with rfl | ⟨u, rfl, hu⟩
      · -- the `_` of an index would stand in the word
        rw [List.append_nil] at hsplit
        refine absurd ?_ w.underscore_not_mem
        rw [hsplit]
        exact List.mem_append_right _ List.mem_cons_self
      · have hcut := cut_append w.underscore_not_mem u
        rw [hsplit, cut_append hfree, Option.some.injEq, Prod.mk.injEq] at hcut
        obtain ⟨rfl, rfl⟩ := hcut
        rcases hu with ⟨c, hc, hletter⟩ | ⟨c, v, hcons, hc⟩
        · have hkey : (keyChar c).toUpper ∈ capitalKey w.text := by
            rw [capitalKey, asciiUpper, keyOf, List.map_map]
            exact List.mem_map.mpr ⟨c, hc, rfl⟩
          have hdigit := hdigits _ hkey
          rw [isDigit_key_of_isLower hletter] at hdigit
          cases hdigit
        · cases rest with
          | none => cases hcons
          | some rest => exact absurd (List.cons.inj hcons).1.symm hc

/-- So the key of an unquoted segment is not read as one at the end and before another segment. -/
theorem indexAt_part (p : Part) {r : Text} (h : r = [] ∨ ∃ c u, r = '_' :: c :: u ∧ c ≠ '_') :
    indexAt (capitalKey p.text ++ r) = none := by
  obtain ⟨w, index⟩ := p
  rw [Part.text, capitalKey_append, List.append_assoc]
  apply indexAt_word
  cases index with
  | none =>
      rcases h with rfl | ⟨c, u, rfl, hc⟩
      · exact Or.inl rfl
      · exact Or.inr ⟨c :: u, rfl, Or.inr ⟨c, u, rfl, hc⟩⟩
  | some d =>
      obtain ⟨c, u, hcons, hc⟩ := d.exists_eq_cons ('_' :: r)
      refine Or.inr ⟨c :: u, ?_, Or.inr ⟨c, u, rfl, hc⟩⟩
      rw [indexText, d.capitalKey_group, ← hcons, List.append_assoc]
      rfl

theorem Part.exists_key_eq_cons (p : Part) (r : Text) : ∃ c u, capitalKey p.text ++ r = c :: u ∧ c ≠ '_' := by
  rw [Part.text, capitalKey_append, List.append_assoc]
  exact p.word.exists_key_eq_cons _

namespace Body

/-- The key of segments starts with no `_`. -/
theorem exists_key_eq_cons (b : Body) : ∃ c u, capitalKey b.text = c :: u ∧ c ≠ '_' := by
  cases b with
  | last p =>
      have hpart := p.exists_key_eq_cons []
      rwa [List.append_nil] at hpart
  | dot p rest =>
      rw [text, capitalKey_append]
      exact p.exists_key_eq_cons _
  | keyed w letter k rest =>
      rw [text, capitalKey_append]
      exact w.exists_key_eq_cons _

/-- Behind a dot the key of segments is not read as an index. -/
theorem indexAt_key (b : Body) : indexAt (capitalKey b.text) = none := by
  cases b with
  | last p =>
      have hpart := indexAt_part p (Or.inl rfl)
      rwa [List.append_nil] at hpart
  | dot p rest =>
      obtain ⟨c, u, hcons, hc⟩ := rest.exists_key_eq_cons
      rw [text, capitalKey_append, capitalKey_dot, hcons]
      exact indexAt_part p (Or.inr ⟨c, u, rfl, hc⟩)
  | keyed w letter k rest =>
      rw [text, capitalKey_append, capitalKey_dot]
      exact indexAt_word w (Or.inr ⟨_, rfl, Or.inl letter⟩)

/-! ## Main statement -/

/-- A `_` before the key of segments is a dot. -/
theorem dottedFrom_key_dot (b : Body) :
    dottedFrom false ('_' :: capitalKey b.text) = '.' :: dottedFrom false (capitalKey b.text) := by
  obtain ⟨c, u, hcons, hc⟩ := b.exists_key_eq_cons
  have hindex := b.indexAt_key
  rw [hcons] at hindex ⊢
  exact dottedFrom_dot hc hindex

/-- The key of segments is read as these segments. -/
theorem dottedFrom_key (b : Body) : dottedFrom false (capitalKey b.text) = b.text := by
  induction b with
  | last p =>
      obtain ⟨w, index⟩ := p
      rw [text, Part.text, capitalKey_append, dottedFrom_word]
      cases index with
      | none =>
          have hend : dottedFrom false [] = [] := by rw [dottedFrom]
          exact congrArg _ hend
      | some d => rw [indexText, (dottedFrom_group d []).1]
  | dot p rest ih =>
      obtain ⟨w, index⟩ := p
      rw [text, Part.text, capitalKey_append, capitalKey_append, capitalKey_dot, List.append_assoc, dottedFrom_word,
        List.append_assoc]
      cases index with
      | none =>
          show w.text ++ dottedFrom false ('_' :: capitalKey rest.text) = _
          rw [dottedFrom_key_dot, ih]
          rfl
      | some d => rw [indexText, (dottedFrom_group d _).2, ih]
  | keyed w letter k rest ih =>
      have hrest : (capitalKey rest.text).isEmpty = false := by
        obtain ⟨c, u, hcons, -⟩ := rest.exists_key_eq_cons
        rw [hcons]
        rfl
      have hkey : capitalKey (keyed w letter k rest).text =
          capitalKey w.text ++ '_' :: '_' :: (capitalKey k.inner ++ '_' :: '_' :: capitalKey rest.text) := by
        rw [text, capitalKey_append, capitalKey_dot, capitalKey_append, k.capitalKey_text, capitalKey_dot]
        simp
      rw [hkey, dottedFrom_word, dottedFrom_open, dottedFrom_inner, hrest, if_neg (by decide), ih, text,
        QuotedKey.text]
      simp

end Body

/-- **The dotted form undoes the key.** A name of words in which quoted keys stand between segments, each behind one that
has no index and holds a letter, is the dotted form of its key in capitals. -/
theorem dottedOf_key (n : DottedName) : dottedOf (asciiUpper (keyOf n.text)) = n.text := by
  obtain ⟨qualified, b⟩ := n
  show dottedOf (capitalKey _) = _
  rw [dottedOf, toUnits_capitalKey]
  cases qualified with
  | true =>
      -- the first `_` stands for the `%`
      show '%' :: dottedFrom false (capitalKey b.text) = '%' :: b.text
      rw [b.dottedFrom_key]
  | false =>
      obtain ⟨c, u, hcons, hc⟩ := b.exists_key_eq_cons
      have hread := b.dottedFrom_key
      have hkey : capitalKey (DottedName.text ⟨false, b⟩) = c :: u := hcons
      rw [hkey]
      rw [hcons] at hread
      split
      · next heq => exact absurd (List.cons.inj heq).1 hc
      · exact hread

/-- Behind a run of digits a quoted key would be read as an index. -/
example : dottedOf (asciiUpper (keyOf "a.5.\"k\".c".toList)) = "a[5].k.\"c".toList := by decide +kernel

end LayeredConfig.Environment
