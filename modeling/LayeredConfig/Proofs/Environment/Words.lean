import LayeredConfig.Name.Segment
import LayeredConfig.Proofs.Environment.Spelling

/-!
# `LayeredConfig.Proofs.Environment.Words` — names of small letters and digits

What a key has lost cannot be restored in general: capitals, and most characters that are no letters. The names that can
be restored are made of words, which are texts of small letters and digits. This file holds the parts from which such
names are built, and what the key spells of each part.

## Contents
- **Parts.** `Word`, `QuotedKey`, `Digits`, each with its `text`.
- **Characters.** What is spelled of a small letter, of a digit and of a dot.
- **Keys.** The key of a word holds no `_` and lowers to the word (`Word.underscore_not_mem`, `Word.lower_key`); the words
  of a quoted key can be found again in its key (`QuotedKey.restored`).
-/

namespace LayeredConfig.Environment

open Text Name

/-! ## Parts -/

/-- A small letter or a digit. -/
def isSmall (c : Char) : Bool := c.isLower || c.isDigit

/-- A text of small letters and digits. -/
structure Word where
  text : Text
  ne : text ≠ []
  small : ∀ c ∈ text, isSmall c = true

/-- Words with dots between them, as they stand between quotes. -/
structure QuotedKey where
  words : List Word
  ne : words ≠ []

/-- What stands between the quotes. -/
def QuotedKey.inner (k : QuotedKey) : Text := dotted (k.words.map Word.text)

/-- How a quoted key is written. -/
def QuotedKey.text (k : QuotedKey) : Text := '"' :: k.inner ++ ['"']

/-- The digits of an index. -/
structure Digits where
  text : Text
  numeric : isNumeric text = true

/-- How an index with these digits is written. -/
def Digits.group (d : Digits) : Text := '[' :: d.text ++ [']']

/-! ## Characters -/

theorem toNat_lt_of_isSmall {c : Char} (h : isSmall c = true) : c.toNat < 0x80 := by
  rcases Bool.or_eq_true_iff.mp h with h | h
  · exact toNat_lt_of_isLower h
  · exact toNat_lt_of_isDigit h

/-- What a key spells of a small letter or digit is no `_`, and is lowered to it again. -/
theorem lower_key_of_isSmall {c : Char} (h : isSmall c = true) :
    (keyChar c).toUpper ≠ '_' ∧ (keyChar c).toUpper.toLower = c :=
  of_ascii (P := fun c => isSmall c = true → (keyChar c).toUpper ≠ '_' ∧ (keyChar c).toUpper.toLower = c) (by decide)
    (toNat_lt_of_isSmall h) h

/-- A letter is spelled by a letter. -/
theorem isDigit_key_of_isLower {c : Char} (h : c.isLower = true) : (keyChar c).toUpper.isDigit = false :=
  of_ascii (P := fun c => c.isLower = true → (keyChar c).toUpper.isDigit = false) (by decide) (toNat_lt_of_isLower h) h

/-- Words and dots are restored from their key. -/
theorem restored_of_small {t : Text} (h : ∀ c ∈ t, isSmall c = true ∨ c = '.') :
    replaceChar '_' '.' (asciiLower (capitalKey t)) = t := by
  induction t with
  | nil => rfl
  | cons c t ih =>
      have hrest := ih fun d hd => h d (List.mem_cons_of_mem c hd)
      have hhead : (if (keyChar c).toUpper.toLower = '_' then '.' else (keyChar c).toUpper.toLower) = c := by
        rcases h c List.mem_cons_self with hc | rfl
        · rw [(lower_key_of_isSmall hc).2, if_neg]
          rintro rfl
          exact absurd hc (by decide)
        · rfl
      rw [replaceChar, asciiLower] at hrest ⊢
      rw [capitalKey_cons, List.map_cons, List.map_cons, hrest, hhead]

/-! ## Keys -/

/-- Joined pieces start with the first of them. -/
theorem exists_joinWith_eq_append (x : Char) (t : Text) (ts : List Text) : ∃ r, joinWith x (t :: ts) = t ++ r := by
  cases ts with
  | nil => exact ⟨[], (List.append_nil t).symm⟩
  | cons u us => exact ⟨_, rfl⟩

/-- The key of any text is one of conventional characters. -/
theorem isKeyChar_of_mem_capitalKey {t : Text} {c : Char} (h : c ∈ capitalKey t) : isKeyChar c = true := by
  rw [capitalKey, asciiUpper, keyOf, List.map_map] at h
  obtain ⟨d, -, rfl⟩ := List.mem_map.mp h
  exact isKeyChar_toUpper_keyChar d

theorem toUnits_capitalKey (t : Text) : toUnits (capitalKey t) = capitalKey t :=
  toUnits_of_key fun _ hc => isKeyChar_of_mem_capitalKey hc

theorem capitalKey_dot (t : Text) : capitalKey ('.' :: t) = '_' :: capitalKey t := rfl

/-- The dots of a name become the `_` between the keys of its parts. -/
theorem capitalKey_dotted (ts : List Text) : capitalKey (dotted ts) = joinWith '_' (ts.map capitalKey) := by
  induction ts with
  | nil => rfl
  | cons t ts ih =>
      cases ts with
      | nil => rfl
      | cons u us =>
          have hsplit : dotted (t :: u :: us) = t ++ '.' :: dotted (u :: us) := rfl
          rw [hsplit, capitalKey_append, capitalKey_dot, ih]
          rfl

namespace Word

variable (w : Word)

/-- The key of a word holds no `_`. -/
theorem underscore_not_mem : '_' ∉ capitalKey w.text := by
  intro h
  rw [capitalKey, asciiUpper, keyOf, List.map_map] at h
  obtain ⟨c, hc, heq⟩ := List.mem_map.mp h
  exact (lower_key_of_isSmall (w.small c hc)).1 heq

/-- Lowered, it is the word. -/
theorem lower_key : asciiLower (capitalKey w.text) = w.text := by
  rw [capitalKey, asciiUpper, keyOf, asciiLower, List.map_map, List.map_map]
  refine Eq.trans (List.map_congr_left fun c hc => ?_) (List.map_id w.text)
  exact (lower_key_of_isSmall (w.small c hc)).2

theorem key_ne_nil : capitalKey w.text ≠ [] := by
  intro h
  have hlower := w.lower_key
  rw [h] at hlower
  exact w.ne hlower.symm

/-- So the key of a word starts with another character than `_`, whatever follows it. -/
theorem exists_key_eq_cons (r : Text) : ∃ c u, capitalKey w.text ++ r = c :: u ∧ c ≠ '_' := by
  obtain ⟨c, u, hcons⟩ := List.exists_cons_of_ne_nil w.key_ne_nil
  refine ⟨c, u ++ r, by rw [hcons, List.cons_append], ?_⟩
  rintro rfl
  exact w.underscore_not_mem (hcons ▸ List.mem_cons_self)

/-- The same of words with dots between them. -/
theorem exists_keys_eq_cons {ws : List Word} (ne : ws ≠ []) (r : Text) :
    ∃ c u, capitalKey (dotted (ws.map text)) ++ r = c :: u ∧ c ≠ '_' := by
  obtain ⟨w, ws, rfl⟩ := List.exists_cons_of_ne_nil ne
  obtain ⟨u, hu⟩ := exists_joinWith_eq_append '.' w.text (ws.map text)
  rw [List.map_cons, dotted, hu, capitalKey_append, List.append_assoc]
  exact w.exists_key_eq_cons _

end Word

namespace QuotedKey

variable (k : QuotedKey)

theorem capitalKey_text : capitalKey k.text = '_' :: capitalKey k.inner ++ ['_'] := by
  rw [text, List.cons_append, capitalKey_cons, capitalKey_append]
  rfl

/-- What stands between the quotes is restored from its key. -/
theorem restored : replaceChar '_' '.' (asciiLower (capitalKey k.inner)) = k.inner := by
  refine restored_of_small fun c hc => ?_
  by_cases hdot : c = '.'
  · exact Or.inr hdot
  · obtain ⟨t, ht, hmem⟩ := (mem_joinWith hdot).mp hc
    obtain ⟨w, -, rfl⟩ := List.mem_map.mp ht
    exact Or.inl (w.small c hmem)

end QuotedKey

namespace Digits

variable (d : Digits)

/-- Digits are spelled as they are. -/
theorem capitalKey_digits : capitalKey d.text = d.text :=
  capitalKey_of_key fun _ hc => isKeyChar_of_isDigit (isDigit_of_isNumeric d.numeric hc)

theorem capitalKey_group : capitalKey d.group = '_' :: d.text ++ ['_'] := by
  rw [group, List.cons_append, capitalKey_cons, capitalKey_append, capitalKey_digits]
  rfl

theorem ne_nil : d.text ≠ [] := by
  intro h
  have hnumeric := d.numeric
  rw [h] at hnumeric
  exact absurd hnumeric (by decide)

/-- Nor do digits start with a `_`. -/
theorem exists_eq_cons (r : Text) : ∃ c u, d.text ++ r = c :: u ∧ c ≠ '_' := by
  obtain ⟨c, u, hcons⟩ := List.exists_cons_of_ne_nil d.ne_nil
  refine ⟨c, u ++ r, by rw [hcons, List.cons_append], ?_⟩
  rintro rfl
  have hdigit := isDigit_of_isNumeric d.numeric (hcons ▸ List.mem_cons_self)
  exact absurd hdigit (by decide)

/-- The digits are all that is read up to the `_` behind them. -/
theorem takeWhile_append (r : Text) :
    (d.text ++ '_' :: r).takeWhile Char.isDigit = d.text ∧ (d.text ++ '_' :: r).dropWhile Char.isDigit = '_' :: r := by
  have hall : ∀ c ∈ d.text, c.isDigit = true := fun _ hc => isDigit_of_isNumeric d.numeric hc
  rw [List.takeWhile_append_of_pos hall, List.dropWhile_append_of_pos hall]
  refine ⟨?_, rfl⟩
  exact List.append_nil _

/-- The same digits from the right. -/
def back : Digits where
  text := d.text.reverse
  numeric := by
    have hnumeric := d.numeric
    simpa [isNumeric] using hnumeric

end Digits

end LayeredConfig.Environment
