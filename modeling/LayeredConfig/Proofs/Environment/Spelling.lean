import LayeredConfig.Environment.Alignment
import LayeredConfig.Environment.Spelling

/-!
# `LayeredConfig.Proofs.Environment.Spelling` — every reading of a key spells the key

A key is read back to a name in two ways: from the left by the rules for `_` alone, and from the right against a
declared name. Both put at least one character for every unit of the key, and each of these characters is spelled by
the unit it stands for. So the spelling of the name, raised to capitals, is the key again.

## Contents
- **Keys.** `isKeyChar` and `Conventional`, the keys of which this holds; `capitalKey`, the spelling in capitals.
- **From the left.** `capitalKey_dottedOf`.
- **From the right.** `capitalKey_keyPart` for a map key, `capitalKey_alignRev` for a declared name,
  `capitalKey_declaredName` for a list of them.
-/

namespace LayeredConfig.Environment

open Text

/-! ## Keys -/

/-- The characters of a conventional key: ASCII capitals, digits and `_`. -/
def isKeyChar (c : Char) : Bool := c.isUpper || c.isDigit || c == '_'

/-- A key of conventional characters that does not end in a `__` pair, whose reading would open or close a quoted key
with nothing behind it. -/
def Conventional (key : Text) : Prop := (∀ c ∈ key, isKeyChar c = true) ∧ ¬ ['_', '_'] <:+ key

instance (key : Text) : Decidable (Conventional key) :=
  inferInstanceAs (Decidable ((∀ c ∈ key, isKeyChar c = true) ∧ ¬ ['_', '_'] <:+ key))

/-- What is left of a conventional key is conventional. -/
theorem Conventional.of_append {a r : Text} (h : Conventional (a ++ r)) : Conventional r :=
  ⟨fun c hc => h.1 c (List.mem_append_right a hc), fun hs => h.2 (hs.trans (List.suffix_append a r))⟩

theorem Conventional.of_cons {c : Char} {r : Text} (h : Conventional (c :: r)) : Conventional r :=
  Conventional.of_append (a := [c]) h

/-- The spelling of a name in capitals. -/
def capitalKey (name : Text) : Text := asciiUpper (keyOf name)

@[simp] theorem capitalKey_cons (c : Char) (t : Text) :
    capitalKey (c :: t) = (keyChar c).toUpper :: capitalKey t := rfl

@[simp] theorem capitalKey_append (s t : Text) : capitalKey (s ++ t) = capitalKey s ++ capitalKey t := by
  simp [capitalKey, keyOf, asciiUpper]

/-- A spelling is spelled like the name. -/
theorem capitalKey_keyOf (name : Text) : capitalKey (keyOf name) = capitalKey name := by
  have hchar (c : Char) : keyChar (keyChar c) = keyChar c := by
    by_cases hc : c.isAlphanum
    · simp [keyChar, hc]
    · rw [keyChar, keyChar, if_neg hc]
      decide
  rw [capitalKey, capitalKey, keyOf, keyOf, List.map_map]
  congr 1
  exact List.map_congr_left fun c _ => hchar c

theorem toNat_lt_of_isUpper {c : Char} (h : c.isUpper = true) : c.toNat < 0x80 := by
  have hrange : 'A'.val ≤ c.val ∧ c.val ≤ 'Z'.val := of_decide_eq_true h
  exact Nat.lt_of_le_of_lt (UInt32.le_iff_toNat_le.mp hrange.2) (by decide)

theorem toNat_lt_of_isLower {c : Char} (h : c.isLower = true) : c.toNat < 0x80 := by
  have hle : c.val ≤ 'z'.val := of_decide_eq_true (Bool.and_eq_true_iff.mp h).2
  exact Nat.lt_of_le_of_lt (UInt32.le_iff_toNat_le.mp hle) (by decide)

theorem toNat_lt_of_isDigit {c : Char} (h : c.isDigit = true) : c.toNat < 0x80 := by
  have hle : c.val ≤ '9'.val := of_decide_eq_true (Bool.and_eq_true_iff.mp h).2
  exact Nat.lt_of_le_of_lt (UInt32.le_iff_toNat_le.mp hle) (by decide)

theorem toNat_lt_of_isKeyChar {c : Char} (h : isKeyChar c = true) : c.toNat < 0x80 := by
  simp only [isKeyChar, Bool.or_eq_true, beq_iff_eq] at h
  rcases h with (h | h) | rfl
  · exact toNat_lt_of_isUpper h
  · exact toNat_lt_of_isDigit h
  · decide

theorem toNat_lt_of_isAlphanum {c : Char} (h : c.isAlphanum = true) : c.toNat < 0x80 := by
  rcases Bool.or_eq_true_iff.mp h with h | h
  · rcases Bool.or_eq_true_iff.mp h with h | h
    · exact toNat_lt_of_isUpper h
    · exact toNat_lt_of_isLower h
  · exact toNat_lt_of_isDigit h

/-- What holds of the 128 ASCII characters, one by one. -/
theorem of_ascii {P : Char → Prop} (h : ∀ n < 0x80, P (Char.ofNat n)) {c : Char} (hc : c.toNat < 0x80) : P c := by
  have hchar := h c.toNat hc
  rwa [Char.ofNat_toNat] at hchar

/-- The capital of a letter or digit may stand in a key. -/
theorem isKeyChar_toUpper {c : Char} (h : c.isAlphanum = true) : isKeyChar c.toUpper = true :=
  of_ascii (P := fun c => c.isAlphanum = true → isKeyChar c.toUpper = true) (by decide) (toNat_lt_of_isAlphanum h) h

/-- The spelling of any name in capitals is a conventional text. -/
theorem isKeyChar_toUpper_keyChar (c : Char) : isKeyChar (keyChar c).toUpper = true := by
  rw [keyChar]
  split
  · next h => exact isKeyChar_toUpper h
  · decide

/-- A character of a key is its own spelling in capitals, and that of its small form. -/
theorem toUpper_keyChar {c : Char} (h : isKeyChar c = true) :
    (keyChar c).toUpper = c ∧ (keyChar c.toLower).toUpper = c :=
  of_ascii (P := fun c => isKeyChar c = true → (keyChar c).toUpper = c ∧ (keyChar c.toLower).toUpper = c) (by decide)
    (toNat_lt_of_isKeyChar h) h

theorem isKeyChar_of_isDigit {c : Char} (h : c.isDigit = true) : isKeyChar c = true := by
  simp [isKeyChar, h]

/-- A conventional text is its own spelling. -/
theorem capitalKey_of_key {t : Text} (h : ∀ c ∈ t, isKeyChar c = true) : capitalKey t = t := by
  induction t with
  | nil => rfl
  | cons c r ih =>
      rw [capitalKey_cons, (toUpper_keyChar (h c List.mem_cons_self)).1,
        ih fun d hd => h d (List.mem_cons_of_mem c hd)]

/-- The small form of a conventional text spells it. -/
theorem capitalKey_asciiLower {t : Text} (h : ∀ c ∈ t, isKeyChar c = true) : capitalKey (asciiLower t) = t := by
  induction t with
  | nil => rfl
  | cons c r ih =>
      have hr := ih fun d hd => h d (List.mem_cons_of_mem c hd)
      rw [asciiLower] at hr ⊢
      rw [List.map_cons, capitalKey_cons, (toUpper_keyChar (h c List.mem_cons_self)).2, hr]

/-- A dot is spelled as the `_` in whose place it stands. -/
theorem capitalKey_replaceChar (t : Text) : capitalKey (replaceChar '_' '.' t) = capitalKey t := by
  induction t with
  | nil => rfl
  | cons c r ih =>
      rw [replaceChar] at ih ⊢
      rw [List.map_cons, capitalKey_cons, capitalKey_cons, ih]
      by_cases hc : c = '_'
      · subst hc
        rfl
      · rw [if_neg hc]

/-- A conventional text is the sequence of its units. -/
theorem toUnits_of_key {t : Text} (h : ∀ c ∈ t, isKeyChar c = true) : toUnits t = t :=
  toUnits_of_ascii fun c hc => toNat_lt_of_isKeyChar (h c hc)

/-- ASCII units are the text that they stand for. -/
theorem ofUnits_of_ascii {t : Text} (h : ∀ c ∈ t, c.toNat < 0x80) : ofUnits t = t := by
  fun_induction ofUnits t <;> grind

/-! ## From the left -/

/-- What an index reads: digits, and behind them one `_` that ends the key or two. -/
theorem eq_of_indexAt {t digits : Text} {rest : Option Text} (h : indexAt t = some (digits, rest)) :
    (∀ c ∈ digits, c.isDigit = true) ∧ t = digits ++ '_' :: rest.elim [] ('_' :: ·) := by
  have hsplit := List.takeWhile_append_dropWhile (p := Char.isDigit) (l := t)
  have hdigits : ∀ c ∈ t.takeWhile Char.isDigit, c.isDigit = true := List.all_eq_true.mp List.all_takeWhile
  simp only [indexAt] at h
  split at h
  · next r hr =>
      rw [hr] at hsplit
      split at h
      · simp at h
      · split at h
        · simp only [Option.some.injEq, Prod.mk.injEq] at h
          obtain ⟨rfl, rfl⟩ := h
          exact ⟨hdigits, hsplit.symm⟩
        · simp only [Option.some.injEq, Prod.mk.injEq] at h
          obtain ⟨rfl, rfl⟩ := h
          exact ⟨hdigits, hsplit.symm⟩
        · simp at h
  · simp at h

/-- Behind the first unit, what is read of a conventional key spells it. -/
theorem capitalKey_dottedFrom {quoted : Bool} {t : Text} (h : Conventional t) :
    capitalKey (dottedFrom quoted t) = t := by
  fun_induction dottedFrom quoted t with
  | case1 => rfl
  | case2 r ih =>
      -- behind the pair that closes a quoted key a dot is put, since the key does not end there
      have hne : r.isEmpty = false := by
        cases r with
        | nil => exact absurd (List.suffix_refl _) h.2
        | cons => rfl
      rw [hne, if_neg (by decide), capitalKey_cons, capitalKey_cons, ih h.of_cons.of_cons]
      rfl
  | case3 quoted r hq ih =>
      rw [capitalKey_cons, capitalKey_cons, ih h.of_cons.of_cons]
      rfl
  | case4 r _ ih =>
      rw [capitalKey_cons, ih h.of_cons]
      rfl
  | case5 quoted r _ hq hindex ih =>
      rw [capitalKey_cons, ih h.of_cons]
      rfl
  | case6 quoted r _ hq digits hindex =>
      obtain ⟨hdigits, rfl⟩ := eq_of_indexAt hindex
      rw [List.cons_append, capitalKey_cons, capitalKey_append,
        capitalKey_of_key fun c hc => isKeyChar_of_isDigit (hdigits c hc)]
      rfl
  | case7 quoted r _ hq digits rest hindex ih =>
      obtain ⟨hdigits, rfl⟩ := eq_of_indexAt hindex
      have hrest : Conventional rest := h.of_cons.of_append.of_cons.of_cons
      rw [List.cons_append, capitalKey_cons, capitalKey_append, capitalKey_cons, capitalKey_cons, ih hrest,
        capitalKey_of_key fun c hc => isKeyChar_of_isDigit (hdigits c hc)]
      rfl
  | case8 quoted c r _ hc ih =>
      rw [capitalKey_cons, (toUpper_keyChar (h.1 c List.mem_cons_self)).2, ih h.of_cons]

/-- **From the left.** The dotted name of a conventional key spells the key. -/
theorem capitalKey_dottedOf {key : Text} (h : Conventional key) : capitalKey (dottedOf key) = key := by
  rw [dottedOf, toUnits_of_key h.1]
  split
  · next r =>
      rw [capitalKey_cons, capitalKey_dottedFrom h.of_cons]
      rfl
  · exact capitalKey_dottedFrom h

/-! ## From the right -/

/-- A cut at `__` loses nothing else. -/
theorem eq_of_cutPair {t a b : Text} (h : cutPair t = some (a, b)) : t = a ++ '_' :: '_' :: b := by
  fun_induction cutPair t generalizing a with
  | case1 r =>
      simp only [Option.some.injEq, Prod.mk.injEq] at h
      simp [← h.1, ← h.2]
  | case2 c r _ ih =>
      simp only [Option.map_eq_some_iff, Prod.mk.injEq] at h
      obtain ⟨⟨a', b'⟩, hp, rfl, rfl⟩ := h
      rw [ih hp, List.cons_append]
  | case3 => simp at h

theorem capitalKey_lowered {rev : Text} (h : ∀ c ∈ rev, isKeyChar c = true) :
    capitalKey (lowered rev) = rev.reverse := by
  have hrev : ∀ c ∈ rev.reverse, isKeyChar c = true := fun c hc => h c (List.mem_reverse.mp hc)
  rw [lowered, ofUnits_of_ascii fun c hc => toNat_lt_of_isKeyChar (hrev c hc), capitalKey_asciiLower hrev]

theorem capitalKey_quotedKey {rev : Text} (h : ∀ c ∈ rev, isKeyChar c = true) :
    capitalKey (quotedKey rev) = '_' :: rev.reverse ++ ['_'] := by
  rw [quotedKey, List.cons_append, capitalKey_cons, capitalKey_append, capitalKey_replaceChar, capitalKey_lowered h]
  rfl

/-- A map key spells what it takes from the end of the key. -/
theorem capitalKey_keyPart {whole : Bool} {key part rest : Text} (hkey : ∀ c ∈ key, isKeyChar c = true)
    (h : keyPart whole key = some (part, rest)) : rest.reverse ++ capitalKey part = key.reverse := by
  revert h
  fun_cases keyPart whole key with
  | case1 => simp
  | case2 => simp
  | case3 r _ inner hr _ =>
      intro h
      simp only [Option.some.injEq, Prod.mk.injEq] at h
      obtain ⟨rfl, rfl⟩ := h
      have hr' : r = inner.reverse ++ ['_'] := by
        rw [← List.reverse_reverse r, hr, List.reverse_cons]
      have hinner : ∀ c ∈ inner.reverse, isKeyChar c = true := fun c hc =>
        hkey c (List.mem_cons_of_mem _ (hr' ▸ List.mem_append_left _ hc))
      rw [capitalKey_quotedKey hinner, hr']
      simp
  | case4 => simp
  | case5 => simp
  | case6 r _ inner rest' hr _ =>
      intro h
      simp only [Option.some.injEq, Prod.mk.injEq] at h
      obtain ⟨rfl, rfl⟩ := h
      have hr' := eq_of_cutPair hr
      have hinner : ∀ c ∈ inner, isKeyChar c = true := fun c hc =>
        hkey c (List.mem_cons_of_mem _ (hr' ▸ List.mem_append_left _ hc))
      rw [capitalKey_quotedKey hinner, hr']
      simp
  | case7 => simp
  | case8 head tail _ _ =>
      intro h
      simp only [Option.some.injEq, Prod.mk.injEq] at h
      obtain ⟨rfl, rfl⟩ := h
      rw [capitalKey_lowered hkey, List.reverse_nil, List.nil_append]
  | case9 head tail _ _ hnone =>
      rw [hnone]
      simp
  | case10 head tail _ _ _ =>
      intro h
      simp only [Option.some.injEq, Prod.mk.injEq] at h
      obtain ⟨rfl, rfl⟩ := h
      rw [capitalKey_lowered fun c hc => hkey c (List.takeWhile_subset _ hc), ← List.reverse_append,
        List.takeWhile_append_dropWhile]

/-- An index spells the digits and the two `_` that it takes from the end of the key. -/
theorem eq_of_indexPart {key digits rest : Text} (h : indexPart key = some (digits, rest)) :
    (∀ c ∈ digits, c.isDigit = true) ∧ key = '_' :: (digits ++ '_' :: rest) := by
  simp only [indexPart] at h
  split at h
  · next r =>
      have hsplit := List.takeWhile_append_dropWhile (p := Char.isDigit) (l := r)
      split at h
      · next rest' hr =>
          split at h
          · simp at h
          · simp only [Option.some.injEq, Prod.mk.injEq] at h
            obtain ⟨rfl, rfl⟩ := h
            rw [← hr, hsplit]
            exact ⟨List.all_eq_true.mp List.all_takeWhile, rfl⟩
      · simp at h
  · simp at h

/-- A letter or digit is spelled like its small form. -/
theorem keyChar_toLower {c : Char} (h : c.isAlphanum = true) : (keyChar c).toUpper = (keyChar c.toLower).toUpper :=
  of_ascii (P := fun c => c.isAlphanum = true → (keyChar c).toUpper = (keyChar c.toLower).toUpper) (by decide)
    (toNat_lt_of_isAlphanum h) h

/-- A unit of a declared name is spelled by the unit of the key over which it stands. -/
theorem toUpper_keyChar_of_unitAligns {d k : Char} (hk : isKeyChar k = true) (h : unitAligns d k = true) :
    (keyChar d).toUpper = k := by
  unfold unitAligns at h
  split at h
  · next hd => rw [keyChar_toLower hd, beq_iff_eq.mp h, (toUpper_keyChar hk).2]
  · next hd =>
      simp only [Bool.or_eq_true, beq_iff_eq] at h
      rcases h with rfl | rfl
      · rw [keyChar, if_neg hd]
        decide
      · exact (toUpper_keyChar hk).1

/-- A name that lines up with the end of a key spells that end, unit by unit. -/
theorem capitalKey_alignRev {declared key n : Text} (hkey : ∀ c ∈ key, isKeyChar c = true)
    (h : alignRev declared key = some n) : capitalKey n = key.reverse := by
  fun_induction alignRev declared key generalizing n with
  | case1 =>
      rw [← Option.some.inj h]
      rfl
  | case2 | case3 | case4 | case5 | case7 | case8 | case11 => simp at h
  | case6 ds k ks index ds' _ _ digits rest hindex _ ih =>
      simp only [Option.map_eq_some_iff] at h
      obtain ⟨m, hm, rfl⟩ := h
      obtain ⟨hdigits, hkey'⟩ := eq_of_indexPart hindex
      rw [hkey'] at hkey ⊢
      have hrest : ∀ c ∈ rest, isKeyChar c = true := fun c hc => hkey c (by simp [hc])
      rw [List.append_assoc, capitalKey_append, ih hrest hm, List.cons_append, capitalKey_cons, capitalKey_append,
        capitalKey_of_key fun c hc => isKeyChar_of_isDigit (hdigits c (List.mem_reverse.mp hc))]
      rw [List.reverse_cons, List.reverse_append, List.reverse_cons, List.append_assoc, List.append_assoc]
      rfl
  | case9 d ds k ks _ _ part rest hpart ih =>
      simp only [Option.map_eq_some_iff] at h
      obtain ⟨m, hm, rfl⟩ := h
      have hsplit := capitalKey_keyPart hkey hpart
      have hrest : ∀ c ∈ rest, isKeyChar c = true := by
        intro c hc
        refine hkey c (List.mem_reverse.mp ?_)
        rw [← hsplit]
        exact List.mem_append_left _ (List.mem_reverse.mpr hc)
      rw [capitalKey_append, ih hrest hm, hsplit]
  | case10 d ds k ks _ _ hunit ih =>
      simp only [Option.map_eq_some_iff] at h
      obtain ⟨m, hm, rfl⟩ := h
      rw [capitalKey_append, ih (fun c hc => hkey c (List.mem_cons_of_mem k hc)) hm, List.reverse_cons,
        capitalKey_cons, toUpper_keyChar_of_unitAligns (hkey k List.mem_cons_self) hunit]
      rfl

theorem capitalKey_align {declared key n : Text} (hkey : ∀ c ∈ key, isKeyChar c = true)
    (h : align declared key = some n) : capitalKey n = key := by
  rw [capitalKey_alignRev (fun c hc => hkey c (List.mem_reverse.mp hc)) h, List.reverse_reverse]

/-- The qualifier of a profile spells the `_PROFILE_` from which it is taken. -/
theorem capitalKey_alignProfiled {declared key n : Text} (hkey : ∀ c ∈ key, isKeyChar c = true)
    (h : alignProfiled declared key = some n) : capitalKey n = key := by
  unfold alignProfiled at h
  split at h
  · next r =>
      split at h
      · next profile rest hcut =>
          split at h
          · simp at h
          · obtain rfl := eq_of_cut hcut
            simp only [Option.map_eq_some_iff] at h
            obtain ⟨m, hm, rfl⟩ := h
            have hprofile : ∀ c ∈ profile, isKeyChar c = true := fun c hc => hkey c (by simp [hc])
            have hrest : ∀ c ∈ rest, isKeyChar c = true := fun c hc => hkey c (by simp [hc])
            rw [toUnits_of_key hrest] at hm
            rw [List.cons_append, capitalKey_cons, capitalKey_append, capitalKey_asciiLower hprofile, capitalKey_cons,
              capitalKey_align hrest hm]
            rfl
      · simp at h
  · simp at h

/-- **From the right.** The name that a key of conventional characters spells against declared names spells the key. -/
theorem capitalKey_declaredName {declared : List Text} {key n : Text} (hkey : ∀ c ∈ key, isKeyChar c = true)
    (h : declaredName? declared key = some n) : capitalKey n = key := by
  obtain ⟨d, -, hd⟩ := List.exists_of_findSome?_eq_some h
  rw [nameOf?, Option.or_eq_some_iff, toUnits_of_key hkey] at hd
  rcases hd with hd | ⟨-, hd⟩
  · exact capitalKey_align hkey hd
  · exact capitalKey_alignProfiled hkey hd

end LayeredConfig.Environment
