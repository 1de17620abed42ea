/-!
# `LayeredConfig.Text.Basic` — text as a list of characters

Names and values are lists of Unicode characters, so that every reader of them is a recursion on the
text itself.

## Contents
- **`Text`.** The type, digits, ASCII letter case.
- **Cutting.** `cut` splits at the first occurrence of a character, `fields` at every one; `joinWith`
  is the inverse of `fields` (`joinWith_fields`) and can be read from the right (`reverse_joinWith`).
-/

namespace LayeredConfig

/-- A name or a value: its characters in order. -/
abbrev Text := List Char

namespace Text

/-! ## Characters -/

/-- What is asked of every character of a text is decided by going through the text. -/
instance decidableForallMem (t : Text) (P : Char → Prop) [DecidablePred P] : Decidable (∀ c ∈ t, P c) :=
  List.decidableBAll P t

/-- Whether the text is a non-empty run of ASCII digits. -/
def isNumeric (t : Text) : Bool := !t.isEmpty && t.all Char.isDigit

theorem isDigit_of_isNumeric {t : Text} (h : isNumeric t = true) {c : Char} (hc : c ∈ t) :
    c.isDigit = true := by
  simp only [isNumeric, Bool.and_eq_true, List.all_eq_true] at h
  exact h.2 c hc

/-- Lowers the ASCII letters and leaves every other character. -/
def asciiLower (t : Text) : Text := t.map Char.toLower

/-- Raises the ASCII letters and leaves every other character. -/
def asciiUpper (t : Text) : Text := t.map Char.toUpper

/-- Writes `b` wherever `a` stands. -/
def replaceChar (a b : Char) (t : Text) : Text := t.map fun c => if c = a then b else c

/-- Whether a number lies in one of the ranges, each of which is given by its ends. -/
def inRanges (ranges : List (Nat × Nat)) (n : Nat) : Bool := ranges.any fun r => r.1 ≤ n && n ≤ r.2

/-- The number that a run of decimal digits denotes; the empty run denotes zero. -/
def digitsValue (t : Text) : Nat := t.foldl (fun n c => 10 * n + (c.toNat - '0'.toNat)) 0

/-- The decimal digits of a number, without leading zeros. -/
def ofNat (n : Nat) : Text := Nat.toDigits 10 n

/-- The decimal digits of a number behind `-` when it is negative. -/
def ofInt : Int → Text
  | .ofNat n => ofNat n
  | .negSucc n => '-' :: ofNat (n + 1)

/-! ## Cutting at a character -/

/-- The text before the first `x` and the text after it; nothing when no `x` occurs. -/
def cut (x : Char) : Text → Option (Text × Text)
  | [] => none
  | c :: r => if c = x then some ([], r) else (cut x r).map fun p => (c :: p.1, p.2)

/-- A cut loses only the character at which it was made. -/
theorem eq_of_cut {x : Char} {t a b : Text} (h : cut x t = some (a, b)) : t = a ++ x :: b := by
  induction t generalizing a with
  | nil => simp [cut] at h
  | cons c r ih =>
      by_cases hc : c = x
      · simp only [cut, hc, if_true, Option.some.injEq, Prod.mk.injEq] at h
        simp [hc, ← h.1, ← h.2]
      · simp only [cut, hc, if_false, Option.map_eq_some_iff, Prod.mk.injEq] at h
        obtain ⟨⟨a', b'⟩, hp, rfl, rfl⟩ := h
        simp [ih hp]

/-- The part before a cut does not hold the character. -/
theorem not_mem_of_cut {x : Char} {t a b : Text} (h : cut x t = some (a, b)) : x ∉ a := by
  induction t generalizing a with
  | nil => simp [cut] at h
  | cons c r ih =>
      by_cases hc : c = x
      · simp only [cut, hc, if_true, Option.some.injEq, Prod.mk.injEq] at h
        simp [← h.1]
      · simp only [cut, hc, if_false, Option.map_eq_some_iff, Prod.mk.injEq] at h
        obtain ⟨⟨a', b'⟩, hp, rfl, rfl⟩ := h
        simp only [List.mem_cons, not_or]
        exact ⟨fun e => hc e.symm, ih hp⟩

/-- Both parts of a cut together are shorter than the text. -/
theorem length_of_cut {x : Char} {t a b : Text} (h : cut x t = some (a, b)) :
    a.length + b.length < t.length := by
  rw [eq_of_cut h]
  simp

/-- No cut exists exactly when the character does not occur. -/
theorem cut_eq_none_iff {x : Char} {t : Text} : cut x t = none ↔ x ∉ t := by
  induction t with
  | nil => simp [cut]
  | cons c r ih =>
      by_cases hc : c = x
      · simp [cut, hc]
      · simp only [cut, hc, if_false, Option.map_eq_none_iff, ih, List.mem_cons, not_or]
        exact ⟨fun h => ⟨fun e => hc e.symm, h⟩, fun h => h.2⟩

/-- The first occurrence is found where the text before it holds none. -/
theorem cut_append {x : Char} {a : Text} (h : x ∉ a) (b : Text) : cut x (a ++ x :: b) = some (a, b) := by
  induction a with
  | nil => simp [cut]
  | cons c r ih =>
      have hc : c ≠ x := fun e => h (by simp [e])
      have hr : x ∉ r := fun hm => h (List.mem_cons_of_mem c hm)
      simp [cut, hc, ih hr]

/-- Puts `c` in front of the first piece. -/
def consFirst (c : Char) : List Text → List Text
  | [] => [[c]]
  | t :: ts => (c :: t) :: ts

/-- The pieces between the occurrences of `x`: one more than there are occurrences. -/
def fields (x : Char) : Text → List Text
  | [] => [[]]
  | c :: r => if c = x then [] :: fields x r else consFirst c (fields x r)

/-- Writes the pieces one after another with `x` between them. -/
def joinWith (x : Char) : List Text → Text
  | [] => []
  | [t] => t
  | t :: ts => t ++ x :: joinWith x ts

theorem fields_ne_nil (x : Char) (t : Text) : fields x t ≠ [] := by
  cases t with
  | nil => simp [fields]
  | cons c r =>
      by_cases hc : c = x
      · simp [fields, hc]
      · simp only [fields, hc, if_false]
        cases fields x r <;> simp [consFirst]

theorem joinWith_consFirst (x c : Char) {ts : List Text} (h : ts ≠ []) :
    joinWith x (consFirst c ts) = c :: joinWith x ts := by
  match ts, h with
  | [t], _ => rfl
  | t :: u :: us, _ => rfl

/-- Joining the fields gives the text back. -/
theorem joinWith_fields (x : Char) (t : Text) : joinWith x (fields x t) = t := by
  induction t with
  | nil => rfl
  | cons c r ih =>
      by_cases hc : c = x
      · subst hc
        simp only [fields, if_true]
        match hf : fields c r, fields_ne_nil c r with
        | u :: us, _ => simp [joinWith, ← hf, ih]
      · simp only [fields, hc, if_false]
        rw [joinWith_consFirst x c (fields_ne_nil x r), ih]

/-- A piece put behind the others stands behind one more separator. -/
theorem joinWith_append (x : Char) {ts us : List Text} (ht : ts ≠ []) (hu : us ≠ []) :
    joinWith x (ts ++ us) = joinWith x ts ++ x :: joinWith x us := by
  induction ts with
  | nil => exact absurd rfl ht
  | cons t r ih =>
      cases r with
      | nil =>
          cases us with
          | nil => exact absurd rfl hu
          | cons u v => rfl
      | cons t' r' =>
          have hr := ih (by simp)
          simp only [List.cons_append] at hr ⊢
          simp only [joinWith, hr, List.append_assoc, List.cons_append]

/-- Apart from the separator, the joined text holds the characters of its pieces. -/
theorem mem_joinWith {x c : Char} {ts : List Text} (hx : c ≠ x) :
    c ∈ joinWith x ts ↔ ∃ t ∈ ts, c ∈ t := by
  induction ts with
  | nil => simp [joinWith]
  | cons t r ih =>
      cases r with
      | nil => simp [joinWith]
      | cons u v =>
          simp only [joinWith, List.mem_append, List.mem_cons, hx, false_or, ih]
          simp

/-- No piece is longer than the joined text. -/
theorem length_le_joinWith (x : Char) {ts : List Text} {t : Text} (h : t ∈ ts) :
    t.length ≤ (joinWith x ts).length := by
  induction ts with
  | nil => simp at h
  | cons u r ih =>
      cases r with
      | nil => simp [List.mem_singleton.mp h, joinWith]
      | cons v w =>
          simp only [joinWith, List.length_append, List.length_cons]
          rcases List.mem_cons.mp h with rfl | h
          · omega
          · have hr := ih h
            omega

/-- Joined pieces, read from the right, are the pieces from the right, each read from the right. -/
theorem reverse_joinWith (x : Char) (ts : List Text) :
    (joinWith x ts).reverse = joinWith x (ts.reverse.map List.reverse) := by
  induction ts with
  | nil => rfl
  | cons t r ih =>
      by_cases hr : r = []
      · subst hr
        rfl
      · have hsplit : joinWith x (t :: r) = t ++ x :: joinWith x r := joinWith_append x (List.cons_ne_nil t []) hr
        rw [hsplit, List.reverse_append, List.reverse_cons, ih, List.reverse_cons, List.map_append,
          joinWith_append x (by simpa using hr) (by simp)]
        simp [joinWith]

/-! ## Edges -/

/-- Drops the characters of a class from the right end. -/
def dropRightWhile (p : Char → Bool) (t : Text) : Text := (t.reverse.dropWhile p).reverse

/-- What is left after dropping a class from the left end starts with no character of it. -/
theorem eq_false_of_dropWhile {p : Char → Bool} {t : Text} {c : Char} {r : Text}
    (h : t.dropWhile p = c :: r) : p c = false := by
  induction t with
  | nil => simp at h
  | cons d u ih =>
      by_cases hd : p d
      · rw [List.dropWhile_cons_of_pos hd] at h
        exact ih h
      · rw [List.dropWhile_cons_of_neg hd] at h
        simp only [List.cons.injEq] at h
        rw [← h.1]
        exact Bool.eq_false_iff.mpr hd

/-- What is left after dropping a class from the right end is a beginning of the text. -/
theorem dropRightWhile_prefix (p : Char → Bool) (t : Text) : dropRightWhile p t <+: t := by
  rw [dropRightWhile, ← List.reverse_suffix, List.reverse_reverse]
  exact List.dropWhile_suffix p

/-- A text without the mark that tells how its characters are encoded, which may stand at its start. -/
def dropEncodingMark : Text → Text
  | c :: r => if c.toNat = 0xfeff then r else c :: r
  | [] => []

/-- What follows `pre` when the text starts with it. -/
def afterPrefix? : Text → Text → Option Text
  | [], t => some t
  | _ :: _, [] => none
  | a :: as, c :: r => if a = c then afterPrefix? as r else none

/-- The rest after a prefix is found exactly when the text is that prefix followed by the rest. -/
theorem afterPrefix?_eq_some_iff {p t r : Text} : afterPrefix? p t = some r ↔ t = p ++ r := by
  induction p generalizing t with
  | nil => simp [afterPrefix?]
  | cons a as ih =>
      cases t with
      | nil => simp [afterPrefix?]
      | cons c u =>
          by_cases h : a = c
          · simp [afterPrefix?, h, ih]
          · simp only [afterPrefix?, h, if_false, List.cons_append, List.cons.injEq]
            exact ⟨fun e => by simp at e, fun e => absurd e.1.symm h⟩

end Text

end LayeredConfig
