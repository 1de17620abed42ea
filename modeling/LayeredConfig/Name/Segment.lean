import LayeredConfig.Text.Basic

/-!
# `LayeredConfig.Name.Segment` — the parts of a dotted name

A name is a sequence of segments with a dot between two of them. A dot inside a `"…"` run or inside a
`[…]` group belongs to its segment; segments keep their quotes and brackets.

## Contents
- **Cutting.** `Scan` is what the characters read so far say about the next one; `segments` cuts a name at
  the dots that `Scan.cuts` admits, and `dotted` puts the segments together again (`dotted_segments`).
- **Building.** `join` puts a segment behind a name, `quotedIfNeeded` makes one segment of a key; `unquoted` takes
  quotes off again (`unquoted_quote`).
- **Index groups.** `splitGroups` separates `base[0][*]` into `base`, `[0]`, `[*]`.
- **Qualifier.** `unprofiled` drops a leading `%profile.`.
-/

namespace LayeredConfig.Name

open Text

/-! ## Cutting at top-level dots -/

/-- What the characters read so far say about the next one: whether a quoted run is open, and how many
bracket groups are. -/
structure Scan where
  quoted : Bool
  depth : Nat
  deriving DecidableEq, Repr

namespace Scan

/-- Before the first character nothing is open. -/
def start : Scan := ⟨false, 0⟩

/-- The state after one more character; a bracket inside a quoted run is a plain character, and a closing
bracket without an open group changes nothing. -/
def next (s : Scan) (c : Char) : Scan :=
  if c = '"' then { s with quoted := !s.quoted }
  else if s.quoted then s
  else if c = '[' then { s with depth := s.depth + 1 }
  else if c = ']' then { s with depth := s.depth - 1 }
  else s

/-- Whether the next character is a dot at which the name is cut. -/
def cuts (s : Scan) (c : Char) : Bool := c == '.' && !s.quoted && s.depth == 0

/-- The state after a text. -/
def after (s : Scan) (t : Text) : Scan := t.foldl next s

@[simp] theorem after_nil (s : Scan) : s.after [] = s := rfl

@[simp] theorem after_cons (s : Scan) (c : Char) (t : Text) : s.after (c :: t) = (s.next c).after t :=
  rfl

theorem after_append (s : Scan) (t u : Text) : s.after (t ++ u) = (s.after t).after u :=
  List.foldl_append

theorem eq_dot_of_cuts {s : Scan} {c : Char} (h : s.cuts c = true) : c = '.' := by
  simp only [cuts, Bool.and_eq_true, beq_iff_eq] at h
  exact h.1.1

/-- A dot changes no state. -/
@[simp] theorem next_dot (s : Scan) : s.next '.' = s := by
  simp [next]

end Scan

/-- The segments of a text that is read in a given state; there is always at least one. -/
def segmentsFrom (s : Scan) : Text → List Text
  | [] => [[]]
  | c :: r => if s.cuts c then [] :: segmentsFrom s r else consFirst c (segmentsFrom (s.next c) r)

/-- The segments of a name, left to right; the empty name has none. -/
def segments (name : Text) : List Text :=
  if name.isEmpty then [] else segmentsFrom .start name

/-- The name of a sequence of segments. -/
def dotted (segs : List Text) : Text := joinWith '.' segs

theorem segmentsFrom_ne_nil (s : Scan) (t : Text) : segmentsFrom s t ≠ [] := by
  cases t with
  | nil => simp [segmentsFrom]
  | cons c r =>
      by_cases h : s.cuts c
      · simp [segmentsFrom, h]
      · simp only [segmentsFrom, h]
        cases segmentsFrom (s.next c) r <;> simp [consFirst]

/-- Cutting loses only the dots at which it cuts. -/
theorem dotted_segmentsFrom (s : Scan) (t : Text) : dotted (segmentsFrom s t) = t := by
  induction t generalizing s with
  | nil => rfl
  | cons c r ih =>
      by_cases h : s.cuts c
      · have hc := Scan.eq_dot_of_cuts h
        subst hc
        simp only [segmentsFrom, h, if_true]
        have hr := ih s
        match hs : segmentsFrom s r, segmentsFrom_ne_nil s r with
        | u :: us, _ =>
            rw [hs] at hr
            simpa [dotted, joinWith] using hr
      · simp only [segmentsFrom, h]
        have := joinWith_consFirst '.' c (segmentsFrom_ne_nil (s.next c) r)
        simp only [dotted] at ih ⊢
        simp [this, ih]

/-- The segments of a name, put together, are the name. -/
theorem dotted_segments (name : Text) : dotted (segments name) = name := by
  cases name with
  | nil => rfl
  | cons c r => exact dotted_segmentsFrom .start (c :: r)

/-! ## Building names -/

/-- Puts a segment behind a name: an index group directly, any other segment after a dot. -/
def join (parent child : Text) : Text :=
  if parent.isEmpty then child
  else match child with
    | '[' :: _ => parent ++ child
    | _ => parent ++ '.' :: child

/-- Whether a text starts and ends with a quote, at two different places. -/
def isQuoted (t : Text) : Bool :=
  2 ≤ t.length && t.head? == some '"' && t.getLast? == some '"'

/-- Removes the quotes around a quoted segment. -/
def unquoted (segment : Text) : Text :=
  if isQuoted segment then segment.tail.dropLast else segment

theorem isQuoted_of_not_mem {t : Text} (h : '"' ∉ t) : isQuoted t = false := by
  cases t with
  | nil => rfl
  | cons c r =>
      have hc : c ≠ '"' := fun e => h (e ▸ List.mem_cons_self)
      simp [isQuoted, hc]

theorem isQuoted_quote (t : Text) : isQuoted ('"' :: t ++ ['"']) = true := by
  rw [isQuoted, List.getLast?_concat]
  simp

/-- Quotes that are put around a text are removed, whatever it holds. -/
theorem unquoted_quote (t : Text) : unquoted ('"' :: t ++ ['"']) = t := by
  rw [unquoted, isQuoted_quote, if_pos rfl, List.cons_append, List.tail_cons, List.dropLast_concat]

/-- Only a text that is not quoted stays as it is. -/
theorem unquoted_eq_self_iff {t : Text} : unquoted t = t ↔ isQuoted t = false := by
  rw [unquoted]
  split
  · next h =>
      have hlength : 2 ≤ t.length := by
        simp only [isQuoted, Bool.and_eq_true, decide_eq_true_eq] at h
        exact h.1.1
      refine iff_of_false (fun heq => ?_) (by simp [h])
      have hshorter := congrArg List.length heq
      rw [List.length_dropLast, List.length_tail] at hshorter
      omega
  · next h => exact iff_of_true rfl (Bool.eq_false_iff.mpr h)

/-- Puts quotes around a key that holds a dot and is not quoted already. -/
def quotedIfNeeded (key : Text) : Text :=
  if key.contains '.' && !isQuoted key then '"' :: key ++ ['"'] else key

theorem quotedIfNeeded_of_not_mem_dot {key : Text} (h : '.' ∉ key) : quotedIfNeeded key = key := by
  simp [quotedIfNeeded, h]

theorem quotedIfNeeded_of_mem_dot {key : Text} (h : '.' ∈ key) (hquote : '"' ∉ key) :
    quotedIfNeeded key = '"' :: key ++ ['"'] := by
  simp [quotedIfNeeded, h, isQuoted_of_not_mem hquote]

/-- Drops a leading `%profile.` qualifier. -/
def unprofiled (name : Text) : Text :=
  match name with
  | '%' :: r => match cut '.' r with
    | some (_, rest) => rest
    | none => name
  | _ => name

/-! ## Index groups -/

/-- What stands behind the base of a segment: index groups to the end, something else, or a group followed
by a text at which the reader cannot take the next step. -/
inductive GroupRead where
  | groups (gs : List Text)
  | other
  | broken
  deriving DecidableEq, Repr

/-- Puts a group in front of the ones that were read. -/
def GroupRead.cons (g : Text) : GroupRead → GroupRead
  | .groups gs => .groups (g :: gs)
  | .other => .other
  | .broken => .broken

/-- Whether the text between two brackets makes an index group: `*` or digits. -/
def isIndex (inner : Text) : Bool := inner == ['*'] || isNumeric inner

/-- Reads index groups to the end of the text. After a closed group the reader steps over one ASCII
character before it looks for the closing bracket; a bracket that closes at once or a wider character
there breaks it. -/
def readGroups (t : Text) : GroupRead :=
  if t.isEmpty then .groups []
  else match h : cut ']' t with
    | none => .other
    | some ([], _) => .broken
    | some (b :: inner, rest) =>
        if 0x80 ≤ b.toNat then .broken
        else if b = '[' ∧ isIndex inner then
          have : rest.length < t.length := by
            have := length_of_cut h
            omega
          (readGroups rest).cons ('[' :: inner ++ [']'])
        else .other
termination_by t.length

/-- Separates a segment into its base and its index groups. A quoted segment and one that does not end in
an index group stay whole; the result is absent when the groups are broken. -/
def splitGroups (segment : Text) : Option (List Text) :=
  if segment.getLast? != some ']' || segment.head? == some '"' then some [segment]
  else match cut '[' segment with
    | none => some [segment]
    | some (base, r) => match readGroups ('[' :: r) with
      | .groups gs => some (if base.isEmpty then gs else base :: gs)
      | .other => some [segment]
      | .broken => none

/-- The steps of a path: its segments with their index groups as steps of their own; absent when the groups
of some segment are broken. -/
def keySteps (path : Text) : Option (List Text) := (segments path).mapM splitGroups |>.map List.flatten

end LayeredConfig.Name
