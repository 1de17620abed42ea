import LayeredConfig.Text.Basic

/-!
# `LayeredConfig.Template` — the pieces of a value with references

A value may refer to other properties: `${name}`, or `${name:default}` with a text to use when the name is
not defined. References nest in names and in defaults. `\$` is a plain dollar.

## Contents
- **References.** `closeBrace` finds the brace that closes a reference, `splitDefault` cuts the body at its
  first colon outside nested braces.
- **`pieces`.** A value as a sequence of plain text and references.
-/

namespace LayeredConfig.Template

/-! ## References -/

/-- The text up to the brace that closes a reference, and the text behind it, when `depth` braces are open
inside the reference. A backslash takes the next character out of the count. -/
def closeBrace (depth : Nat) : Text → Option (Text × Text)
  | [] => none
  | '\\' :: c :: r => (closeBrace depth r).map fun p => ('\\' :: c :: p.1, p.2)
  | c :: r =>
      if c = '\x7b' then (closeBrace (depth + 1) r).map fun p => (c :: p.1, p.2)
      else if c = '\x7d' then
        match depth with
        | 0 => some ([], r)
        | d + 1 => (closeBrace d r).map fun p => (c :: p.1, p.2)
      else (closeBrace depth r).map fun p => (c :: p.1, p.2)

private theorem snd_map_pair {f : Text × Text → Text} {o : Option (Text × Text)} {a b : Text}
    (h : (o.map fun p => (f p, p.2)) = some (a, b)) : ∃ a', o = some (a', b) := by
  simp only [Option.map_eq_some_iff, Prod.mk.injEq] at h
  obtain ⟨p, hp, _, rfl⟩ := h
  exact ⟨p.1, hp⟩

/-- What stands behind a reference is shorter than the text. -/
theorem length_closeBrace {depth : Nat} {t a b : Text} (h : closeBrace depth t = some (a, b)) :
    b.length < t.length := by
  fun_induction closeBrace depth t generalizing a with
  | case1 => simp at h
  | case2 depth c r ih =>
      obtain ⟨a', h'⟩ := snd_map_pair h
      have := ih h'
      simp only [List.length_cons]
      omega
  | case3 depth r _ ih =>
      obtain ⟨a', h'⟩ := snd_map_pair h
      have := ih h'
      simp only [List.length_cons]
      omega
  | case4 r _ _ =>
      simp only [Option.some.injEq, Prod.mk.injEq] at h
      simp [← h.2]
  | case5 r _ _ d ih =>
      obtain ⟨a', h'⟩ := snd_map_pair h
      have := ih h'
      simp only [List.length_cons]
      omega
  | case6 depth c r _ _ _ ih =>
      obtain ⟨a', h'⟩ := snd_map_pair h
      have := ih h'
      simp only [List.length_cons]
      omega

/-- The name and the default of a reference whose body is read inside `depth` open braces. -/
def splitDefaultAt : Nat → Text → Text × Option Text
  | _, [] => ([], none)
  | depth, c :: r =>
      if c = ':' ∧ depth = 0 then ([], some r)
      else
        let depth' := if c = '\x7b' then depth + 1 else if c = '\x7d' then depth - 1 else depth
        let p := splitDefaultAt depth' r
        (c :: p.1, p.2)

/-- The name and the default of a reference: what stands before and behind the first colon outside nested
references. -/
def splitDefault (body : Text) : Text × Option Text := splitDefaultAt 0 body

/-! ## Pieces -/

/-- A piece of a value. -/
inductive Piece where
  | plain (text : Text)
  | reference (body : Text)
  deriving DecidableEq, Repr

/-- The pieces of a value. A reference that is never closed is plain text to the end. -/
def pieces (t : Text) : List Piece :=
  match t with
  | [] => []
  | '\\' :: '$' :: r => .plain ['$'] :: pieces r
  | '$' :: '\x7b' :: r =>
      match h : closeBrace 0 r with
      | some (body, rest) =>
          have : rest.length < r.length + 1 + 1 := by
            have := length_closeBrace h
            omega
          .reference body :: pieces rest
      | none => [.plain t]
  | c :: r => .plain [c] :: pieces r
termination_by t.length

end LayeredConfig.Template
