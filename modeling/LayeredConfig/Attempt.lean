import LayeredConfig.Name.Segment

/-!
# `LayeredConfig.Attempt` — work that may break off

Not every text can be cut into steps: where the index groups of a segment are broken, the program comes to an end at
the cut. So does everything that waits for it. Work that may end so is an attempt, which says at which path it broke off.

## Contents
- **`BrokenPath`, `Attempt`.** The path, and the work; `Attempt.steps` is the cut.
- **Answers.** `found` takes every question to what was found for it, and to nothing where the work broke off.
- **Sequences.** `each` makes one attempt after another; it breaks off exactly when one of them does (`stops_each_iff`).
-/

namespace LayeredConfig

/-- The program broke off at a path whose index groups are broken. -/
structure BrokenPath where
  path : Text
  deriving DecidableEq, Repr

/-- Work that breaks off at the first path that cannot be cut into steps. -/
abbrev Attempt (α : Type) := Except BrokenPath α

namespace Attempt

variable {α β : Type}

/-- The steps of a path. -/
def steps (path : Text) : Attempt (List Text) :=
  match Name.keySteps path with
  | some steps => .ok steps
  | none => .error ⟨path⟩

/-- The work breaks off. -/
def Stops (a : Attempt α) : Prop := ∃ b, a = .error b

/-- What is found for each question; nothing where the work breaks off. -/
def found (f : β → Attempt (Option α)) (b : β) : Option α :=
  match f b with
  | .ok a => a
  | .error _ => none

/-- Makes one attempt after another. -/
def each (f : β → Attempt α) : List β → Attempt Unit
  | [] => .ok ()
  | b :: rest => do
      let _ ← f b
      each f rest

theorem steps_eq_ok_iff {path : Text} {s : List Text} : steps path = .ok s ↔ Name.keySteps path = some s := by
  unfold steps
  cases Name.keySteps path with
  | none => simp
  | some steps => simp

theorem stops_steps_iff {path : Text} : (steps path).Stops ↔ Name.keySteps path = none := by
  unfold steps
  cases Name.keySteps path with
  | none => simp [Stops]
  | some steps => simp [Stops]

theorem not_stops_iff {a : Attempt α} : ¬ a.Stops ↔ ∃ r, a = .ok r := by
  cases a with
  | ok r => simp [Stops]
  | error b => simp [Stops]

/-- Two pieces of work behind each other are done when both are. -/
theorem bind_eq_ok_iff {a : Attempt α} {f : α → Attempt β} {r : β} : a >>= f = .ok r ↔ ∃ x, a = .ok x ∧ f x = .ok r := by
  cases a with
  | ok x => simp [bind, Except.bind]
  | error b => simp [bind, Except.bind]

theorem map_eq_ok_iff {a : Attempt α} {f : α → β} {r : β} : a.map f = .ok r ↔ ∃ x, a = .ok x ∧ f x = r := by
  cases a with
  | ok x => simp [Except.map]
  | error b => simp [Except.map]

/-- They break off when the first does, or the second behind what the first has found. -/
theorem stops_bind_iff {a : Attempt α} {f : α → Attempt β} :
    (a >>= f).Stops ↔ a.Stops ∨ ∃ x, a = .ok x ∧ (f x).Stops := by
  cases a with
  | ok x => simp [Stops, bind, Except.bind]
  | error b => simp [Stops, bind, Except.bind]

theorem stops_map_iff {a : Attempt α} {f : α → β} : Stops (a.map f) ↔ a.Stops := by
  cases a with
  | ok x => simp [Stops, Except.map]
  | error b => simp [Stops, Except.map]

/-- A list is gone through when nothing in it breaks off. -/
theorem foldlM_eq_ok_iff {f : α → β → Attempt α} {g : α → β → α} {P : β → Prop}
    (h : ∀ a b a', f a b = .ok a' ↔ P b ∧ g a b = a') {l : List β} {a a' : α} :
    l.foldlM f a = .ok a' ↔ (∀ b ∈ l, P b) ∧ l.foldl g a = a' := by
  induction l generalizing a with
  | nil => simp [pure, Except.pure]
  | cons b l ih =>
      rw [List.foldlM_cons, bind_eq_ok_iff, List.forall_mem_cons, List.foldl_cons]
      constructor
      · rintro ⟨x, hx, hrest⟩
        obtain ⟨hb, rfl⟩ := (h a b x).mp hx
        obtain ⟨hl, heq⟩ := ih.mp hrest
        exact ⟨⟨hb, hl⟩, heq⟩
      · rintro ⟨⟨hb, hl⟩, heq⟩
        exact ⟨g a b, (h a b _).mpr ⟨hb, rfl⟩, ih.mpr ⟨hl, heq⟩⟩

theorem each_eq_ok_iff {f : β → Attempt α} {l : List β} : each f l = .ok () ↔ ∀ b ∈ l, ∃ a, f b = .ok a := by
  induction l with
  | nil => simp [each]
  | cons b l ih =>
      rw [each, bind_eq_ok_iff, List.forall_mem_cons, ih]
      exact exists_and_right

theorem found_of_eq_ok {f : β → Attempt (Option α)} {b : β} {a : Option α} (h : f b = .ok a) : found f b = a := by
  unfold found
  rw [h]

@[simp] theorem not_stops_ok (r : α) : ¬ Stops (.ok r : Attempt α) := by
  rintro ⟨b, h⟩
  cases h

@[simp] theorem stops_error (b : BrokenPath) : Stops (.error b : Attempt α) := ⟨b, rfl⟩

/-- The first piece of work that breaks off ends the sequence, so that one that breaks off is enough. -/
theorem stops_each_iff {f : β → Attempt α} {l : List β} : (each f l).Stops ↔ ∃ b ∈ l, (f b).Stops := by
  induction l with
  | nil => simp [each]
  | cons b l ih =>
      simp only [List.mem_cons, exists_eq_or_imp, ← ih, each]
      cases f b with
      | ok a => simp [bind, Except.bind]
      | error e => simp [bind, Except.bind]

end Attempt

end LayeredConfig
