import LayeredConfig.Proofs.Registry

/-!
# `LayeredConfig.Proofs.Registry.Attempt` — where a look-up in the sources breaks off

Trees, sources and registries are each read in two ways: as a function that finds nothing at a path without steps, and as
an attempt that breaks off there. An attempt that is carried through answers what the function does. It breaks off
exactly where the defaults have to cut a broken path.

## Contents
- **Searches.** `ComesTo` says where a search through a list ends, and `comesTo_cons` goes along the list.
- **Trees.** `Trie.tryGet_eq_ok_iff`, `Trie.stops_tryGet_iff`; a tree of pairs is made when all its paths have steps
  (`Trie.tryOfPairs_eq_ok_iff`), and so are the defaults (`Source.tryDefaults_eq_ok_iff`).
- **Sources.** `Source.BreaksAt`.
- **Registries.** `Registry.StopsAt` says in terms of the sources when a look-up breaks off
  (`Registry.stops_tryResolve_iff`); else it has its answer (`Registry.resolve_of_tryResolve`).
-/

namespace LayeredConfig

open Name

/-! ## Searches -/

/-- A search through a list comes to an element of the second kind: all elements in front of it are of the first. -/
def ComesTo {α : Type} (passed reached : α → Prop) (l : List α) : Prop :=
  ∃ before x after, l = before ++ x :: after ∧ (∀ b ∈ before, passed b) ∧ reached x

section

variable {α : Type} {passed reached : α → Prop} {x : α} {l : List α}

theorem not_comesTo_nil : ¬ ComesTo passed reached [] := by
  rintro ⟨before, x, after, h, -⟩
  exact List.append_ne_nil_of_right_ne_nil before (List.cons_ne_nil x after) h.symm

theorem comesTo_cons : ComesTo passed reached (x :: l) ↔ reached x ∨ passed x ∧ ComesTo passed reached l := by
  constructor
  · rintro ⟨before, y, after, hsplit, hbefore, hy⟩
    cases before with
    | nil =>
        obtain ⟨rfl, rfl⟩ := List.cons.inj hsplit
        exact Or.inl hy
    | cons b before =>
        obtain ⟨rfl, rfl⟩ := List.cons.inj hsplit
        obtain ⟨hx, hbefore⟩ := List.forall_mem_cons.mp hbefore
        exact Or.inr ⟨hx, before, y, after, rfl, hbefore, hy⟩
  · rintro (hx | ⟨hx, before, y, after, rfl, hbefore, hy⟩)
    · exact ⟨[], x, l, rfl, by simp, hx⟩
    · exact ⟨x :: before, y, after, rfl, List.forall_mem_cons.mpr ⟨hx, hbefore⟩, hy⟩

end

/-! ## Trees -/

namespace Trie

variable {α : Type} {t t' : Trie α} {path : Text}

theorem tryFind_eq_ok_iff {n : Option (Trie α)} :
    t.tryFind path = .ok n ↔ (keySteps path).isSome = true ∧ t.find? path = n := by
  rw [tryFind, Attempt.map_eq_ok_iff, find?]
  simp only [Attempt.steps_eq_ok_iff]
  cases keySteps path with
  | none => simp
  | some steps => simp

theorem tryGet_eq_ok_iff {v : Option α} : t.tryGet path = .ok v ↔ (keySteps path).isSome = true ∧ t.get? path = v := by
  rw [tryGet, Attempt.map_eq_ok_iff, get?]
  simp only [tryFind_eq_ok_iff]
  constructor
  · rintro ⟨n, ⟨hsteps, rfl⟩, hv⟩
    exact ⟨hsteps, hv⟩
  · rintro ⟨hsteps, hv⟩
    exact ⟨_, ⟨hsteps, rfl⟩, hv⟩

/-- A tree is asked in vain exactly for a path that cannot be cut into steps, whatever it holds. -/
theorem stops_tryGet_iff : (t.tryGet path).Stops ↔ keySteps path = none := by
  rw [tryGet, Attempt.stops_map_iff, tryFind, Attempt.stops_map_iff, Attempt.stops_steps_iff]

theorem tryAlter_eq_ok_iff {f : Trie α → Trie α} :
    t.tryAlter path f = .ok t' ↔ (keySteps path).isSome = true ∧ t.alter path f = t' := by
  rw [tryAlter, Attempt.map_eq_ok_iff, alter]
  simp only [Attempt.steps_eq_ok_iff]
  cases keySteps path with
  | none => simp
  | some steps => simp

theorem tryOfPairs_eq_ok_iff {ps : List (Text × α)} :
    tryOfPairs ps = .ok t ↔ (∀ p ∈ ps, (keySteps p.1).isSome = true) ∧ ofPairs ps = t := by
  unfold tryOfPairs ofPairs
  apply Attempt.foldlM_eq_ok_iff
  intro t p t'
  exact tryAlter_eq_ok_iff

end Trie

/-! ## Sources -/

namespace Source

variable {s : Source} {n : Text}

theorem tryDefaults_eq_ok_iff {ps : List (Text × Text)} {d : Trie Text} :
    tryDefaults ps = .ok d ↔ (∀ p ∈ ps, (keySteps p.1).isSome = true) ∧ defaultsOfPairs ps = d := by
  unfold tryDefaults defaultsOfPairs
  apply Attempt.foldlM_eq_ok_iff
  intro t p t'
  exact Trie.tryAlter_eq_ok_iff

/-- The source has to cut the name into steps, and the name has none. -/
def BreaksAt (s : Source) (n : Text) : Prop := (∃ d, s = defaults d) ∧ keySteps n = none

theorem stops_tryGet_iff : (s.tryGet n).Stops ↔ s.BreaksAt n := by
  cases s with
  | defaults d => simpa [tryGet, BreaksAt] using Trie.stops_tryGet_iff
  | table t => simp [tryGet, BreaksAt]
  | environment e => simp [tryGet, BreaksAt]
  | custom c => simp [tryGet, BreaksAt]

theorem get?_of_tryGet {v : Option Text} (h : s.tryGet n = .ok v) : s.get? n = v := by
  cases s with
  | defaults d => exact (Trie.tryGet_eq_ok_iff.mp h).2
  | table t => exact Except.ok.inj h
  | environment e => exact Except.ok.inj h
  | custom c => exact Except.ok.inj h

end Source

/-! ## Registries -/

namespace RankedSource

variable {s : RankedSource} {i : Nat} {n : Text}

theorem record?_of_tryRecord {a : Option Record} (h : s.tryRecord i n = .ok a) : s.record? i n = a := by
  obtain ⟨v, hv, rfl⟩ := Attempt.map_eq_ok_iff.mp h
  rw [record?, Source.get?_of_tryGet hv]

theorem stops_tryRecord_iff : (s.tryRecord i n).Stops ↔ s.source.BreaksAt n := by
  rw [tryRecord, Attempt.stops_map_iff, Source.stops_tryGet_iff]

theorem tryRecord_of_not_breaksAt (h : ¬ s.source.BreaksAt n) : s.tryRecord i n = .ok (s.record? i n) := by
  obtain ⟨a, ha⟩ := Attempt.not_stops_iff.mp (mt stops_tryRecord_iff.mp h)
  rw [ha, record?_of_tryRecord ha]

end RankedSource

namespace Registry

variable {r : Registry} {n : Text}

/-- A look-up comes to a source that breaks off: none in front of it defines the name. -/
def StopsAt (r : Registry) (n : Text) : Prop :=
  ComesTo (fun s => s.source.get? n = none) (fun s => s.source.BreaksAt n) r.ranked

theorem resolveFrom_of_tryResolveFrom {l : List RankedSource} {i : Nat} {a : Option Record}
    (h : tryResolveFrom n i l = .ok a) : resolveFrom n i l = a := by
  induction l generalizing i with
  | nil => exact Except.ok.inj h
  | cons s l ih =>
      obtain ⟨b, hb, hrest⟩ := Attempt.bind_eq_ok_iff.mp h
      rw [resolveFrom, RankedSource.record?_of_tryRecord hb]
      cases b with
      | none => exact ih hrest
      | some record => exact Except.ok.inj hrest

/-- A look-up that is carried through has the answer of the registry. -/
theorem resolve_of_tryResolve {a : Option Record} (h : r.tryResolve n = .ok a) : r.resolve n = a :=
  resolveFrom_of_tryResolveFrom h

theorem stops_tryResolveFrom_iff {l : List RankedSource} {i : Nat} : (tryResolveFrom n i l).Stops ↔
    ComesTo (fun s => s.source.get? n = none) (fun s => s.source.BreaksAt n) l := by
  induction l generalizing i with
  | nil => exact iff_of_false (Attempt.not_stops_ok _) not_comesTo_nil
  | cons s l ih =>
      rw [tryResolveFrom, Attempt.stops_bind_iff, RankedSource.stops_tryRecord_iff, comesTo_cons]
      by_cases hbreaks : s.source.BreaksAt n
      · exact iff_of_true (Or.inl hbreaks) (Or.inl hbreaks)
      · rw [or_iff_right hbreaks, or_iff_right hbreaks, RankedSource.tryRecord_of_not_breaksAt hbreaks,
          RankedSource.record?]
        -- the sources behind are asked when this one has no value
        cases s.source.get? n with
        | none => simp [ih]
        | some v => simp [pure, Except.pure]

/-- It breaks off exactly where the sources say so. -/
theorem stops_tryResolve_iff : (r.tryResolve n).Stops ↔ r.StopsAt n := stops_tryResolveFrom_iff

/-- Without defaults no look-up breaks off. -/
theorem not_stopsAt (h : ∀ s ∈ r.ranked, ∀ d, s.source ≠ .defaults d) : ¬ r.StopsAt n := by
  rintro ⟨before, s, after, hranked, -, ⟨d, hd⟩, -⟩
  have hs : s ∈ r.ranked := hranked ▸ List.mem_append_right before List.mem_cons_self
  exact h s hs d hd

/-- What is found for a name is what the registry holds. -/
theorem resolve_of_found {a : Record} (h : Attempt.found r.tryResolve n = some a) : r.resolve n = some a := by
  unfold Attempt.found at h
  cases hattempt : r.tryResolve n with
  | ok b =>
      rw [hattempt] at h
      rw [resolve_of_tryResolve hattempt]
      exact h
  | error b =>
      rw [hattempt] at h
      cases h

/-- Where the look-up does not break off, nothing else is there to be found. -/
theorem found_eq_resolve (h : ¬ r.StopsAt n) : Attempt.found r.tryResolve n = r.resolve n := by
  obtain ⟨a, ha⟩ := Attempt.not_stops_iff.mp (mt stops_tryResolve_iff.mp h)
  rw [Attempt.found_of_eq_ok ha, resolve_of_tryResolve ha]

end Registry

end LayeredConfig
