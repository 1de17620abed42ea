import LayeredConfig.Log
import LayeredConfig.Proofs.Registry.Attempt
import LayeredConfig.Proofs.Template.Questions
import Mathlib.Data.List.Basic

/-!
# `LayeredConfig.Proofs.Chain.Attempt` — where a look-up in a chain breaks off

A stage makes the look-ups that it asks for, one after the other. It breaks off where one of them does, and else it answers
as it would from a look-up that never breaks off, for it reads nothing beside what it asks for. So an attempt that is
carried through has the answer of the chain, through any number of stages.

## Contents
- **Stages.** `Stage.ReadsOnlyAsked` holds of the stages of the library (`Stage.readsOnlyAsked`).
- **Attempts of a stage.** `Stage.tryGet_eq_ok_iff`, `Stage.stops_tryGet_iff`.
- **Chains.** An answer (`Chain.lookupIn_of_tryLookupIn`), a listing (`Chain.valuesIn_of_tryValuesIn`) and the active
  profiles (`Chain.activeProfiles_of_try`) that are found are those of the chain. Whatever is reported to its end is
  answered (`Chain.exists_tryLookupIn_of_tryReportIn`).
-/

namespace LayeredConfig

/-! ## Stages -/

namespace Stage

variable {access : Access} {inner inner' : Text → Option Record} {active : List Text} {n : Text} {s : Stage}

/-- What a stage answers depends on nothing beside the names that it asks inward for. -/
def ReadsOnlyAsked (s : Stage) : Prop :=
  ∀ (access : Access) (inner inner' : Text → Option Record) (n : Text),
    (∀ m ∈ s.asked inner n, inner' m = inner m) → s.get access inner' n = s.get access inner n

/-- The profiles behind the first hit are not looked at. -/
theorem profiled_congr (h : ∀ q ∈ profileQuestions inner n active, inner' q = inner q) :
    profiled inner' active n = profiled inner active n := by
  unfold profiled
  induction active with
  | nil => rfl
  | cons p ps ih =>
      rw [profileQuestions] at h
      rw [List.findSome?_cons, List.findSome?_cons]
      cases hfound : inner (Profile.qualified p n) with
      | some hit =>
          rw [hfound, Option.isSome_some, if_pos rfl] at h
          rw [h _ List.mem_cons_self, hfound]
          rfl
      | none =>
          rw [hfound, Option.isSome_none, if_neg Bool.false_ne_true, List.forall_mem_cons] at h
          rw [h.1, hfound]
          exact ih h.2

theorem overlaid_congr (h : ∀ m ∈ (profile active).asked inner n, inner' m = inner m) :
    overlaid inner' active n = overlaid inner active n := by
  rw [asked] at h
  unfold overlaid
  by_cases hoverlays : overlays active n = true
  · rw [if_pos hoverlays, List.forall_mem_append] at h
    rw [if_pos hoverlays, if_pos hoverlays, profiled_congr h.1, h.2 n List.mem_cons_self]
  · rw [if_neg hoverlays] at h
    rw [if_neg hoverlays, if_neg hoverlays, h n List.mem_cons_self]

/-- The plain name is not asked for behind a record under the new one. -/
theorem relocate_congr {target : Text → Option Text} (h : ∀ m ∈ (relocate target).asked inner n, inner' m = inner m) :
    ((renamed target n).bind inner').or (inner' n) = ((renamed target n).bind inner).or (inner n) := by
  rw [asked] at h
  cases hrenamed : renamed target n with
  | none =>
      rw [hrenamed] at h
      exact h n List.mem_cons_self
  | some m =>
      rw [hrenamed] at h
      rw [Option.bind_some, Option.bind_some]
      cases hm : inner m with
      | some r =>
          have hfound : inner' m = inner m := h m (by simp [hm])
          rw [hfound, hm]
          rfl
      | none =>
          have hfound : inner' m = inner m := h m (by simp [hm])
          have hplain : inner' n = inner n := h n (by simp [hm])
          rw [hfound, hm, hplain]

/-- The other name is not asked for behind a record under the plain one. -/
theorem fallback_congr {target : Text → Option Text} (h : ∀ m ∈ (fallback target).asked inner n, inner' m = inner m) :
    (inner' n).or ((renamed target n).bind inner') = (inner n).or ((renamed target n).bind inner) := by
  rw [asked] at h
  have hplain : inner' n = inner n := by
    apply h
    split
    · exact List.mem_cons_self
    · exact List.mem_cons_self
  rw [hplain]
  cases hn : inner n with
  | some r => rfl
  | none =>
      cases hrenamed : renamed target n with
      | none => rfl
      | some m =>
          rw [hn, hrenamed] at h
          exact h m (List.mem_cons_of_mem n List.mem_cons_self)

theorem expression_congr (h : ∀ m ∈ expression.asked inner n, inner' m = inner m) :
    (inner' n).map (Record.expanded inner') = (inner n).map (Record.expanded inner) := by
  rw [asked, List.forall_mem_cons] at h
  rw [h.1]
  cases hn : inner n with
  | none => rw [Option.map_none, Option.map_none]
  | some r =>
      rw [hn, Option.map_some, Option.getD_some] at h
      rw [Option.map_some, Option.map_some, Record.expanded_congr h.2]

theorem readsOnlyAsked (hs : s.isBuiltin = true) : s.ReadsOnlyAsked := by
  intro access inner inner' n h
  cases s with
  | relocate target => exact relocate_congr h
  | expression => exact expression_congr h
  | profile active => exact overlaid_congr h
  | fallback target => exact fallback_congr h
  | logging => exact h n List.mem_cons_self
  | secret secrets => rw [get, get, h n List.mem_cons_self]
  | custom c => cases hs

/-! ## Attempts of a stage -/

variable {find : Text → Attempt (Option Record)}

theorem tryGet_eq_ok_iff {a : Option Record} : s.tryGet access find n = .ok a ↔
    (∀ m ∈ s.asked (Attempt.found find) n, ∃ b, find m = .ok b) ∧ s.get access (Attempt.found find) n = a := by
  rw [tryGet, Attempt.bind_eq_ok_iff]
  constructor
  · rintro ⟨u, heach, hget⟩
    exact ⟨Attempt.each_eq_ok_iff.mp heach, Except.ok.inj hget⟩
  · rintro ⟨heach, rfl⟩
    exact ⟨(), Attempt.each_eq_ok_iff.mpr heach, rfl⟩

/-- A stage breaks off where one of the look-ups does that it asks for. -/
theorem stops_tryGet_iff : (s.tryGet access find n).Stops ↔ ∃ m ∈ s.asked (Attempt.found find) n, (find m).Stops := by
  rw [tryGet, Attempt.stops_bind_iff, Attempt.stops_each_iff]
  refine or_iff_left ?_
  rintro ⟨-, -, h⟩
  exact Attempt.not_stops_ok _ h

/-- A look-up that gives what is found agrees with it wherever something is. -/
theorem eq_found (hinner : ∀ m a, find m = .ok a → inner m = a) {m : Text} (hm : ∃ b, find m = .ok b) :
    inner m = Attempt.found find m := by
  obtain ⟨b, hb⟩ := hm
  rw [hinner m b hb, Attempt.found_of_eq_ok hb]

/-- A stage that reads only what it asks for answers the same from any look-up that agrees with what is found. -/
theorem get_of_tryGet (hs : s.ReadsOnlyAsked) (hinner : ∀ m a, find m = .ok a → inner m = a) {a : Option Record}
    (h : s.tryGet access find n = .ok a) : s.get access inner n = a := by
  obtain ⟨hasked, hget⟩ := tryGet_eq_ok_iff.mp h
  rw [← hget]
  apply hs
  intro m hm
  exact eq_found hinner (hasked m hm)

/-- So does what it lists. -/
theorem values_of_tryValues (hs : s.ReadsOnlyAsked) (hinner : ∀ m a, find m = .ok a → inner m = a) {names : NameSet}
    {tryListed : Attempt (List Record)} {listed : List Record} (hlisted : ∀ rs, tryListed = .ok rs → listed = rs)
    {rs : List Record} (h : s.tryValues access find names tryListed = .ok rs) :
    s.values access inner names listed = rs := by
  cases s with
  | expression =>
      obtain ⟨rs', hrs', hrest⟩ := Attempt.bind_eq_ok_iff.mp h
      obtain ⟨u, heach, hvalues⟩ := Attempt.bind_eq_ok_iff.mp hrest
      have hasked := Attempt.each_eq_ok_iff.mp heach
      rw [hlisted rs' hrs', ← Except.ok.inj hvalues]
      apply List.map_congr_left
      intro r hr
      apply Record.expanded_congr
      intro m hm
      exact eq_found hinner (hasked m (List.mem_flatMap.mpr ⟨r, hr, hm⟩))
  | profile active =>
      obtain ⟨u, heach, hvalues⟩ := Attempt.bind_eq_ok_iff.mp h
      have hasked := Attempt.each_eq_ok_iff.mp heach
      rw [← Except.ok.inj hvalues]
      apply List.filterMap_congr
      intro m hm
      obtain ⟨a, ha⟩ := hasked m hm
      rw [get_of_tryGet hs hinner ha]
      exact (tryGet_eq_ok_iff.mp ha).2.symm
  -- the others change a listed record by itself, or not at all
  | relocate _ | fallback _ | logging | secret _ | custom _ =>
      obtain ⟨rs', hrs', hvalues⟩ := Attempt.bind_eq_ok_iff.mp h
      rw [hlisted rs' hrs', ← Except.ok.inj hvalues]
      rfl

end Stage

/-! ## Chains -/

namespace Chain

variable {registry : Registry} {access : Access} {stages : List Stage} {n : Text}

/-- An answer that is found is the answer of the stages. -/
theorem lookupIn_of_tryLookupIn (hstages : ∀ s ∈ stages, s.ReadsOnlyAsked) {a : Option Record}
    (h : tryLookupIn registry access stages n = .ok a) : lookupIn registry access stages n = a := by
  induction stages generalizing n a with
  | nil => exact Registry.resolve_of_tryResolve h
  | cons s inner ih =>
      obtain ⟨hs, hinner⟩ := List.forall_mem_cons.mp hstages
      exact Stage.get_of_tryGet hs (fun _ _ => ih hinner) h

/-- A listing that is made is that of the stages. -/
theorem valuesIn_of_tryValuesIn (hstages : ∀ s ∈ stages, s.ReadsOnlyAsked) {rs : List Record}
    (h : tryValuesIn registry access stages = .ok rs) : valuesIn registry access stages = rs := by
  induction stages generalizing rs with
  | nil =>
      obtain ⟨u, -, hvalues⟩ := Attempt.bind_eq_ok_iff.mp h
      exact Except.ok.inj hvalues
  | cons s inner ih =>
      obtain ⟨hs, hinner⟩ := List.forall_mem_cons.mp hstages
      exact Stage.values_of_tryValues hs (fun _ _ => lookupIn_of_tryLookupIn hinner) (fun _ => ih hinner) h

/-- A look-up that is reported to its end has an answer: the reports wait for all look-ups that it makes. -/
theorem exists_tryLookupIn_of_tryReportIn {u : Unit} (h : tryReportIn registry stages access n = .ok u) :
    ∃ a, tryLookupIn registry access stages n = .ok a := by
  induction stages generalizing n u with
  | nil =>
      obtain ⟨a, ha, -⟩ := Attempt.map_eq_ok_iff.mp h
      exact ⟨a, ha⟩
  | cons s inner ih =>
      obtain ⟨v, heach, -⟩ := Attempt.bind_eq_ok_iff.mp h
      refine ⟨_, Stage.tryGet_eq_ok_iff.mpr ⟨?_, rfl⟩⟩
      intro m hm
      obtain ⟨w, hw⟩ := Attempt.each_eq_ok_iff.mp heach m hm
      exact ih hw

section

variable {c : Chain} (hstages : ∀ s ∈ c.stages, s.ReadsOnlyAsked)

include hstages

/-- A parent that is found is that of the chain. -/
theorem withParentProfile_of_try {ps : List Text} {property : Text} {all : List Text}
    (h : c.tryWithParentProfile registry access ps property = .ok all) :
    c.withParentProfile registry access ps property = all := by
  obtain ⟨parent, hparent, hall⟩ := Attempt.bind_eq_ok_iff.mp h
  have hget : (Stage.profile ps).get access (c.lookup registry access) property = parent :=
    Stage.get_of_tryGet (Stage.readsOnlyAsked rfl) (fun _ _ => lookupIn_of_tryLookupIn hstages) hparent
  rw [Stage.get] at hget
  rw [withParentProfile, hget]
  exact Except.ok.inj hall

/-- Profiles that are found are those of the chain. -/
theorem activeProfiles_of_try {property parent : Text} {ps : List Text}
    (h : c.tryActiveProfiles registry access property parent = .ok ps) :
    c.activeProfiles registry access property parent = ps := by
  obtain ⟨listed, hlisted, hparent⟩ := Attempt.bind_eq_ok_iff.mp h
  have hlookup : c.lookup registry access property = listed := lookupIn_of_tryLookupIn hstages hlisted
  rw [activeProfiles, listedProfiles, hlookup]
  exact withParentProfile_of_try hstages hparent

end

end Chain

end LayeredConfig
