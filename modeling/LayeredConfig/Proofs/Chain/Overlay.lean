import LayeredConfig.Proofs.Chain.Attempt
import LayeredConfig.Proofs.Chain.Listing
import LayeredConfig.Proofs.Registry.Ranking

/-!
# `LayeredConfig.Proofs.Chain.Overlay` — active profiles as a view of the sources

A profile stage shows qualified names without the qualifier of an active profile, so that names of several sources fall
together there. Still every name that it shows has one record: the plain one, or the one of the first active profile that
has a record for the name, whichever comes from the source that ranks above.

## Contents
- **Hits.** `Stage.FirstHit` is the first active profile that has a record for a name, with this record.
- **Answers.** What a profile stage answers for a plain name (`Stage.overlaid_eq_some_iff`) and for every name
  (`Stage.overlaid_cases`).
- **Names.** A name that has a record is shown under one that has a record (`Stage.isSome_overlaid_plainName`).
- **Ranks.** `Registry.PlainStands` says in terms of the sources when the plain record is kept.
- **Questions.** `Registry.StopsUnder` says in terms of the sources when the look-up of a name breaks off under the active
  profiles (`Chain.stops_profile_iff`).
- **View.** `Chain.profile_view`.
-/

namespace LayeredConfig

/-! ## Hits -/

namespace Stage

variable {inner : Text → Option Record} {active : List Text} {n : Text} {r : Record}

/-- Of the active profiles the first that has a record for a name, and this record. -/
structure FirstHit (inner : Text → Option Record) (active : List Text) (n p : Text) (hit : Record) : Prop where
  found : inner (Profile.qualified p n) = some hit
  first : ∃ before after, active = before ++ p :: after ∧ ∀ q ∈ before, inner (Profile.qualified q n) = none

/-- The record under the active profiles is that of the first hit, under the plain name. -/
theorem profiled_eq_some_iff :
    profiled inner active n = some r ↔
      ∃ p hit, FirstHit inner active n p hit ∧ r = (hit.withName n).withProfile p := by
  rw [profiled, List.findSome?_eq_some_iff]
  constructor
  · rintro ⟨before, p, after, hactive, hfound, hbefore⟩
    obtain ⟨hit, hhit, rfl⟩ := Option.map_eq_some_iff.mp hfound
    exact ⟨p, hit, ⟨hhit, before, after, hactive, fun q hq => Option.map_eq_none_iff.mp (hbefore q hq)⟩, rfl⟩
  · rintro ⟨p, hit, ⟨hhit, before, after, hactive, hbefore⟩, rfl⟩
    exact ⟨before, p, after, hactive, by rw [hhit]; rfl, fun q hq => Option.map_eq_none_iff.mpr (hbefore q hq)⟩

theorem profiled_eq_none_iff : profiled inner active n = none ↔ ∀ p ∈ active, inner (Profile.qualified p n) = none := by
  simp only [profiled, List.findSome?_eq_none_iff, Option.map_eq_none_iff]

/-! ## Answers -/

/-- A spelling with a profile is not looked up under the profiles again. -/
theorem overlaid_profiled (h : n.head? = some '%') : overlaid inner active n = inner n := by
  have hoverlays : overlays active n = false := by simp [overlays, h]
  rw [overlaid, hoverlays]
  rfl

/-- For a plain name the stage compares two records, also where no profile is active. -/
theorem overlaid_plain (hn : n.head? ≠ some '%') :
    overlaid inner active n = match profiled inner active n, inner n with
      | some p, some r => if r.outranks p then some r else some p
      | some p, none => some p
      | none, r => r := by
  rw [overlaid]
  split
  · rfl
  · next hoverlays =>
      obtain rfl : active = [] := by simpa [overlays, hn] using hoverlays
      rfl

/-- A plain name has the plain record where it outranks the profiled one, and else the profiled one. -/
theorem overlaid_eq_some_iff (hn : n.head? ≠ some '%') :
    overlaid inner active n = some r ↔
      (inner n = some r ∧ ∀ p, profiled inner active n = some p → r.outranks p = true) ∨
        profiled inner active n = some r ∧ ∀ a, inner n = some a → a.outranks r = false := by
  rw [overlaid_plain hn]
  cases hprofiled : profiled inner active n with
  | none => simp
  | some p =>
      cases hplain : inner n with
      | none => simp
      | some a =>
          by_cases houtranks : a.outranks p = true
          · simp only [houtranks, if_true, Option.some.injEq]
            constructor
            · rintro rfl
              exact Or.inl ⟨rfl, fun q hq => hq ▸ houtranks⟩
            · rintro (⟨h, -⟩ | ⟨rfl, h⟩)
              · exact h
              · exact absurd (h a rfl) (by simp [houtranks])
          · rw [Bool.not_eq_true] at houtranks
            simp only [houtranks, Bool.false_eq_true, if_false, Option.some.injEq]
            constructor
            · rintro rfl
              exact Or.inr ⟨rfl, fun b hb => hb ▸ houtranks⟩
            · rintro (⟨rfl, h⟩ | ⟨h, -⟩)
              · exact absurd (h p rfl) (by simp [houtranks])
              · exact h

/-- It has a record exactly when one of the two is there. -/
theorem isSome_overlaid_iff (hn : n.head? ≠ some '%') :
    (overlaid inner active n).isSome = true ↔
      (inner n).isSome = true ∨ ∃ p ∈ active, (inner (Profile.qualified p n)).isSome = true := by
  have hhits : (profiled inner active n).isSome = true ↔ ∃ p ∈ active, (inner (Profile.qualified p n)).isSome = true := by
    rw [profiled, List.isSome_findSome?, List.any_eq_true]
    simp only [Option.isSome_map]
  rw [← hhits, overlaid_plain hn]
  cases profiled inner active n with
  | none => simp
  | some p =>
      cases inner n with
      | none => simp
      | some a => by_cases houtranks : a.outranks p = true <;> simp [houtranks]

/-- The record under the active profiles is the plain one, or one found under a spelling with a profile. -/
theorem overlaid_cases (h : overlaid inner active n = some r) : inner n = some r ∨ n.head? ≠ some '%' ∧
    ∃ q ∈ active, ∃ a, inner (Profile.qualified q n) = some a ∧ r = (a.withName n).withProfile q := by
  by_cases hn : n.head? = some '%'
  · rw [overlaid_profiled hn] at h
    exact Or.inl h
  · rcases (overlaid_eq_some_iff hn).mp h with ⟨hplain, -⟩ | ⟨hprofiled, -⟩
    · exact Or.inl hplain
    · obtain ⟨p, hit, ⟨hfound, before, after, hactive, -⟩, rfl⟩ := profiled_eq_some_iff.mp hprofiled
      exact Or.inr ⟨hn, p, by simp [hactive], hit, hfound, rfl⟩

/-! ## Names -/

/-- A name is shown as it is, or without the qualifier of an active profile. -/
theorem plainName_cases (active : List Text) (n : Text) :
    plainName active n = n ∨ ∃ p ∈ active, n = Profile.qualified p (plainName active n) := by
  rw [plainName]
  cases hfound : active.findSome? fun p => Text.afterPrefix? (Profile.qualifier p) n with
  | none => exact Or.inl rfl
  | some rest =>
      obtain ⟨p, hp, hrest⟩ := List.exists_of_findSome?_eq_some hfound
      exact Or.inr ⟨p, hp, Text.afterPrefix?_eq_some_iff.mp hrest⟩

/-- What is shown of a name that has a record has a record itself, where no qualifier stands behind a qualifier. -/
theorem isSome_overlaid_plainName (hn : (inner n).isSome = true)
    (hplain : ∀ p ∈ active, ∀ rest, n = Profile.qualified p rest → rest.head? ≠ some '%') :
    (overlaid inner active (plainName active n)).isSome = true := by
  rcases plainName_cases active n with heq | ⟨p, hp, hqualified⟩
  · rw [heq]
    by_cases hhead : n.head? = some '%'
    · rwa [overlaid_profiled hhead]
    · exact (isSome_overlaid_iff hhead).mpr (Or.inl hn)
  · -- the name is the spelling of what is shown under an active profile
    refine (isSome_overlaid_iff (hplain p hp _ hqualified)).mpr (Or.inr ⟨p, hp, ?_⟩)
    rwa [← hqualified]

end Stage

/-! ## Ranks -/

namespace Registry

open RankedSource Stage

variable {sources : List Source}

/-- Of two records the first outranks the second exactly when its source ranks above the other's. -/
theorem outranks_iff_ranksAbove {n m : Text} {a b : Record} {s t : RankedSource}
    (ha : (ofSources sources).resolve n = some a) (hb : (ofSources sources).resolve m = some b)
    (hs : s.Leads (numbered sources) n) (ht : t.Leads (numbered sources) m) : a.outranks b = true ↔ s.RanksAbove t := by
  obtain ⟨s', v, hs', hsplace, -, harecord⟩ := leads_of_resolve ha
  obtain ⟨t', w, ht', htplace, -, hbrecord⟩ := leads_of_resolve hb
  obtain rfl := hs.unique hs'
  obtain rfl := ht.unique ht'
  have hdescending := ranked_descending sources
  have hcompare := compare_of_getElem? hdescending hsplace htplace (congrArg (·.origin.ordinal) harecord)
    (congrArg (·.origin.ordinal) hbrecord)
  rw [Record.outranks, Origin.outranks, hcompare, beq_iff_eq, Nat.compare_eq_gt]
  constructor
  · exact ranksAbove_of_lt hdescending hsplace htplace
  · intro habove
    rcases Nat.lt_trichotomy a.origin.position b.origin.position with hlt | heq | hgt
    · exact hlt
    · rw [heq, htplace, Option.some.injEq] at hsplace
      exact absurd habove (hsplace ▸ habove.asymm)
    · exact absurd habove (ranksAbove_of_lt hdescending htplace hsplace hgt).asymm

/-- The plain record of a name stands: some source defines the name, and no active profile has a record for it, or the
source that leads for the name ranks above the one that leads for the first hit. -/
def PlainStands (sources : List Source) (active : List Text) (n : Text) : Prop :=
  ∃ s : RankedSource, s.Leads (numbered sources) n ∧
    ((∀ p ∈ active, (ofSources sources).resolve (Profile.qualified p n) = none) ∨
      ∃ p hit, FirstHit (ofSources sources).resolve active n p hit ∧
        ∃ t : RankedSource, t.Leads (numbered sources) (Profile.qualified p n) ∧ s.RanksAbove t)

/-- In terms of records: the plain one outranks the profiled one, if there is any. -/
theorem plainStands_iff {active : List Text} {n : Text} :
    PlainStands sources active n ↔ ∃ a, (ofSources sources).resolve n = some a ∧
      ∀ p, profiled (ofSources sources).resolve active n = some p → a.outranks p = true := by
  constructor
  · rintro ⟨s, hs, hcases⟩
    have hsome : ((ofSources sources).resolve n).isSome = true := by
      rw [Option.isSome_iff_ne_none, ne_eq, resolve, resolveFrom_eq_none_iff]
      exact fun h => h s ((ranked_perm sources).mem_iff.mpr hs.mem) hs.defines
    obtain ⟨a, ha⟩ := Option.isSome_iff_exists.mp hsome
    refine ⟨a, ha, fun r hr => ?_⟩
    rcases hcases with hnone | ⟨p, hit, hfirst, t, ht, habove⟩
    · rw [profiled_eq_none_iff.mpr hnone] at hr
      cases hr
    · rw [profiled_eq_some_iff.mpr ⟨p, hit, hfirst, rfl⟩, Option.some.injEq] at hr
      rw [← hr]
      exact (outranks_iff_ranksAbove ha hfirst.found hs ht).mpr habove
  · rintro ⟨a, ha, houtranks⟩
    obtain ⟨s, -, hs, -⟩ := leads_of_resolve ha
    refine ⟨s, hs, ?_⟩
    cases hprofiled : profiled (ofSources sources).resolve active n with
    | none => exact Or.inl (profiled_eq_none_iff.mp hprofiled)
    | some r =>
        obtain ⟨p, hit, hfirst, rfl⟩ := profiled_eq_some_iff.mp hprofiled
        obtain ⟨t, -, ht, -⟩ := leads_of_resolve hfirst.found
        have hout : a.outranks hit = true := houtranks ((hit.withName n).withProfile p) hprofiled
        exact Or.inr ⟨p, hit, hfirst, t, ht, (outranks_iff_ranksAbove ha hfirst.found hs ht).mp hout⟩

end Registry

/-! ## Questions -/

namespace Stage

variable {inner : Text → Option Record} {active : List Text} {n : Text}

theorem asked_profiled (h : n.head? = some '%') : (profile active).asked inner n = [n] := by
  have hoverlays : overlays active n = false := by simp [overlays, h]
  rw [asked, hoverlays]
  rfl

theorem asked_plain (hn : n.head? ≠ some '%') :
    (profile active).asked inner n = profileQuestions inner n active ++ [n] := by
  rw [asked]
  split
  · rfl
  · next hoverlays =>
      obtain rfl : active = [] := by simpa [overlays, hn] using hoverlays
      rfl

end Stage

namespace Registry

variable {registry : Registry} {active : List Text} {n : Text}

/-- The active profiles are tried up to one under which the sources break off: none in front of it has a record. -/
def StopsAtProfile (registry : Registry) (active : List Text) (n : Text) : Prop :=
  ComesTo (fun p => registry.resolve (Profile.qualified p n) = none)
    (fun p => registry.StopsAt (Profile.qualified p n)) active

/-- The look-up of a name under the active profiles comes to a spelling at which the sources break off: the plain one, or
that of a plain name under a profile. -/
def StopsUnder (registry : Registry) (active : List Text) (n : Text) : Prop :=
  registry.StopsAt n ∨ n.head? ≠ some '%' ∧ registry.StopsAtProfile active n

/-- Of the spellings that are asked for one breaks off exactly when the active profiles are tried up to such a one. -/
theorem stops_questions_iff :
    (∃ m ∈ Stage.profileQuestions (Attempt.found registry.tryResolve) n active, registry.StopsAt m) ↔
      registry.StopsAtProfile active n := by
  unfold StopsAtProfile
  induction active with
  | nil =>
      refine iff_of_false ?_ not_comesTo_nil
      rintro ⟨m, hm, -⟩
      exact List.not_mem_nil hm
  | cons p ps ih =>
      rw [comesTo_cons, Stage.profileQuestions]
      by_cases hp : registry.StopsAt (Profile.qualified p n)
      · refine iff_of_true ⟨_, ?_, hp⟩ (Or.inl hp)
        split
        · exact List.mem_cons_self
        · exact List.mem_cons_self
      · -- what is found for the spelling is its record, so that both sides go on behind it or neither does
        rw [or_iff_right hp, found_eq_resolve hp, ← ih]
        cases registry.resolve (Profile.qualified p n) with
        | some r => simp [hp]
        | none => simp [hp]

end Registry

/-! ## View -/

namespace Chain

open Registry Stage

variable {sources : List Source} {active : List Text}

/-- Every name that the profile stage shows has a record, and the record has this name. -/
theorem exists_overlaid_of_mem_names (hdefined : ∀ s ∈ sources, ∀ n ∈ s.names, (s.get? n).isSome = true)
    (hplain : ∀ p ∈ active, ∀ rest, Profile.qualified p rest ∈ (ofSources sources).names → rest.head? ≠ some '%')
    {n : Text} (hn : n ∈ (Stage.profile active).names (ofSources sources).names) :
    ∃ r, overlaid (ofSources sources).resolve active n = some r ∧ r.name = n := by
  obtain ⟨m, hm, rfl⟩ := List.mem_map.mp (NameSet.mem_ofList.mp hn)
  obtain ⟨s, hs, hreports⟩ := mem_names_ofSources.mp hm
  have hsome : ((ofSources sources).resolve m).isSome = true := isSome_resolve_iff.mpr ⟨s, hs, hdefined s hs m hreports⟩
  obtain ⟨r, hr⟩ := Option.isSome_iff_exists.mp
    (isSome_overlaid_plainName hsome fun p hp rest heq => hplain p hp rest (heq ▸ hm))
  refine ⟨r, hr, ?_⟩
  rcases overlaid_cases hr with hfound | ⟨-, p, -, hit, -, rfl⟩
  · exact name_of_resolve hfound
  · rfl

/-- Every name that the profile stage shows is listed once, in order, with the record that is answered for it. -/
theorem values_of_profile (access : Access) (hdefined : ∀ s ∈ sources, ∀ n ∈ s.names, (s.get? n).isSome = true)
    (hplain : ∀ p ∈ active, ∀ rest, Profile.qualified p rest ∈ (ofSources sources).names → rest.head? ≠ some '%') :
    let registry := ofSources sources
    let view : Chain := ⟨[.profile active]⟩
    (view.values registry access).map Record.name = (view.names registry).toList ∧
      ∀ r ∈ view.values registry access, view.lookup registry access r.name = some r := by
  intro registry view
  have hlists : view.values registry access = (view.names registry).toList.filterMap (view.lookup registry access) :=
    listsAnswers_profile active []
  have hanswered (n : Text) (hn : n ∈ (view.names registry).toList) :
      ∃ r, view.lookup registry access n = some r ∧ r.name = n := exists_overlaid_of_mem_names hdefined hplain hn
  constructor
  · rw [hlists, List.map_filterMap]
    refine (List.filterMap_congr fun n hn => ?_).trans List.filterMap_some
    obtain ⟨r, hr, hname⟩ := hanswered n hn
    rw [hr, Option.map_some, hname]
  · intro r hr
    rw [hlists, List.mem_filterMap] at hr
    obtain ⟨n, hn, hr⟩ := hr
    obtain ⟨a, ha, hname⟩ := hanswered n hn
    obtain rfl : r = a := Option.some.inj (hr.symm.trans ha)
    rwa [hname]

/-- The record of a plain name is the plain one exactly when this one stands, and else that of the first hit. -/
theorem overlaid_iff_plainStands {n : Text} (hn : n.head? ≠ some '%') {r : Record}
    (hr : overlaid (ofSources sources).resolve active n = some r) :
    ((ofSources sources).resolve n = some r ↔ PlainStands sources active n) ∧
      (¬ PlainStands sources active n → ∃ p hit, FirstHit (ofSources sources).resolve active n p hit ∧
        r = (hit.withName n).withProfile p) := by
  rw [plainStands_iff]
  rcases (overlaid_eq_some_iff hn).mp hr with ⟨hfound, houtranks⟩ | ⟨hprofiled, hbeaten⟩
  · have hstands : ∃ a, (ofSources sources).resolve n = some a ∧
        ∀ p, profiled (ofSources sources).resolve active n = some p → a.outranks p = true := ⟨r, hfound, houtranks⟩
    exact ⟨iff_of_true hfound hstands, fun h => absurd hstands h⟩
  · -- the record has a profile, which no record of the registry has
    obtain ⟨p, hit, hfirst, rfl⟩ := profiled_eq_some_iff.mp hprofiled
    refine ⟨iff_of_false (fun hfound => ?_) ?_, fun _ => ⟨p, hit, hfirst, rfl⟩⟩
    · cases profile_of_resolve hfound
    · rintro ⟨a, ha, houtranks⟩
      exact absurd (houtranks _ hprofiled) (by simp [hbeaten a ha])

/-- A profile stage around the sources breaks off exactly where they do at a spelling that it asks for. -/
theorem stops_profile_iff {registry : Registry} {access : Access} {n : Text} :
    ((Chain.mk [.profile active]).tryLookup registry access n).Stops ↔ registry.StopsUnder active n := by
  show (Stage.tryGet access registry.tryResolve n (.profile active)).Stops ↔ _
  rw [Stage.stops_tryGet_iff]
  simp only [stops_tryResolve_iff]
  unfold StopsUnder
  by_cases hn : n.head? = some '%'
  · rw [asked_profiled hn]
    simp [hn]
  · rw [asked_plain hn, ← stops_questions_iff]
    simp only [List.mem_append, List.mem_singleton, or_and_right, exists_or, exists_eq_left]
    rw [or_comm, and_iff_right hn]

/-- Its listing breaks off with the look-up of any name that it shows. -/
theorem stops_values_profile_iff {registry : Registry} {access : Access} :
    ((Chain.mk [.profile active]).tryValues registry access).Stops ↔
      ∃ n ∈ (Chain.mk [.profile active]).names registry, registry.StopsUnder active n := by
  unfold tryValues tryValuesIn Stage.tryValues
  rw [Attempt.stops_bind_iff, Attempt.stops_each_iff]
  constructor
  · rintro (⟨n, hn, hstops⟩ | ⟨-, -, hdone⟩)
    · exact ⟨n, hn, stops_profile_iff.mp hstops⟩
    · exact absurd hdone (Attempt.not_stops_ok _)
  · rintro ⟨n, hn, hstops⟩
    exact Or.inl ⟨n, hn, stops_profile_iff.mpr hstops⟩

/-- **Active profiles are a view of the sources.** Let the sources define what they report, and let no reported name go on
behind the qualifier of an active profile with another one. The look-up of a name breaks off exactly where the sources do
at its plain spelling or at one under a profile that is tried, and the listing with the look-up of a name that is shown.
A listing that is made holds one record for each name that is shown, in ascending order and each under this name, and the
same as are answered for the names. A plain name has a record exactly when it is defined plainly or under an active
profile. The record is the plain one exactly when this one stands, and else that of the first hit, renamed and marked with
its profile. -/
theorem profile_view (sources : List Source) (active : List Text) (access : Access)
    (hdefined : ∀ s ∈ sources, ∀ n ∈ s.names, (s.get? n).isSome = true)
    (hplain : ∀ p ∈ active, ∀ rest, Profile.qualified p rest ∈ (ofSources sources).names → rest.head? ≠ some '%') :
    let registry := ofSources sources
    let view : Chain := ⟨[.profile active]⟩
    (∀ n, (view.tryLookup registry access n).Stops ↔ registry.StopsUnder active n) ∧
    ((view.tryValues registry access).Stops ↔ ∃ n ∈ view.names registry, registry.StopsUnder active n) ∧
    (∀ records, view.tryValues registry access = .ok records →
      records.map Record.name = (view.names registry).toList ∧ (view.names registry).toList.Pairwise (· < ·) ∧
      ∀ r ∈ records, view.tryLookup registry access r.name = .ok (some r)) ∧
    ∀ n answer, n.head? ≠ some '%' → view.tryLookup registry access n = .ok answer →
      (answer.isSome = true ↔
        (registry.resolve n).isSome = true ∨ ∃ p ∈ active, (registry.resolve (Profile.qualified p n)).isSome = true) ∧
      ∀ r, answer = some r →
        (registry.resolve n = some r ↔ PlainStands sources active n) ∧
        (¬ PlainStands sources active n →
          ∃ p hit, FirstHit registry.resolve active n p hit ∧ r = (hit.withName n).withProfile p) := by
  intro registry view
  have hlibrary : ∀ s ∈ view.stages, s.ReadsOnlyAsked :=
    List.forall_mem_singleton.mpr (Stage.readsOnlyAsked rfl)
  obtain ⟨hnames, hanswers⟩ := values_of_profile access hdefined hplain
  refine ⟨fun n => stops_profile_iff, stops_values_profile_iff, ?_, ?_⟩
  · intro records hrecords
    have hvalues : view.values registry access = records := valuesIn_of_tryValuesIn hlibrary hrecords
    rw [hvalues] at hnames hanswers
    refine ⟨hnames, (view.names registry).ascending, ?_⟩
    intro r hr
    have hshown : r.name ∈ (view.names registry).toList := hnames ▸ List.mem_map_of_mem hr
    obtain ⟨a, ha⟩ : ∃ a, view.tryLookup registry access r.name = .ok a := by
      rw [← Attempt.not_stops_iff, stops_profile_iff]
      intro hstops
      have hlisting : (view.tryValues registry access).Stops := stops_values_profile_iff.mpr ⟨_, hshown, hstops⟩
      rw [hrecords] at hlisting
      exact Attempt.not_stops_ok _ hlisting
    have hlookup : view.lookup registry access r.name = a := lookupIn_of_tryLookupIn hlibrary ha
    rw [ha, ← hlookup, hanswers r hr]
  · intro n answer hn hanswer
    obtain rfl : view.lookup registry access n = answer := lookupIn_of_tryLookupIn hlibrary hanswer
    exact ⟨isSome_overlaid_iff hn, fun r hr => overlaid_iff_plainStands hn hr⟩

/-- Of two active profiles one qualifier starts like the other. A plain record stands because its source ranks above, and
another name is shown from its spelling under a profile alone. -/
theorem profile_view_overlapping :
    let sources : List Source := [
      .table ⟨"app".toList, .ofPairs [("x".toList, "1".toList), ("%dev.x".toList, "2".toList),
        ("%dev.eu.y".toList, "3".toList), ("%prod.z".toList, "4".toList)], 100, .empty⟩,
      .table ⟨"env".toList, .ofPairs [("x".toList, "5".toList)], 300, .empty⟩]
    let active := ["dev.eu".toList, "dev".toList]
    let registry := ofSources sources
    let view : Chain := ⟨[.profile active]⟩
    let r : Record := .ofSource "x".toList "5".toList ⟨"env".toList, 300, 0, none⟩
    let q : Record := ⟨"y".toList, some "3".toList, some "3".toList, some "dev.eu".toList, ⟨"app".toList, 100, 1, none⟩, []⟩
    (∀ s ∈ sources, ∀ n ∈ s.names, (s.get? n).isSome = true) ∧
      (∀ p ∈ active, ∀ rest, Profile.qualified p rest ∈ registry.names → rest.head? ≠ some '%') ∧
      (view.names registry).toList = ["%prod.z".toList, "x".toList, "y".toList] ∧
      view.tryLookup registry .locked "x".toList = .ok (some r) ∧
      view.tryLookup registry .locked "y".toList = .ok (some q) ∧
      (∃ records, view.tryValues registry .locked = .ok records ∧
        records.map Record.name = (view.names registry).toList) ∧
      (registry.resolve "x".toList = some r ↔ PlainStands sources active "x".toList) ∧
      (¬ PlainStands sources active "y".toList →
        ∃ p hit, FirstHit registry.resolve active "y".toList p hit ∧ q = (hit.withName "y".toList).withProfile p) := by
  intro sources active registry view r q
  have hregistry : registry = ⟨(numbered sources).reverse⟩ := congrArg Registry.mk (mergeSort_pair _ _ _)
  have hdefined : ∀ s ∈ sources, ∀ n ∈ s.names.toList, (s.get? n).isSome = true := by decide +kernel
  -- nothing that is reported goes on with a second qualifier
  have hrests : ∀ p ∈ active, ∀ n ∈ registry.names.toList,
      ((Text.afterPrefix? (Profile.qualifier p) n).bind List.head?) ≠ some '%' := by
    rw [hregistry]
    decide +kernel
  have hplain : ∀ p ∈ active, ∀ rest, Profile.qualified p rest ∈ registry.names → rest.head? ≠ some '%' := by
    intro p hp rest hrest
    have hcut : Text.afterPrefix? (Profile.qualifier p) (Profile.qualified p rest) = some rest :=
      Text.afterPrefix?_eq_some_iff.mpr rfl
    have hhead := hrests p hp _ hrest
    rwa [hcut, Option.bind_some] at hhead
  have hnames : (view.names registry).toList = ["%prod.z".toList, "x".toList, "y".toList] := by
    rw [hregistry]
    decide +kernel
  have hx : view.tryLookup registry .locked "x".toList = .ok (some r) := by
    rw [hregistry]
    decide +kernel
  have hy : view.tryLookup registry .locked "y".toList = .ok (some q) := by
    rw [hregistry]
    decide +kernel
  have htables (m : Text) : ¬ registry.StopsAt m := by
    apply not_stopsAt
    intro s hs d hd
    have hdefaults : ∃ s ∈ sources, s = .defaults d := exists_mem_ranked_iff.mp ⟨s, hs, hd⟩
    simp [sources] at hdefaults
  obtain ⟨-, hstops, hlisted, hview⟩ := profile_view sources active .locked hdefined hplain
  obtain ⟨records, hrecords⟩ : ∃ records, view.tryValues registry .locked = .ok records := by
    rw [← Attempt.not_stops_iff, hstops]
    rintro ⟨n, -, hn | ⟨-, before, p, after, -, -, hp⟩⟩
    · exact htables n hn
    · exact htables _ hp
  exact ⟨hdefined, hplain, hnames, hx, hy, ⟨records, hrecords, (hlisted records hrecords).1⟩,
    ((hview _ _ (by decide) hx).2 r rfl).1, ((hview _ _ (by decide) hy).2 q rfl).2⟩

/-- A name with a doubled bracket is reported and defined. It is looked up under a profile first, where the defaults have
to cut its spelling, and so neither the name nor the listing has an answer. -/
theorem profile_stops_at_doubled_bracket :
    let sources : List Source := [.table ⟨"app".toList, .ofPairs [("a[0]]".toList, "1".toList)], 100, .empty⟩,
      .defaults .empty]
    let active := ["dev".toList]
    let registry := ofSources sources
    let view : Chain := ⟨[.profile active]⟩
    (∀ s ∈ sources, ∀ n ∈ s.names, (s.get? n).isSome = true) ∧
      (∀ p ∈ active, ∀ rest, Profile.qualified p rest ∈ registry.names → rest.head? ≠ some '%') ∧
      (view.names registry).toList = ["a[0]]".toList] ∧ (registry.resolve "a[0]]".toList).isSome = true ∧
      (view.tryLookup registry .locked "a[0]]".toList).Stops ∧ (view.tryValues registry .locked).Stops := by
  intro sources active registry view
  have hregistry : registry = ⟨numbered sources⟩ := congrArg Registry.mk (mergeSort_pair _ _ _)
  have hdefined : ∀ s ∈ sources, ∀ n ∈ s.names.toList, (s.get? n).isSome = true := by decide +kernel
  have hreported : registry.names.toList = ["a[0]]".toList] := by
    rw [hregistry]
    decide +kernel
  have hnames : (view.names registry).toList = ["a[0]]".toList] := by
    rw [hregistry]
    decide +kernel
  have hplain : ∀ p ∈ active, ∀ rest, Profile.qualified p rest ∈ registry.names → rest.head? ≠ some '%' := by
    intro p _ rest hrest
    have hmem : Profile.qualified p rest ∈ registry.names.toList := hrest
    -- no reported name starts with a qualifier
    rw [hreported, List.mem_singleton] at hmem
    exact absurd (congrArg List.head? hmem) (by simp [Profile.qualified, Profile.qualifier])
  have hfound : (registry.resolve "a[0]]".toList).isSome = true := by
    rw [hregistry]
    decide +kernel
  have hstops : registry.StopsUnder active "a[0]]".toList := by
    refine Or.inr ⟨by decide, [], "dev".toList, [], rfl, by simp, ?_⟩
    rw [hregistry]
    refine ⟨(numbered sources).take 1, ⟨.defaults .empty, ordinalRange.least, 1⟩, [], rfl, ?_, ⟨_, rfl⟩, by decide +kernel⟩
    decide
  refine ⟨hdefined, hplain, hnames, hfound, stops_profile_iff.mpr hstops, stops_values_profile_iff.mpr ⟨_, ?_, hstops⟩⟩
  show _ ∈ (view.names registry).toList
  rw [hnames]
  exact List.mem_singleton_self _

end Chain

end LayeredConfig
