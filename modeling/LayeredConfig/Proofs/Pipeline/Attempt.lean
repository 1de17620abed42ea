import LayeredConfig.Proofs.Chain.Attempt
import LayeredConfig.Proofs.Chain.Order
import LayeredConfig.Proofs.Pipeline.Assembly

/-!
# `LayeredConfig.Proofs.Pipeline.Attempt` — a configuration that is put together without breaking off

Putting a configuration together cuts the paths of its defaults and those to be ignored, and reads the active profiles.
Where all this is carried through, the configuration is the one that `Parts.assemble` describes, and whatever is read of
it afterwards without breaking off is what it holds.

## Contents
- **Reading.** `Config.value_of_tryValue`, `Config.records_of_tryRecords`, `Config.events_of_tryEvents`,
  `Config.isUndeclared_of_tryIsUndeclared`.
- **Assembly.** `Parts.tryPipeline_eq_ok_iff` says what has to be carried through; `Parts.assembled_of_tryAssemble` is the
  statement for the whole configuration.
-/

namespace LayeredConfig

open Name

/-! ## Reading -/

namespace Config

variable {c : Config} {n : Text}

theorem value_of_tryValue (hstages : ∀ s ∈ c.pipeline.chain.stages, s.ReadsOnlyAsked) {a : Option Record}
    (h : c.tryValue n = .ok a) : c.value? n = a := Chain.lookupIn_of_tryLookupIn hstages h

theorem records_of_tryRecords (hstages : ∀ s ∈ c.pipeline.chain.stages, s.ReadsOnlyAsked) {rs : List Record}
    (h : c.tryRecords = .ok rs) : c.records = rs := Chain.valuesIn_of_tryValuesIn hstages h

theorem events_of_tryEvents {es : List LogEvent} (h : c.tryEvents n = .ok es) :
    c.events n = es ∧ ∃ a, c.tryValue n = .ok a := by
  obtain ⟨u, hreport, hevents⟩ := Attempt.bind_eq_ok_iff.mp h
  exact ⟨Except.ok.inj hevents, Chain.exists_tryLookupIn_of_tryReportIn hreport⟩

theorem isUndeclared_of_tryIsUndeclared {b : Bool} (h : c.tryIsUndeclared n = .ok b) : c.isUndeclared n = b := by
  unfold tryIsUndeclared at h
  unfold isUndeclared
  split at h
  · next hcovered =>
      obtain ⟨v, hv, rfl⟩ := Attempt.map_eq_ok_iff.mp h
      rw [hcovered, Bool.true_and, Trie.contains, (Trie.tryGet_eq_ok_iff.mp hv).2]
      cases v with
      | none => rfl
      | some u => rfl
  · next hcovered =>
      rw [Bool.not_eq_true] at hcovered
      rw [hcovered, Bool.false_and]
      exact Except.ok.inj h

/-- Where nothing is undeclared and the check is carried through, every name was found to be declared or to be ignored. -/
theorem tryIsUndeclared_of_undeclaredNames (hnone : c.undeclaredNames = []) {names : List Text}
    (h : c.tryUndeclaredNames = .ok names) : ∀ n ∈ c.checkedNames, c.tryIsUndeclared n = .ok false := by
  obtain ⟨u, heach, -⟩ := Attempt.bind_eq_ok_iff.mp h
  intro n hn
  obtain ⟨b, hb⟩ := Attempt.each_eq_ok_iff.mp heach n hn
  cases b with
  | false => exact hb
  | true =>
      have hmem : n ∈ c.undeclaredNames :=
        NameSet.mem_ofList.mpr (List.mem_filter.mpr ⟨hn, isUndeclared_of_tryIsUndeclared hb⟩)
      rw [hnone] at hmem
      exact absurd hmem List.not_mem_nil

end Config

/-! ## Assembly -/

namespace Parts

variable {p : Parts} {files : List TableSource}

theorem activeProfiles_of_try (hstages : ∀ s ∈ p.stages, s.ReadsOnlyAsked) {registry : Registry} {ps : List Text}
    (h : p.tryActiveProfiles registry (.ofStages p.stageList) = .ok ps) :
    p.activeProfiles registry (.ofStages p.stageList) = ps := by
  have hinside : ∀ s ∈ ((Chain.ofStages p.stageList).inside Stage.profilePriority).stages, s.ReadsOnlyAsked := by
    intro s hs
    have hmem : s ∈ (Chain.ofStages p.stageList).stages := (List.dropWhile_suffix _).subset hs
    exact forall_mem_stageList (fun _ => Stage.readsOnlyAsked) hstages s (Chain.mem_ofStages.mp hmem)
  unfold tryActiveProfiles at h
  unfold activeProfiles
  cases hprofiles : p.profiles with
  | some listed =>
      rw [hprofiles] at h
      exact Chain.withParentProfile_of_try hinside h
  | none =>
      rw [hprofiles] at h
      exact Chain.activeProfiles_of_try hinside h

theorem readsOnlyAsked_pipeline (hstages : ∀ s ∈ p.stages, s.ReadsOnlyAsked) :
    ∀ s ∈ (p.pipeline files).chain.stages, s.ReadsOnlyAsked := by
  intro s hs
  rcases Chain.mem_insert.mp hs with rfl | hs
  · exact Stage.readsOnlyAsked rfl
  · exact forall_mem_stageList (fun _ => Stage.readsOnlyAsked) hstages s (Chain.mem_ofStages.mp hs)

/-- The pipeline is put together when the paths of the defaults and those to be ignored have steps, and the active profiles
are found. -/
theorem tryPipeline_eq_ok_iff (hstages : ∀ s ∈ p.stages, s.ReadsOnlyAsked) {q : Pipeline} :
    p.tryPipeline files = .ok q ↔ p.pipeline files = q ∧
      (∀ d ∈ p.defaultPairs, (keySteps d.1).isSome = true) ∧ (∀ path ∈ p.ignoredPaths, (keySteps path).isSome = true) ∧
      p.tryActiveProfiles q.registry (.ofStages p.stageList) = .ok q.profiles := by
  unfold tryPipeline
  constructor
  · intro h
    obtain ⟨d, hd, h⟩ := Attempt.bind_eq_ok_iff.mp h
    obtain ⟨ps, hps, h⟩ := Attempt.bind_eq_ok_iff.mp h
    obtain ⟨t, ht, h⟩ := Attempt.bind_eq_ok_iff.mp h
    obtain rfl := Except.ok.inj h
    refine ⟨rfl, (Source.tryDefaults_eq_ok_iff.mp hd).1, ?_, ?_⟩
    · exact List.forall_mem_map.mp (Trie.tryOfPairs_eq_ok_iff.mp ht).1
    · exact hps.trans (congrArg Except.ok (activeProfiles_of_try hstages hps).symm)
  · rintro ⟨rfl, hdefaults, hignored, hprofiles⟩
    refine Attempt.bind_eq_ok_iff.mpr ⟨_, Source.tryDefaults_eq_ok_iff.mpr ⟨hdefaults, rfl⟩, ?_⟩
    refine Attempt.bind_eq_ok_iff.mpr ⟨_, hprofiles, ?_⟩
    exact Attempt.bind_eq_ok_iff.mpr ⟨_, Trie.tryOfPairs_eq_ok_iff.mpr ⟨List.forall_mem_map.mpr hignored, rfl⟩, rfl⟩

/-- **A configuration that is put together without breaking off.** It is the one that `assemble` describes. The paths of its
defaults and those to be ignored have steps; where undeclared names are refused, every name of the sources was checked;
and for both readers every answer, every listing and every report that is carried through is the one of the
configuration. -/
theorem assembled_of_tryAssemble (hstages : ∀ s ∈ p.stages, s.ReadsOnlyAsked) {reader : Reader} {dir : Directory}
    {c : Config} (h : p.tryAssemble reader dir = .ok (.ok c)) :
    p.assemble reader dir = .ok c ∧
      (∀ d ∈ p.defaultPairs, (keySteps d.1).isSome = true) ∧ (∀ path ∈ p.ignoredPaths, (keySteps path).isSome = true) ∧
      (p.refusesUndeclared = true → ∀ n ∈ c.checkedNames, c.tryIsUndeclared n = .ok false) ∧
      ∀ access, let view : Config := { c with access }
        (∀ n a, view.tryValue n = .ok a → view.value? n = a) ∧ (∀ rs, view.tryRecords = .ok rs → view.records = rs) ∧
        ∀ n es, view.tryEvents n = .ok es → view.events n = es ∧ ∃ a, view.tryValue n = .ok a := by
  unfold tryAssemble at h
  cases hfiles : p.files.mapM (FileRequest.load · reader dir) with
  | error e =>
      rw [hfiles] at h
      cases Except.ok.inj h
  | ok files =>
      rw [hfiles] at h
      obtain ⟨q, hq, hcheck⟩ := Attempt.bind_eq_ok_iff.mp h
      obtain ⟨rfl, hdefaults, hignored, -⟩ := (tryPipeline_eq_ok_iff hstages).mp hq
      have hassembled : p.assemble reader dir = .ok c ∧
          (p.refusesUndeclared = true → ∃ names, (Config.mk (p.pipeline files) .locked).tryUndeclaredNames = .ok names) := by
        split at hcheck
        · obtain ⟨names, hnames, hc⟩ := Attempt.bind_eq_ok_iff.mp hcheck
          exact ⟨Except.ok.inj hc, fun _ => ⟨names, hnames⟩⟩
        · next hrefuses => exact ⟨Except.ok.inj hcheck, fun hr => absurd hr hrefuses⟩
      obtain ⟨hc, hchecked⟩ := hassembled
      obtain rfl := config_of_assemble hfiles hc
      refine ⟨hc, hdefaults, hignored, ?_, ?_⟩
      · intro hrefuses
        obtain ⟨names, hnames⟩ := hchecked hrefuses
        exact Config.tryIsUndeclared_of_undeclaredNames (undeclaredNames_of_assemble hc hrefuses) hnames
      · intro access view
        have hread : ∀ s ∈ view.pipeline.chain.stages, s.ReadsOnlyAsked := readsOnlyAsked_pipeline hstages
        refine ⟨?_, ?_, ?_⟩
        · intro n a
          exact Config.value_of_tryValue hread
        · intro rs
          exact Config.records_of_tryRecords hread
        · intro n es
          exact Config.events_of_tryEvents

end Parts

end LayeredConfig
