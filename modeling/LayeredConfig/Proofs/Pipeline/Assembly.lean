import LayeredConfig.Pipeline.Assembly

/-!
# `LayeredConfig.Proofs.Pipeline.Assembly` — what a configuration is put together from

## Contents
- **Stages.** What holds of every library stage holds of all stages when it does of those of the application
  (`Parts.forall_mem_stageList`, `Parts.isBuiltin_stageList`); `Parts.ofStages_stageList_secrets` is the chain that secret
  patterns alone make.
- **Result.** A configuration that is put together is the pipeline over its files (`Parts.exists_files_of_assemble`,
  `Parts.config_of_assemble`).
-/

namespace LayeredConfig.Parts

/-! ## Stages -/

/-- Beside the stages of the application there are stages of the library only. -/
theorem forall_mem_stageList {p : Parts} {P : Stage → Prop} (hbuiltin : ∀ s : Stage, s.isBuiltin = true → P s)
    (h : ∀ s ∈ p.stages, P s) : ∀ s ∈ p.stageList, P s := by
  intro s hs
  simp only [stageList, tableStage, List.mem_append, List.mem_ite_nil_left, List.mem_ite_nil_right,
    List.mem_singleton] at hs
  rcases hs with ((((hs | rfl) | ⟨-, rfl⟩) | ⟨-, rfl⟩) | ⟨-, rfl⟩) | ⟨-, rfl⟩
  · exact h s hs
  all_goals exact hbuiltin _ rfl

theorem isBuiltin_stageList {p : Parts} (h : ∀ s ∈ p.stages, s.isBuiltin = true) :
    ∀ s ∈ p.stageList, s.isBuiltin = true := forall_mem_stageList (fun _ hs => hs) h

/-- With nothing but secret patterns, a reader comes to expansion first and to the secrets last. -/
theorem ofStages_stageList_secrets {p : Parts} (hstages : p.stages = []) (hrelocations : p.relocations = [])
    (hfallbacks : p.fallbacks = []) (hexpressions : p.expressions = true) (hpatterns : p.secretPatterns ≠ []) :
    Chain.ofStages p.stageList = ⟨[.expression, .logging, .secret (.ofPatterns p.secretPatterns)]⟩ := by
  have hlist : p.stageList = [.logging, .expression, .secret (.ofPatterns p.secretPatterns)] := by
    simp [stageList, tableStage, hstages, hrelocations, hfallbacks, hexpressions, hpatterns]
  rw [Chain.ofStages, hlist]
  simp [List.mergeSort, List.MergeSort.Internal.splitInTwo, Stage.priority]

/-! ## Result -/

/-- A configuration that is put together is the pipeline over the files that were read, for a reader who may not see
secrets. -/
theorem exists_files_of_assemble {p : Parts} {reader : Reader} {dir : Directory} {c : Config}
    (h : p.assemble reader dir = .ok c) :
    ∃ files, p.files.mapM (FileRequest.load · reader dir) = .ok files ∧ c = ⟨p.pipeline files, .locked⟩ := by
  unfold assemble at h
  cases hfiles : p.files.mapM (FileRequest.load · reader dir) with
  | error e =>
      rw [hfiles] at h
      cases h
  | ok files =>
      rw [hfiles] at h
      simp only [bind, Except.bind] at h
      generalize (if p.refusesUndeclared then _ else _) = names at h
      cases names with
      | nil => exact ⟨files, rfl, (Except.ok.inj h).symm⟩
      | cons n names => cases h

theorem config_of_assemble {p : Parts} {reader : Reader} {dir : Directory} {files : List TableSource} {c : Config}
    (hfiles : p.files.mapM (FileRequest.load · reader dir) = .ok files) (h : p.assemble reader dir = .ok c) :
    c = ⟨p.pipeline files, .locked⟩ := by
  obtain ⟨files', hfiles', rfl⟩ := exists_files_of_assemble h
  rw [hfiles, Except.ok.injEq] at hfiles'
  rw [hfiles']

/-- Where undeclared names are refused, a configuration that is put together has none. -/
theorem undeclaredNames_of_assemble {p : Parts} {reader : Reader} {dir : Directory} {c : Config}
    (h : p.assemble reader dir = .ok c) (hrefuses : p.refusesUndeclared = true) : c.undeclaredNames = [] := by
  obtain ⟨files, hfiles, rfl⟩ := exists_files_of_assemble h
  unfold assemble at h
  rw [hfiles] at h
  simp only [bind, Except.bind, hrefuses, if_true] at h
  cases hnames : (Config.mk (p.pipeline files) .locked).undeclaredNames with
  | nil => rfl
  | cons n names =>
      rw [hnames] at h
      cases h

end LayeredConfig.Parts
