import LayeredConfig.Proofs.Chain.Order
import LayeredConfig.Proofs.Environment.Reporting
import LayeredConfig.Proofs.Pipeline.Assembly
import LayeredConfig.Proofs.Pipeline.Plain
import LayeredConfig.Proofs.Redaction.View

/-!
# `LayeredConfig.Proofs.Redaction.Assembly` — a locked reader learns nothing about secret values

The stages that take out secret values are the innermost of the library. What a locked reader sees through them is the
same for any two sets of sources that differ in secret values alone, and with it everything that is computed outside
them: renamings, references, the active profiles and the listings.

## Contents
- **Order.** The secret stages stand together at the inner end (`secrets_innermost`).
- **Parts.** `Parts.given` are the sources, `Parts.told` what the declared names make of one, `Parts.IsSecret` says
  which names a stage of the configuration hides.
- **Runs.** `Parts.locked_views_agree` for two configurations that are put together from such sources.
-/

namespace LayeredConfig

/-! ## Order -/

/-- Every other stage of the library lies outside the secret stages. -/
theorem Stage.priority_secret_lt {s : Stage} (hbuiltin : s.isBuiltin = true) (hsecret : ∀ set, s ≠ .secret set) :
    3100 < s.priority := by
  cases s with
  | secret set => exact absurd rfl (hsecret set)
  | custom c => simp [Stage.isBuiltin] at hbuiltin
  | _ => exact of_decide_eq_true rfl

/-- In the order of priority the secret stages come last. -/
theorem secrets_innermost {l : List Stage} (hbuiltin : ∀ s ∈ l, s.isBuiltin = true) (hsorted : Chain.Descending l) :
    ∃ (outer : List Stage) (sets : List SecretSet), l = outer ++ sets.map .secret ∧ ∀ s ∈ outer, 3100 < s.priority := by
  induction l with
  | nil => exact ⟨[], [], rfl, by simp⟩
  | cons s l ih =>
      obtain ⟨hhead, htail⟩ := List.pairwise_cons.mp hsorted
      obtain ⟨outer, sets, rfl, houter⟩ := ih (fun t ht => hbuiltin t (List.mem_cons_of_mem s ht)) htail
      by_cases hs : ∃ set, s = .secret set
      · obtain ⟨set, rfl⟩ := hs
        -- nothing of higher priority stands behind a secret stage
        obtain rfl : outer = [] := List.eq_nil_iff_forall_not_mem.mpr fun t ht =>
          absurd (hhead t (List.mem_append_left _ ht)) (Int.not_le.mpr (houter t ht))
        exact ⟨[], set :: sets, rfl, by simp⟩
      · refine ⟨s :: outer, sets, rfl, ?_⟩
        rintro t (_ | ⟨_, ht⟩)
        · exact Stage.priority_secret_lt (hbuiltin s List.mem_cons_self) fun set h => hs ⟨set, h⟩
        · exact houter t ht

/-- A chain of library stages ends in its secret stages. -/
theorem Chain.stages_ofStages {l : List Stage} (hbuiltin : ∀ s ∈ l, s.isBuiltin = true) :
    ∃ (outer : List Stage) (sets : List SecretSet), (Chain.ofStages l).stages = outer ++ sets.map .secret ∧
      ∀ set, Stage.secret set ∈ l → set ∈ sets := by
  obtain ⟨outer, sets, heq, houter⟩ :=
    secrets_innermost (fun s hs => hbuiltin s (Chain.mem_ofStages.mp hs)) (Chain.descending_ofStages l)
  refine ⟨outer, sets, heq, fun set hset => ?_⟩
  have hin : Stage.secret set ∈ outer ++ sets.map Stage.secret := heq ▸ Chain.mem_ofStages.mpr hset
  rcases List.mem_append.mp hin with hout | hsets
  · exact absurd (houter _ hout) (Int.lt_irrefl 3100)
  · simpa using hsets

/-- The stages inside the profile stage end in the same secret stages. -/
theorem Chain.inside_profile {c : Chain} {outer : List Stage} {sets : List SecretSet}
    (h : c.stages = outer ++ sets.map Stage.secret) :
    ∃ between, (c.inside Stage.profilePriority).stages = between ++ sets.map Stage.secret := by
  have hsecrets : (sets.map Stage.secret).dropWhile (fun s => decide (Stage.profilePriority ≤ s.priority)) =
      sets.map Stage.secret := by
    cases sets with
    | nil => rfl
    | cons set sets => rfl
  refine ⟨outer.dropWhile fun s => decide (Stage.profilePriority ≤ s.priority), ?_⟩
  rw [Chain.inside, h, List.dropWhile_append, hsecrets]
  split
  · next hempty => rw [List.isEmpty_iff.mp hempty, List.nil_append]
  · rfl

/-! ## Parts -/

namespace Parts

/-- The sources of a configuration before it adds its defaults. -/
def given (p : Parts) (files : List TableSource) : List Source :=
  p.sources ++ files.map .table ++ (p.environment.map Source.environment).toList

/-- A source of the configuration once it was told the declared names, if there are any. -/
def told (p : Parts) (s : Source) : Source :=
  if p.declaredNames.isEmpty then s else s.reconcile p.declaredNames

/-- Whether a stage of the configuration takes out the values of a name. -/
def IsSecret (p : Parts) (n : Text) : Prop := ∃ set, Stage.secret set ∈ p.stageList ∧ set.contains n = true

/-- Two configurations that may differ in their sources and in nothing else. -/
def SameOptions (p p' : Parts) : Prop :=
  p' = { p with sources := p'.sources, files := p'.files, environment := p'.environment }

theorem sourceList_eq (p : Parts) (files : List TableSource) :
    p.sourceList files = (p.given files).map p.told ++ [.defaults (Source.defaultsOfPairs p.defaultPairs)] := by
  have htold : p.told = if p.declaredNames.isEmpty then id else Source.reconcile p.declaredNames := by
    funext s
    rw [told]
    cases p.declaredNames.isEmpty <;> rfl
  rw [htold, sourceList]
  cases p.declaredNames.isEmpty with
  | true => exact congrArg (· ++ _) (List.map_id _).symm
  | false => exact List.map_append

/-- Where the application brings no secret stage of its own, the secret names are those of the secret patterns. -/
theorem isSecret_iff_contains {p : Parts} (h : ∀ s ∈ p.stages, ∀ set, s ≠ .secret set) (n : Text) :
    p.IsSecret n ↔ (SecretSet.ofPatterns p.secretPatterns).contains n = true := by
  have hempty : (SecretSet.ofPatterns []).contains n = false := rfl
  have hmem (set : SecretSet) : Stage.secret set ∈ p.stageList ↔
      p.secretPatterns ≠ [] ∧ set = SecretSet.ofPatterns p.secretPatterns := by
    simp only [stageList, tableStage, List.mem_append, List.mem_ite_nil_left, List.mem_ite_nil_right,
      List.mem_singleton, Stage.secret.injEq, reduceCtorEq, and_false, or_false, List.isEmpty_iff]
    exact ⟨fun hs => hs.resolve_left fun hs => h _ hs set rfl, Or.inr⟩
  constructor
  · rintro ⟨set, hset, hn⟩
    exact ((hmem set).mp hset).2 ▸ hn
  · intro hn
    refine ⟨_, (hmem _).mpr ⟨fun hnil => ?_, rfl⟩, hn⟩
    rw [hnil, hempty] at hn
    exact Bool.false_ne_true hn

/-! ## Runs -/

/-- The registries of two configurations whose sources agree once they were told the declared names. -/
theorem registry_agreesOff {p p' : Parts} {files files' : List TableSource} {hidden : Text → Prop}
    (hsame : SameOptions p p')
    (hagree : List.Forall₂ (Source.AgreesOff hidden) ((p.given files).map p.told) ((p'.given files').map p.told)) :
    (Registry.ofSources (p.sourceList files)).AgreesOff hidden (Registry.ofSources (p'.sourceList files')) := by
  have htold : p'.told = p.told := by
    rw [hsame]
    rfl
  have hdefaults : p'.defaultPairs = p.defaultPairs := by
    rw [hsame]
    rfl
  refine ofSources_agreesOff ?_
  rw [sourceList_eq, sourceList_eq, htold, hdefaults]
  exact List.rel_append hagree (.cons (Source.agreesOff_refl hidden _) .nil)

/-- The active profiles are read through the secret stages, as everything outside them. -/
theorem sameView_pipeline {p p' : Parts} {files files' : List TableSource} (hsame : SameOptions p p')
    (hbuiltin : ∀ s ∈ p.stages, s.isBuiltin = true)
    (hagree : List.Forall₂ (Source.AgreesOff p.IsSecret) ((p.given files).map p.told) ((p'.given files').map p.told)) :
    (p.pipeline files).profiles = (p'.pipeline files').profiles ∧
      (p.pipeline files).chain = (p'.pipeline files').chain ∧
      SameView (p.pipeline files).registry (p'.pipeline files').registry (p.pipeline files).chain.stages := by
  have hstages : p'.stageList = p.stageList := by
    rw [hsame]
    rfl
  obtain ⟨outer, sets, hchain, hsets⟩ := Chain.stages_ofStages (isBuiltin_stageList hbuiltin)
  obtain ⟨between, hinside⟩ := Chain.inside_profile hchain
  have hsecrets : SameView (p.pipeline files).registry (p'.pipeline files').registry (sets.map .secret) := by
    refine (viewAgrees_secrets (registry_agreesOff hsame hagree) sets).sameView fun n hn => ?_
    obtain ⟨⟨set, hset, hcontains⟩, hshown⟩ := hn
    rw [hshown set (hsets set hset)] at hcontains
    exact Bool.false_ne_true hcontains
  have hinner := hsecrets.append between
  -- the profiles are read from the stages inside the profile stage, and the secret stages are among them
  have hprofiles : (p.pipeline files).profiles = (p'.pipeline files').profiles := by
    have hlookup : ((Chain.ofStages p.stageList).inside Stage.profilePriority).lookup
          (Registry.ofSources (p.sourceList files)) .locked =
        ((Chain.ofStages p.stageList).inside Stage.profilePriority).lookup
          (Registry.ofSources (p'.sourceList files')) .locked := by
      funext n
      show Chain.lookupIn _ _ _ n = Chain.lookupIn _ _ _ n
      rw [hinside]
      exact congrFun hinner.lookup n
    have hoptions : p'.profiles = p.profiles ∧ p'.profileProperty = p.profileProperty := by
      rw [hsame]
      exact ⟨rfl, rfl⟩
    simp only [pipeline, activeProfiles, Chain.activeProfiles, Chain.withParentProfile, Chain.listedProfiles, hstages,
      hlookup, hoptions.1, hoptions.2]
  have hsamechain : (p.pipeline files).chain = (p'.pipeline files').chain := by
    show (Chain.ofStages p.stageList).insert (.profile (p.pipeline files).profiles) =
      (Chain.ofStages p'.stageList).insert (.profile (p'.pipeline files').profiles)
    rw [hstages, hprofiles]
  refine ⟨hprofiles, hsamechain, ?_⟩
  show SameView _ _ ((Chain.ofStages p.stageList).outside _ ++ _ ::
    ((Chain.ofStages p.stageList).inside Stage.profilePriority).stages)
  rw [hinside]
  exact (hinner.cons _).append _

/-- A locked reader learns nothing about secret values: two configurations with the same options and library stages,
whose sources, once told the declared names, agree on everything but the values of secret names, have the same
profiles and names, answer every name with the same record and list the same records. -/
theorem locked_views_agree (p p' : Parts) (reader : Reader) (dir dir' : Directory) (files files' : List TableSource)
    (c c' : Config) (hsame : SameOptions p p') (hbuiltin : ∀ s ∈ p.stages, s.isBuiltin = true)
    (hfiles : p.files.mapM (FileRequest.load · reader dir) = .ok files)
    (hfiles' : p'.files.mapM (FileRequest.load · reader dir') = .ok files')
    (hagree : List.Forall₂ (Source.AgreesOff p.IsSecret) ((p.given files).map p.told) ((p'.given files').map p.told))
    (hc : p.assemble reader dir = .ok c) (hc' : p'.assemble reader dir' = .ok c') :
    c.access = .locked ∧ c'.access = .locked ∧ c.pipeline.profiles = c'.pipeline.profiles ∧
      c.propertyNames = c'.propertyNames ∧ (∀ n, c.value? n = c'.value? n) ∧ c.records = c'.records := by
  obtain rfl := config_of_assemble hfiles hc
  obtain rfl := config_of_assemble hfiles' hc'
  obtain ⟨hprofiles, hchain, hview⟩ := sameView_pipeline hsame hbuiltin hagree
  refine ⟨rfl, rfl, hprofiles, ?_, fun n => ?_, ?_⟩
  · show Chain.namesIn _ _ = Chain.namesIn _ _
    rw [← hchain, hview.names]
  · show Chain.lookupIn _ _ _ n = Chain.lookupIn _ _ _ n
    rw [← hchain, hview.lookup]
  · show Chain.valuesIn _ _ _ = Chain.valuesIn _ _ _
    rw [← hchain, hview.values]

/-- Two passwords, one of which stands in another value by reference: the reader sees the same of both. -/
theorem locked_views_agree_referenced :
    let p (password : Text) : Parts := { Parts.empty with
      sources := [.table (.ofProperties "app".toList
        (Dict.insert (.ofPairs [("url".toList, "pg:$\x7bdb.password\x7d".toList)]) "db.password".toList password))]
      secretPatterns := ["db.*".toList] }
    let c (password : Text) : Config := ⟨(p password).pipeline [], .locked⟩
    (p "one".toList).assemble .ofNotations .empty = .ok (c "one".toList) ∧
      (p "two".toList).assemble .ofNotations .empty = .ok (c "two".toList) ∧
      (p "one".toList).IsSecret "db.password".toList ∧ ∀ n, (c "one".toList).value? n = (c "two".toList).value? n := by
  intro p c
  have hsecret : (p "one".toList).IsSecret "db.password".toList :=
    (isSecret_iff_contains (by simp [p, Parts.empty]) _).mpr (by decide +kernel)
  refine ⟨rfl, rfl, hsecret, ?_⟩
  exact (locked_views_agree (p "one".toList) (p "two".toList) .ofNotations .empty .empty [] [] _ _ rfl
    (by simp [p, Parts.empty]) rfl rfl (.cons (Source.agreesOff_insert _ _ hsecret (by decide)) .nil) rfl rfl).2.2.2.2.1

/-- It is not enough that the sources agree before they are told the declared names: a variable whose key is the dotted
form of another one is not seen until it alone spells a declared name. -/
theorem locked_names_differ_untold :
    let p (vars : Environment.Variables) : Parts := { Parts.empty with
      environment := some (.ofVariables vars)
      schemas := [⟨[], [("a-b".toList, .leaf none), ("A".toList, .group [("b".toList, .leaf none)])]⟩] }
    let vars : Environment.Variables := .ofPairs [("A_B".toList, "1".toList)]
    let vars' := vars.insert "a.b".toList "1".toList
    SameOptions (p vars) (p vars') ∧ (∀ s ∈ (p vars).stages, s.isBuiltin = true) ∧
      List.Forall₂ (Source.AgreesOff (p vars).IsSecret) ((p vars).given []) ((p vars').given []) ∧
      ∃ c c' : Config, (p vars).assemble .ofNotations .empty = .ok c ∧ (p vars').assemble .ofNotations .empty = .ok c' ∧
        "A.b".toList ∉ c.propertyNames ∧ "A.b".toList ∈ c'.propertyNames := by
  intro p vars vars'
  have hagree (n : Text) : Environment.lookup vars n = Environment.lookup vars' n := by
    by_cases hn : n = "a.b".toList
    · subst hn
      decide +kernel
    · exact (Environment.lookup_insert_of_dot vars (by decide) hn).symm
  have hnames (w : Environment.Variables) (hplain : ∀ e ∈ w.entries, '$' ∉ e.2)
      (hprofile : Environment.lookup w LayeredConfig.profileProperty = none)
      (hparent : Environment.lookup w profileParentProperty = none) :
      "A.b".toList ∈ (Config.mk ((p w).pipeline []) .locked).propertyNames ↔
        "A.b".toList ∈ ((EnvironmentSource.ofVariables w).reconcile (p w).declaredNames).names := by
    have hvalues (n v : Text) (hv : Environment.lookup w n = some v) : '$' ∉ v := by
      obtain ⟨k, -, hk⟩ := Option.bind_eq_some_iff.mp hv
      exact hplain (k, v) ((Dict.get?_eq_some_iff w).mp hk)
    have honly : (p w).OnlySources := ⟨rfl, rfl, rfl, rfl, rfl⟩
    have hsources : (p w).sourceList [] =
      [.environment ((EnvironmentSource.ofVariables w).reconcile (p w).declaredNames), .defaults .empty] := rfl
    exact (honly.reads_source hsources hvalues hprofile hparent .locked).2 _
  have hsources : Source.AgreesOff (p vars).IsSecret (.environment (.ofVariables vars))
      (.environment (.ofVariables vars')) :=
    ⟨rfl, rfl, NameSet.eq_of_toList_eq (by decide +kernel), fun _ => rfl, fun n => congrArg Option.isSome (hagree n),
      fun n _ => hagree n⟩
  refine ⟨rfl, by simp [p, Parts.empty], .cons hsources .nil, ⟨(p vars).pipeline [], .locked⟩,
    ⟨(p vars').pipeline [], .locked⟩, rfl, rfl, ?_, ?_⟩
  · rw [hnames vars (by decide +kernel) (by decide +kernel) (by decide +kernel)]
    decide +kernel
  · rw [hnames vars' (by decide +kernel) (by decide +kernel) (by decide +kernel)]
    decide +kernel

end Parts

end LayeredConfig
