import LayeredConfig.Pipeline.Assembly
import LayeredConfig.Proofs.Dict
import LayeredConfig.Proofs.Registry

/-!
# `LayeredConfig.Proofs.Pipeline.Plain` — configurations that only their sources shape

Where nothing is renamed, nothing is secret, no profile is active and no value holds a reference, a configuration
answers what its ranked sources answer.

## Contents
- **Stages.** A stage that `Passes` hands on the names and the plain records that it gets (`lookupIn_of_passes`,
  `namesIn_of_passes`).
- **Sources.** What the record of a name holds (`value_of_resolve`), and when there is none (`resolve_eq_none`).
- **Parts.** `Parts.OnlySources` and the pipeline of such parts (`Parts.OnlySources.pipeline_transparent`), also with
  one source (`Parts.OnlySources.reads_source`); `Parts.OnlyTable`, where it is a table
  (`Parts.OnlyTable.reads_table`).
-/

namespace LayeredConfig

/-! ## Stages -/

/-- A record whose processed value holds no reference. -/
def Record.IsPlain (r : Record) : Prop := ∀ t, r.value = some t → '$' ∉ t

theorem Record.expanded_of_isPlain {r : Record} (h : r.IsPlain) (lookup : Text → Option Record) :
    r.expanded lookup = r := by
  have hnone : r.expansion lookup = none := by
    unfold expansion
    cases hv : r.value with
    | none => rfl
    | some t =>
        show (if t.contains '$' then _ else none) = none
        rw [if_neg]
        simpa using h t hv
  rw [expanded, hnone]

namespace Stage

/-- A stage that changes no names, and no records that are plain. -/
def Passes : Stage → Prop
  | logging => True
  | expression => True
  | profile active => active = []
  | _ => False

theorem names_of_passes {s : Stage} (h : s.Passes) (ns : NameSet) : s.names ns = ns := by
  cases s with
  | logging => rfl
  | expression => rfl
  | profile active =>
      obtain rfl : active = [] := h
      refine NameSet.eq_of_mem_iff fun n => ?_
      show n ∈ NameSet.ofList (ns.toList.map id) ↔ n ∈ ns
      rw [NameSet.mem_ofList, List.map_id]
      rfl
  | relocate _ => exact h.elim
  | fallback _ => exact h.elim
  | secret _ => exact h.elim
  | custom _ => exact h.elim

theorem get_of_passes {s : Stage} (h : s.Passes) {access : Access} {inner : Text → Option Record} {n : Text}
    (hplain : ∀ r, inner n = some r → r.IsPlain) : s.get access inner n = inner n := by
  cases s with
  | logging => rfl
  | expression =>
      show (inner n).map (Record.expanded inner) = inner n
      cases hr : inner n with
      | none => rfl
      | some r => rw [Option.map_some, Record.expanded_of_isPlain (hplain r hr)]
  | profile active =>
      obtain rfl : active = [] := h
      rfl
  | relocate _ => exact h.elim
  | fallback _ => exact h.elim
  | secret _ => exact h.elim
  | custom _ => exact h.elim

end Stage

namespace Chain

variable {registry : Registry} {stages : List Stage}

theorem namesIn_of_passes (h : ∀ s ∈ stages, s.Passes) : namesIn registry stages = registry.names := by
  induction stages with
  | nil => rfl
  | cons s stages ih =>
      rw [namesIn, ih fun t ht => h t (List.mem_cons_of_mem s ht), Stage.names_of_passes (h s List.mem_cons_self)]

theorem lookupIn_of_passes (hplain : ∀ n r, registry.resolve n = some r → r.IsPlain) (h : ∀ s ∈ stages, s.Passes)
    (access : Access) : lookupIn registry access stages = registry.resolve := by
  induction stages with
  | nil => rfl
  | cons s stages ih =>
      have hinner := ih fun t ht => h t (List.mem_cons_of_mem s ht)
      funext n
      rw [lookupIn, hinner, Stage.get_of_passes (h s List.mem_cons_self) (hplain n)]

end Chain

/-! ## Sources -/

/-- The empty tree has no value at any path. -/
theorem Trie.get?_empty {α : Type} (path : Text) : (Trie.empty : Trie α).get? path = none := by
  have hchild (step : Text) : (Trie.empty : Trie α).child? step = none := by
    unfold child?
    cases Step.ofText step <;> simp [empty, any, anyIndex, children, isRecursive, wildcardFor, lookupKey]
  rw [Trie.get?, Trie.find?]
  cases Name.keySteps path with
  | none => rfl
  | some steps =>
      cases steps with
      | nil => rfl
      | cons step steps => rw [Option.bind_some, findSteps, hchild, Option.bind_none, Option.bind_none]

namespace Registry

theorem mem_ranked_ofSources {sources : List Source} {s : RankedSource} (h : s ∈ (ofSources sources).ranked) :
    s.source ∈ sources := by
  obtain ⟨t, ht, heq⟩ := exists_mem_ranked_iff.mp ⟨s, h, rfl⟩
  exact heq ▸ ht

/-- A source answers with its value as it is, and with no problem. -/
theorem value_of_resolve {r : Registry} {n : Text} {a : Record} (h : r.resolve n = some a) :
    ∃ s ∈ r.ranked, ∃ v, s.source.get? n = some v ∧ a.value = some v ∧ a.problems = [] := by
  obtain ⟨v, hrecord, hsupplies⟩ := supplies_of_resolve h
  obtain ⟨s, hs, -, -, -, hv⟩ := hsupplies.held
  exact ⟨s, List.mem_of_getElem? hs, v, hv, congrArg Record.value hrecord, congrArg Record.problems hrecord⟩

theorem resolve_eq_none {sources : List Source} {n : Text} (h : ∀ s ∈ sources, s.get? n = none) :
    (ofSources sources).resolve n = none := by
  cases ha : (ofSources sources).resolve n with
  | none => rfl
  | some a =>
      obtain ⟨s, hs, v, hv, -⟩ := value_of_resolve ha
      rw [h _ (mem_ranked_ofSources hs)] at hv
      cases hv

theorem isPlain_of_resolve {sources : List Source} (h : ∀ s ∈ sources, ∀ n v, s.get? n = some v → '$' ∉ v)
    {n : Text} {a : Record} (ha : (ofSources sources).resolve n = some a) : a.IsPlain := by
  intro t ht
  obtain ⟨s, hs, v, hv, hvalue, -⟩ := value_of_resolve ha
  rw [hvalue, Option.some.injEq] at ht
  exact ht ▸ h _ (mem_ranked_ofSources hs) n v hv

theorem mem_names_ofSources {sources : List Source} {n : Text} :
    n ∈ (ofSources sources).names ↔ ∃ s ∈ sources, n ∈ s.names := by
  rw [names, NameSet.mem_ofList, List.mem_flatMap]
  exact exists_mem_ranked_iff (P := fun s => n ∈ s.names)

/-- Sorting two members puts them in the order in which the first may stand before the second. -/
theorem mergeSort_pair {α : Type} (le : α → α → Bool) (a b : α) :
    [a, b].mergeSort le = if le a b then [a, b] else [b, a] := by
  rw [List.mergeSort]
  simp [List.merge, List.MergeSort.Internal.splitInTwo]

/-- A table with no other source beside it is answered from, with one origin for all names. -/
theorem resolve_table (t : TableSource) (hlines : t.lines = .empty) :
    ∃ o : Origin, ∀ n, (ofSources [.table t, .defaults .empty]).resolve n =
      (t.properties.get? n).map fun v => .ofSource n v o := by
  have hranked : (ofSources [.table t, .defaults .empty]).ranked =
      if RankedSource.before ⟨.table t, t.ordinal, 0⟩ ⟨.defaults .empty, ordinalRange.least, 1⟩ then
        [⟨.table t, t.ordinal, 0⟩, ⟨.defaults .empty, ordinalRange.least, 1⟩]
      else [⟨.defaults .empty, ordinalRange.least, 1⟩, ⟨.table t, t.ordinal, 0⟩] := mergeSort_pair _ _ _
  have htable (i : Nat) (n : Text) : RankedSource.record? ⟨.table t, t.ordinal, 0⟩ i n =
      (t.properties.get? n).map fun v => .ofSource n v ⟨t.name, t.ordinal, i, none⟩ := by
    rw [RankedSource.record?]
    simp [Source.get?, Source.line?, hlines, Source.name]
  have hdefaults (i : Nat) (n : Text) : RankedSource.record? ⟨.defaults .empty, ordinalRange.least, 1⟩ i n = none := by
    rw [RankedSource.record?]
    simp [Source.get?, Trie.get?_empty]
  -- a table of the least ordinal ranks behind the defaults, and answers from the second place
  by_cases hbefore : RankedSource.before ⟨.table t, t.ordinal, 0⟩ ⟨.defaults .empty, ordinalRange.least, 1⟩ = true
  · refine ⟨⟨t.name, t.ordinal, 0, none⟩, fun n => ?_⟩
    simp [resolve, hranked, hbefore, resolveFrom, htable, hdefaults]
  · refine ⟨⟨t.name, t.ordinal, 1, none⟩, fun n => ?_⟩
    simp [resolve, hranked, hbefore, resolveFrom, htable, hdefaults]

/-- A source with no defaults beside it is the only one that reports names. -/
theorem mem_names_beside_empty {s : Source} {n : Text} : n ∈ (ofSources [s, .defaults .empty]).names ↔ n ∈ s.names := by
  have hdefaults : n ∉ (Source.defaults .empty).names := by
    show n ∉ (NameSet.filter _ (Dict.keySet (Trie.flatten .empty))).toList
    rw [NameSet.filter, List.mem_filter]
    exact fun h => absurd h.1 List.not_mem_nil
  rw [mem_names_ofSources]
  simp only [List.mem_cons, List.not_mem_nil, or_false, exists_eq_or_imp, exists_eq_left, hdefaults]

end Registry

/-! ## Parts -/

namespace Parts

/-- Nothing is renamed, nothing is secret, and the active profiles are left to a property. -/
structure OnlySources (p : Parts) : Prop where
  stages : p.stages = []
  relocations : p.relocations = []
  fallbacks : p.fallbacks = []
  secretPatterns : p.secretPatterns = []
  profiles : p.profiles = none

variable {p : Parts} {files : List TableSource}

theorem OnlySources.passes (h : p.OnlySources) : ∀ s ∈ (Chain.ofStages p.stageList).stages, s.Passes := by
  intro s hs
  have hmem : s ∈ p.stageList := List.mem_mergeSort.mp hs
  simp only [stageList, tableStage, h.stages, h.relocations, h.fallbacks, h.secretPatterns, List.isEmpty_nil, if_true,
    List.append_nil, List.nil_append, List.mem_append, List.mem_singleton, List.mem_ite_nil_right] at hmem
  rcases hmem with rfl | ⟨-, rfl⟩
  · trivial
  · trivial

/-- Such a configuration hands on what its sources answer and the names that they report, where the values hold no
references and neither property of the profiles is defined. -/
theorem OnlySources.pipeline_transparent (h : p.OnlySources)
    (hplain : ∀ s ∈ p.sourceList files, ∀ n v, s.get? n = some v → '$' ∉ v)
    (hprofile : ∀ s ∈ p.sourceList files,
      s.get? p.profileProperty = none ∧ s.get? LayeredConfig.profileParentProperty = none) (access : Access) :
    (Config.mk (p.pipeline files) access).value? = (Registry.ofSources (p.sourceList files)).resolve ∧
      (Config.mk (p.pipeline files) access).propertyNames = (Registry.ofSources (p.sourceList files)).names := by
  have hrecords (n : Text) (r : Record) (hr : (Registry.ofSources (p.sourceList files)).resolve n = some r) :
      r.IsPlain := Registry.isPlain_of_resolve hplain hr
  have hinside : ∀ s ∈ ((Chain.ofStages p.stageList).inside Stage.profilePriority).stages, s.Passes :=
    fun s hs => h.passes s ((List.dropWhile_suffix _).subset hs)
  have hlookup : ((Chain.ofStages p.stageList).inside Stage.profilePriority).lookup
      (Registry.ofSources (p.sourceList files)) .locked = (Registry.ofSources (p.sourceList files)).resolve :=
    Chain.lookupIn_of_passes hrecords hinside .locked
  have hprofiles : (p.pipeline files).profiles = [] := by
    show p.activeProfiles _ _ = []
    simp only [activeProfiles, h.profiles, Chain.activeProfiles, Chain.withParentProfile, Chain.listedProfiles,
      hlookup, Registry.resolve_eq_none fun s hs => (hprofile s hs).1]
    show Profile.withParent [] ((Registry.resolve _ _).bind _) = []
    rw [Registry.resolve_eq_none fun s hs => (hprofile s hs).2]
    rfl
  have hall : ∀ s ∈ (p.pipeline files).chain.stages, s.Passes := by
    intro s hs
    rcases List.mem_append.mp hs with hs | hs
    · exact h.passes s ((List.takeWhile_prefix _).subset hs)
    · rcases List.mem_cons.mp hs with rfl | hs
      · exact hprofiles
      · exact hinside s hs
  constructor
  · exact Chain.lookupIn_of_passes hrecords hall access
  · exact Chain.namesIn_of_passes hall

/-- With one source and no defaults such a configuration answers what the source answers and lists what it reports. -/
theorem OnlySources.reads_source (h : p.OnlySources) {s : Source}
    (hsources : p.sourceList files = [s, .defaults .empty]) (hplain : ∀ n v, s.get? n = some v → '$' ∉ v)
    (hprofile : s.get? p.profileProperty = none) (hparent : s.get? LayeredConfig.profileParentProperty = none)
    (access : Access) :
    (Config.mk (p.pipeline files) access).value? = (Registry.ofSources [s, .defaults .empty]).resolve ∧
      ∀ n, n ∈ (Config.mk (p.pipeline files) access).propertyNames ↔ n ∈ s.names := by
  have hplain' : ∀ t ∈ p.sourceList files, ∀ n v, t.get? n = some v → '$' ∉ v := by
    intro t ht n v hv
    rw [hsources] at ht
    rcases List.mem_pair.mp ht with rfl | rfl
    · exact hplain n v hv
    · rw [Source.get?, Trie.get?_empty] at hv
      cases hv
  have hprofile' : ∀ t ∈ p.sourceList files,
      t.get? p.profileProperty = none ∧ t.get? LayeredConfig.profileParentProperty = none := by
    intro t ht
    rw [hsources] at ht
    rcases List.mem_pair.mp ht with rfl | rfl
    · exact ⟨hprofile, hparent⟩
    · exact ⟨Trie.get?_empty _, Trie.get?_empty _⟩
  obtain ⟨hvalue, hnames⟩ := h.pipeline_transparent hplain' hprofile' access
  rw [hvalue, hnames, hsources]
  exact ⟨rfl, fun n => Registry.mem_names_beside_empty⟩

/-- The only source is a table, and there are no defaults. -/
structure OnlyTable (p : Parts) (t : TableSource) : Prop extends OnlySources p where
  sources : p.sources = [.table t]
  files : p.files = []
  environment : p.environment = none
  defaultPairs : p.defaultPairs = []

theorem OnlyTable.sourceList {t : TableSource} (h : p.OnlyTable t) :
    p.sourceList [] = [.table t, .defaults .empty] := by
  simp only [Parts.sourceList, h.sources, h.environment, h.defaultPairs]
  split
  · rfl
  · rfl

/-- Such a configuration answers with the values of the table and lists its names, where the values hold no references
and neither property of the profiles is defined. -/
theorem OnlyTable.reads_table {t : TableSource} (h : p.OnlyTable t) (hlines : t.lines = .empty)
    (hplain : ∀ n v, t.properties.get? n = some v → '$' ∉ v) (hprofile : t.properties.get? p.profileProperty = none)
    (hparent : t.properties.get? profileParentProperty = none) (access : Access) :
    (∃ o : Origin, ∀ n, (Config.mk (p.pipeline []) access).value? n =
      (t.properties.get? n).map fun v => .ofSource n v o) ∧
    (Config.mk (p.pipeline []) access).propertyNames = t.properties.keySet := by
  obtain ⟨hvalue, hnames⟩ := h.toOnlySources.reads_source h.sourceList hplain hprofile hparent access
  refine ⟨?_, NameSet.eq_of_mem_iff hnames⟩
  rw [hvalue]
  exact Registry.resolve_table t hlines

end Parts

end LayeredConfig
