import LayeredConfig.Proofs.Chain.Order
import LayeredConfig.Proofs.Pipeline.Assembly
import LayeredConfig.Proofs.Pipeline.Plain

/-!
# `LayeredConfig.Proofs.Chain.Listing` — a listing holds what the look-ups answer

A stage lists records by a way of its own, beside the one by which it answers for a name. The profile stage looks up
every name that it shows, and a stage that expands references outside it changes a listed record as it changes an
answered one. Every other stage of the library but a relocation lies inside the profile stage, so that the listing of an
assembled configuration is that of its look-ups.

## Contents
- **Stages.** `Chain.ListsAnswers`: the listed records are the answers for the names that are shown. It holds from the
  profile stage on (`Chain.listsAnswers_profile`) and is kept outside it (`Chain.listsAnswers_append`).
- **Configurations.** `Parts.outside_profile` says which stages lie outside; `Parts.records_eq_answers` is the statement
  for both readers.
-/

namespace LayeredConfig

/-! ## Stages -/

namespace Chain

variable {registry : Registry} {access : Access} {inner : List Stage}

/-- The records that stages list are their answers for the names that they show, in the order of the names. -/
def ListsAnswers (registry : Registry) (access : Access) (stages : List Stage) : Prop :=
  valuesIn registry access stages = (namesIn registry stages).toList.filterMap (lookupIn registry access stages)

/-- The profile stage looks up what it lists, whatever lies inside it. -/
theorem listsAnswers_profile (active : List Text) (inner : List Stage) :
    ListsAnswers registry access (.profile active :: inner) := by
  unfold ListsAnswers
  rw [valuesIn]
  rfl

/-- Listed and answered records are expanded in the same way. -/
theorem ListsAnswers.expression (h : ListsAnswers registry access inner) :
    ListsAnswers registry access (.expression :: inner) := by
  unfold ListsAnswers at h ⊢
  show (valuesIn registry access inner).map (Record.expanded (lookupIn registry access inner)) =
    (namesIn registry inner).toList.filterMap fun n =>
      (lookupIn registry access inner n).map (Record.expanded (lookupIn registry access inner))
  rw [h, List.map_filterMap]

/-- Outside a profile stage, expressions and further profile stages keep the listing to the answers. -/
theorem listsAnswers_append {outer : List Stage} (houter : ∀ s ∈ outer, s = .expression ∨ ∃ active, s = .profile active)
    (active : List Text) (inner : List Stage) : ListsAnswers registry access (outer ++ .profile active :: inner) := by
  induction outer with
  | nil => exact listsAnswers_profile active inner
  | cons s outer ih =>
      have hrest := ih fun t ht => houter t (List.mem_cons_of_mem s ht)
      rcases houter s List.mem_cons_self with rfl | ⟨active', rfl⟩
      · exact hrest.expression
      · exact listsAnswers_profile active' _

end Chain

/-- Of the stages of the library only relocations, expressions and profile stages do not lie inside the profile stage. -/
theorem Stage.eq_of_profilePriority_le {s : Stage} (hbuiltin : s.isBuiltin = true)
    (hrelocate : ∀ target, s ≠ .relocate target) (hpriority : profilePriority ≤ s.priority) :
    s = .expression ∨ ∃ active, s = .profile active := by
  cases s with
  | relocate target => exact absurd rfl (hrelocate target)
  | expression => exact Or.inl rfl
  | profile active => exact Or.inr ⟨active, rfl⟩
  | fallback target => exact absurd (show profilePriority ≤ 3600 from hpriority) (by decide)
  | logging => exact absurd (show profilePriority ≤ 3200 from hpriority) (by decide)
  | secret secrets => exact absurd (show profilePriority ≤ 3100 from hpriority) (by decide)
  | custom c => cases hbuiltin

/-! ## Configurations -/

namespace Parts

variable {p : Parts}

theorem ne_relocate_of_mem_stageList (hstages : ∀ s ∈ p.stages, ∀ target, s ≠ .relocate target)
    (hrelocations : p.relocations = []) : ∀ s ∈ p.stageList, ∀ target, s ≠ .relocate target := by
  intro s hs target
  simp only [stageList, tableStage, hrelocations, List.isEmpty_nil, if_true, List.append_nil, List.mem_append,
    List.mem_ite_nil_left, List.mem_ite_nil_right, List.mem_singleton] at hs
  rcases hs with (((hs | rfl) | ⟨-, rfl⟩) | ⟨-, rfl⟩) | ⟨-, rfl⟩
  · exact hstages s hs target
  -- the stages of the library: logging, expressions, secrets and fallbacks
  all_goals exact fun h => by cases h

/-- Where nothing is relocated, only expressions and the application's own profile stages lie outside the profile stage
of a configuration. -/
theorem outside_profile (hbuiltin : ∀ s ∈ p.stages, s.isBuiltin = true)
    (hstages : ∀ s ∈ p.stages, ∀ target, s ≠ .relocate target) (hrelocations : p.relocations = []) :
    ∀ s ∈ (Chain.ofStages p.stageList).outside Stage.profilePriority, s = .expression ∨ ∃ active, s = .profile active := by
  intro s hs
  -- what lies outside was sorted there, and has at least the priority of the profile stage
  have hmem : s ∈ p.stageList := Chain.mem_ofStages.mp ((List.takeWhile_prefix _).subset hs)
  exact Stage.eq_of_profilePriority_le (isBuiltin_stageList hbuiltin s hmem)
    (ne_relocate_of_mem_stageList hstages hrelocations s hmem) (Chain.le_priority_of_mem_outside hs)

/-- **A listing holds what the look-ups answer.** In a configuration of library stages without relocations, a reader who
may see secrets and one who may not are both listed the records that they get for the names shown to them, in the order
of the names, where a name without record is left out. -/
theorem records_eq_answers (p : Parts) (reader : Reader) (dir : Directory) (c : Config)
    (hbuiltin : ∀ s ∈ p.stages, s.isBuiltin = true) (hstages : ∀ s ∈ p.stages, ∀ target, s ≠ .relocate target)
    (hrelocations : p.relocations = []) (hc : p.assemble reader dir = .ok c) :
    c.access = .locked ∧ c.records = c.propertyNames.toList.filterMap c.value? ∧
      c.unlocked.records = c.unlocked.propertyNames.toList.filterMap c.unlocked.value? := by
  obtain ⟨files, -, rfl⟩ := exists_files_of_assemble hc
  have hlists (access : Access) :
      Chain.ListsAnswers (p.pipeline files).registry access (p.pipeline files).chain.stages :=
    Chain.listsAnswers_append (outside_profile hbuiltin hstages hrelocations) _ _
  exact ⟨rfl, hlists .locked, hlists .unlocked⟩

/-- A reference to a name that a profile overlays, and a secret that only one of the two readers sees. -/
theorem records_eq_answers_overlaid :
    let t : TableSource := .ofProperties "app".toList (.ofPairs [("a".toList, "$\x7bb\x7d".toList), ("b".toList, "1".toList),
      ("%dev.b".toList, "2".toList), ("key".toList, "k".toList)])
    let p : Parts := { Parts.empty with
      sources := [.table t], profiles := some ["dev".toList], secretPatterns := ["key".toList] }
    let c : Config := ⟨p.pipeline [], .locked⟩
    (∀ s ∈ p.stages, s.isBuiltin = true) ∧ (∀ s ∈ p.stages, ∀ target, s ≠ .relocate target) ∧ p.relocations = [] ∧
      p.assemble .ofNotations .empty = .ok c ∧
      (c.propertyNames.toList.filterMap c.value?).map (fun r => (r.name, r.value)) =
        [("a".toList, some "2".toList), ("b".toList, some "2".toList), ("key".toList, none)] ∧
      c.access = .locked ∧ c.records = c.propertyNames.toList.filterMap c.value? ∧
      c.unlocked.records = c.unlocked.propertyNames.toList.filterMap c.unlocked.value? := by
  intro t p c
  have hbuiltin : ∀ s ∈ p.stages, s.isBuiltin = true := by simp [p, Parts.empty]
  have hstages : ∀ s ∈ p.stages, ∀ target, s ≠ .relocate target := by simp [p, Parts.empty]
  -- sorting does not evaluate: the ranked sources and the ordered stages are written out first
  have hregistry : Registry.ofSources (p.sourceList []) =
      ⟨[⟨.table t, t.ordinal, 0⟩, ⟨.defaults .empty, ordinalRange.least, 1⟩]⟩ :=
    congrArg Registry.mk (Registry.mergeSort_pair _ _ _)
  have hchain : Chain.ofStages p.stageList = ⟨[.expression, .logging, .secret (.ofPatterns ["key".toList])]⟩ := by
    simp [Chain.ofStages, p, Parts.empty, stageList, tableStage, List.mergeSort, List.MergeSort.Internal.splitInTwo,
      Stage.priority]
  have hrecords : (c.propertyNames.toList.filterMap c.value?).map (fun r => (r.name, r.value)) =
      [("a".toList, some "2".toList), ("b".toList, some "2".toList), ("key".toList, none)] := by
    unfold c pipeline
    rw [hregistry, hchain]
    decide +kernel
  exact ⟨hbuiltin, hstages, rfl, rfl, hrecords, records_eq_answers p .ofNotations .empty c hbuiltin hstages rfl rfl⟩

end Parts

end LayeredConfig
