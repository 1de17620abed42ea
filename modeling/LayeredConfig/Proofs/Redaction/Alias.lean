import LayeredConfig.Proofs.Chain.Listing
import LayeredConfig.Proofs.Chain.Overlay
import LayeredConfig.Proofs.Chain.Soundness
import LayeredConfig.Proofs.Redaction.Assembly

/-!
# `LayeredConfig.Proofs.Redaction.Alias` — secrets that a source knows by several names

Secrecy is decided by the name that is asked for. A source may answer many names with one value, as an environment does
with all spellings of a variable. It gives the value of a secret name away under every one of them that is not secret
itself, and under no other name.

## Contents
- **Names.** `SecretSet.contains_qualified`, and `Stage.KeepsNames` for the stages that answer a name by itself or by
  its spelling under a profile.
- **Texts.** A raw text that a locked reader sees was supplied under a name that is not secret (`Parts.shownOff`).
- **Veils.** `Chain.Seen` says what a locked reader gets for a name, one stage after another (`Chain.seen_cons`).
- **Variables.** `Registry.SameVariable`, `Config.Veils`, and `Parts.variables_veiled_iff` for the environments of a
  configuration.
-/

namespace LayeredConfig

open Text Name Environment

/-! ## Names -/

/-- The qualifier of a profile without a dot does not count. -/
theorem SecretSet.contains_qualified (set : SecretSet) {q n : Text} (hq : '.' ∉ q) (hn : n.head? ≠ some '%') :
    set.contains (Profile.qualified q n) = set.contains n := by
  have hqualified : unprofiled (Profile.qualified q n) = n := by
    have hname : Profile.qualified q n = '%' :: (q ++ '.' :: n) := by simp [Profile.qualified, Profile.qualifier]
    rw [hname, unprofiled, cut_append hq]
  have hplain : unprofiled n = n := by
    unfold unprofiled
    split
    · exact absurd rfl hn
    · rfl
  rw [contains, contains, hqualified, hplain]

/-- A stage that answers a name by itself, or by its spelling under a profile whose name has no dot. -/
def Stage.KeepsNames : Stage → Prop
  | relocate _ => False
  | fallback _ => False
  | custom _ => False
  | profile active => ∀ q ∈ active, '.' ∉ q
  | _ => True

/-- Whether one of some stages takes out the values of a name. -/
def Chain.Hides (stages : List Stage) (n : Text) : Prop := ∃ set, Stage.secret set ∈ stages ∧ set.contains n = true

theorem Chain.hides_cons {s : Stage} {stages : List Stage} {n : Text} :
    Hides (s :: stages) n ↔ (∃ set, Stage.secret set = s ∧ set.contains n = true) ∨ Hides stages n := by
  simp only [Hides, List.mem_cons, or_and_right, exists_or]

/-- Expansion changes the processed value and the problems alone, and makes no value where there was none. -/
theorem Record.exists_expanded_eq (r : Record) (lookup : Text → Option Record) :
    ∃ v ps, r.expanded lookup = { r with value := v, problems := ps } ∧ (r.value = none → v = none) := by
  unfold expanded
  cases hexpansion : r.expansion lookup with
  | none => exact ⟨r.value, r.problems, rfl, id⟩
  | some e =>
      obtain ⟨t, ht⟩ := exists_value_of_expansion hexpansion
      have hvalue (v : Option Text) : r.value = none → v = none := by
        intro hnone
        rw [hnone] at ht
        cases ht
      dsimp only
      split
      · exact ⟨some e.1, r.problems, rfl, hvalue _⟩
      · exact ⟨none, r.problems ++ e.2.problems, rfl, hvalue _⟩

/-! ## Texts -/

/-- A raw text that the record has is the one that its source supplies under a name that is not hidden. -/
def Record.ShownOff (registry : Registry) (hidden : Text → Prop) (r : Record) : Prop :=
  ∀ text, r.rawValue = some text → ∃ n, registry.Supplies r.origin n text ∧ ¬ hidden n

theorem Record.stable_shownOff (registry : Registry) (hidden : Text → Prop) :
    Record.Stable (Record.ShownOff registry hidden) where
  withName _ h := h
  withProfile _ h := h
  redacted _ := by
    intro text htext
    cases htext
  expanded {r} lookup h := by
    obtain ⟨v, ps, heq, -⟩ := r.exists_expanded_eq lookup
    rw [heq]
    exact h

namespace Chain

variable {registry : Registry}

/-- What secret stages alone show of a name: its record, with a raw text only where no stage hides the name. -/
theorem shown_of_secrets {sets : List SecretSet} {n : Text} {r : Record}
    (h : lookupIn registry .locked (sets.map .secret) n = some r) :
    r.name = n ∧ ∀ text, r.rawValue = some text → registry.Supplies r.origin n text ∧ ¬ Hides (sets.map .secret) n := by
  induction sets generalizing r with
  | nil =>
      obtain ⟨v, hr, hsupplies⟩ := Registry.supplies_of_resolve h
      refine ⟨congrArg Record.name hr, fun text htext => ⟨?_, by simp [Hides]⟩⟩
      have hraw : some v = some text := (congrArg Record.rawValue hr).symm.trans htext
      exact Option.some.inj hraw ▸ hsupplies
  | cons set sets ih =>
      obtain ⟨a, ha, rfl⟩ := Option.map_eq_some_iff.mp h
      obtain ⟨hname, hshown⟩ := ih ha
      by_cases hset : Stage.hides set .locked n = true
      · rw [if_pos hset]
        exact ⟨hname, fun text htext => by cases htext⟩
      · rw [if_neg hset]
        refine ⟨hname, fun text htext => ⟨(hshown text htext).1, ?_⟩⟩
        rw [List.map_cons, hides_cons]
        rintro (⟨set', heq, hcontains⟩ | hinner)
        · obtain rfl := Stage.secret.inj heq
          exact hset hcontains
        · exact (hshown text htext).2 hinner

/-- They list what they answer. -/
theorem listsAnswers_secrets (sets : List SecretSet) : ListsAnswers registry .locked (sets.map .secret) := by
  induction sets with
  | nil => rfl
  | cons set sets ih =>
      unfold ListsAnswers at ih ⊢
      show (valuesIn registry .locked (sets.map .secret)).map _ = (namesIn registry (sets.map .secret)).toList.filterMap _
      rw [ih, List.map_filterMap]
      refine List.filterMap_congr fun n _ => ?_
      show (lookupIn registry .locked (sets.map .secret) n).map _ = (lookupIn registry .locked (sets.map .secret) n).map _
      cases ha : lookupIn registry .locked (sets.map .secret) n with
      | none => rfl
      | some a => rw [Option.map_some, Option.map_some, (shown_of_secrets ha).1]

end Chain

namespace Parts

variable {p : Parts} {files : List TableSource}

/-- The stages of a configuration end in its secret stages. -/
theorem exists_secrets_pipeline (files : List TableSource) (hbuiltin : ∀ s ∈ p.stages, s.isBuiltin = true) :
    ∃ (outer : List Stage) (sets : List SecretSet), (p.pipeline files).chain.stages = outer ++ sets.map .secret ∧
      (∀ s ∈ outer, s.isBuiltin = true) ∧ ∀ n, p.IsSecret n → Chain.Hides (sets.map .secret) n := by
  have hlist := isBuiltin_stageList hbuiltin
  have hsorted : ∀ s ∈ (Chain.ofStages p.stageList).stages, s.isBuiltin = true :=
    fun s hs => hlist s (Chain.mem_ofStages.mp hs)
  obtain ⟨outer, sets, hchain, hsets⟩ := Chain.stages_ofStages hlist
  obtain ⟨between, hinside⟩ := Chain.inside_profile hchain
  have hbetween : ∀ s ∈ between, s.isBuiltin = true := by
    intro s hs
    have hmem : s ∈ ((Chain.ofStages p.stageList).inside Stage.profilePriority).stages :=
      hinside ▸ List.mem_append_left _ hs
    exact hsorted s ((List.dropWhile_suffix _).subset hmem)
  refine ⟨(Chain.ofStages p.stageList).outside Stage.profilePriority ++
    .profile (p.pipeline files).profiles :: between, sets, ?_, ?_, ?_⟩
  · show (Chain.ofStages p.stageList).outside Stage.profilePriority ++
      .profile (p.pipeline files).profiles :: ((Chain.ofStages p.stageList).inside Stage.profilePriority).stages = _
    rw [hinside, List.append_assoc, List.cons_append]
  · intro s hs
    rcases List.mem_append.mp hs with hs | hs
    · exact hsorted s ((List.takeWhile_prefix _).subset hs)
    · rcases List.mem_cons.mp hs with rfl | hs
      · rfl
      · exact hbetween s hs
  · rintro n ⟨set, hset, hn⟩
    exact ⟨set, List.mem_map_of_mem (hsets set hset), hn⟩

/-- A locked reader sees the raw text of a source only under a name that is not secret, however names are renamed on the
way. -/
theorem shownOff (files : List TableSource) (hbuiltin : ∀ s ∈ p.stages, s.isBuiltin = true) :
    (∀ n r, (Config.mk (p.pipeline files) .locked).value? n = some r → r.ShownOff (p.pipeline files).registry p.IsSecret) ∧
      ∀ r ∈ (Config.mk (p.pipeline files) .locked).records, r.ShownOff (p.pipeline files).registry p.IsSecret := by
  obtain ⟨outer, sets, hstages, houter, hsecret⟩ := exists_secrets_pipeline files hbuiltin
  have hinside (n : Text) (r : Record)
      (h : Chain.lookupIn (p.pipeline files).registry .locked (sets.map .secret) n = some r) :
      r.ShownOff (p.pipeline files).registry p.IsSecret := by
    intro text htext
    obtain ⟨hsupplies, hshown⟩ := (Chain.shown_of_secrets h).2 text htext
    exact ⟨n, hsupplies, fun hn => hshown (hsecret n hn)⟩
  have hlisted (r : Record) (h : r ∈ Chain.valuesIn (p.pipeline files).registry .locked (sets.map .secret)) :
      r.ShownOff (p.pipeline files).registry p.IsSecret := by
    rw [Chain.listsAnswers_secrets] at h
    obtain ⟨n, -, hn⟩ := List.mem_filterMap.mp h
    exact hinside n r hn
  have hstable := Record.stable_shownOff (p.pipeline files).registry p.IsSecret
  constructor
  · intro n r h
    have hlookup : Chain.lookupIn (p.pipeline files).registry .locked (p.pipeline files).chain.stages n = some r := h
    rw [hstages] at hlookup
    exact Chain.lookupIn_append_stable hstable hinside houter n r hlookup
  · intro r h
    have hvalues : r ∈ Chain.valuesIn (p.pipeline files).registry .locked (p.pipeline files).chain.stages := h
    rw [hstages] at hvalues
    exact Chain.valuesIn_append_stable hstable hinside hlisted houter r hvalues

end Parts

/-! ## Veils -/

namespace Chain

variable {registry : Registry} {s : Stage} {stages : List Stage} {n : Text} {r : Record}

/-- What a locked reader gets for a name where no stage renames: a record of the name, which has lost its values exactly
when the name is hidden. The spelling under which it was found has a record of the same source, and is hidden like the
name. -/
structure Seen (registry : Registry) (stages : List Stage) (n : Text) (r : Record) : Prop where
  name : r.name = n
  raw : r.rawValue = none ↔ Hides stages n
  value : r.rawValue = none → r.value = none
  spelled : ∃ a, lookupIn registry .locked stages r.profiledName = some a ∧ a.origin = r.origin
  alike : ∀ set : SecretSet, set.contains r.profiledName = set.contains n

theorem seen_nil (h : registry.resolve n = some r) : Seen registry [] n r := by
  obtain ⟨v, hr, -⟩ := Registry.supplies_of_resolve h
  have hname : r.name = n := congrArg Record.name hr
  have hraw : r.rawValue = some v := congrArg Record.rawValue hr
  have hspelled : r.profiledName = n := by
    have hprofile : r.profile = none := congrArg Record.profile hr
    rw [Record.profiledName, hprofile]
    exact hname
  exact ⟨hname, by simp [hraw, Hides], by simp [hraw], ⟨r, hspelled.symm ▸ h, rfl⟩, fun set => by rw [hspelled]⟩

theorem hides_cons_of_ne (hs : ∀ set, s ≠ .secret set) : Hides (s :: stages) n ↔ Hides stages n := by
  rw [hides_cons]
  refine ⟨fun h => h.resolve_left ?_, Or.inr⟩
  rintro ⟨set, heq, -⟩
  exact hs set heq.symm

/-- The profile stage answers with a record that was found under the name, or under the name with a profile. -/
theorem Seen.profile {active : List Text} (hactive : ∀ q ∈ active, '.' ∉ q)
    (hinner : ∀ n r, lookupIn registry .locked stages n = some r → Seen registry stages n r)
    (h : lookupIn registry .locked (.profile active :: stages) n = some r) :
    Seen registry (.profile active :: stages) n r := by
  have hhides : Hides (.profile active :: stages) n ↔ Hides stages n := hides_cons_of_ne fun set => by simp
  have hpercent (m : Text) (hm : m.head? = some '%') :
      lookupIn registry .locked (.profile active :: stages) m = lookupIn registry .locked stages m :=
    Stage.overlaid_profiled hm
  rcases Stage.overlaid_cases h with hplain | ⟨hhead, q, hq, a, ha, rfl⟩
  · obtain ⟨hname, hraw, hvalue, hspelled, halike⟩ := hinner n r hplain
    refine ⟨hname, hraw.trans hhides.symm, hvalue, ?_, halike⟩
    -- either the record has a profile already, and is found under it past this stage, or its spelling is the name
    cases hprofile : r.profile with
    | some q =>
        have hm : r.profiledName.head? = some '%' := by
          rw [Record.profiledName, hprofile]
          rfl
        rw [hpercent _ hm]
        exact hspelled
    | none =>
        have hm : r.profiledName = n := by
          rw [Record.profiledName, hprofile]
          exact hname
        exact ⟨r, hm.symm ▸ h, rfl⟩
  -- the spelling under the profile is hidden exactly when the name is
  · obtain ⟨-, hraw, hvalue, -, -⟩ := hinner _ a ha
    have hm : ((a.withName n).withProfile q).profiledName = Profile.qualified q n := by
      simp [Record.profiledName, Record.withProfile, Record.withName, Profile.qualified, Profile.qualifier]
    have hqualified : Hides stages (Profile.qualified q n) ↔ Hides stages n := by
      simp only [Hides, SecretSet.contains_qualified _ (hactive q hq) hhead]
    refine ⟨rfl, hraw.trans (hqualified.trans hhides.symm), hvalue, ⟨a, ?_, rfl⟩, fun set => ?_⟩
    · rw [hm, hpercent _ rfl]
      exact ha
    · rw [hm, SecretSet.contains_qualified set (hactive q hq) hhead]

/-- A secret stage takes the values out of the records of its names. -/
theorem Seen.secret (set : SecretSet)
    (hinner : ∀ n r, lookupIn registry .locked stages n = some r → Seen registry stages n r)
    (h : lookupIn registry .locked (.secret set :: stages) n = some r) :
    Seen registry (.secret set :: stages) n r := by
  have hhides : Hides (.secret set :: stages) n ↔ set.contains n = true ∨ Hides stages n := by
    rw [hides_cons]
    simp
  obtain ⟨a, ha, rfl⟩ := Option.map_eq_some_iff.mp h
  obtain ⟨hname, hraw, hvalue, ⟨b, hb, horigin⟩, halike⟩ := hinner n a ha
  -- taking the values out leaves the source of a record as it is
  have hfound : ∃ b', lookupIn registry .locked (.secret set :: stages) a.profiledName = some b' ∧
      b'.origin = a.origin := by
    show ∃ b', (lookupIn registry .locked stages a.profiledName).map _ = some b' ∧ _
    rw [hb]
    refine ⟨_, rfl, ?_⟩
    split
    · exact horigin
    · exact horigin
  by_cases hset : Stage.hides set .locked n = true
  · rw [if_pos hset]
    exact ⟨hname, ⟨fun _ => hhides.mpr (Or.inl hset), fun _ => rfl⟩, fun _ => rfl, hfound, halike⟩
  · rw [if_neg hset]
    have hset' : ¬ set.contains n = true := hset
    exact ⟨hname, by rw [hraw, hhides, or_iff_right hset'], hvalue, hfound, halike⟩

/-- One more stage around those inside. -/
theorem seen_cons (hs : s.KeepsNames)
    (hinner : ∀ n r, lookupIn registry .locked stages n = some r → Seen registry stages n r)
    (h : lookupIn registry .locked (s :: stages) n = some r) : Seen registry (s :: stages) n r := by
  cases s with
  | relocate target => exact hs.elim
  | fallback target => exact hs.elim
  | custom c => exact hs.elim
  | logging =>
      obtain ⟨hname, hraw, hvalue, hspelled, halike⟩ := hinner n r h
      exact ⟨hname, hraw.trans (hides_cons_of_ne fun set => by simp).symm, hvalue, hspelled, halike⟩
  | expression =>
      obtain ⟨a, ha, rfl⟩ := Option.map_eq_some_iff.mp h
      obtain ⟨hname, hraw, hvalue, ⟨b, hb, horigin⟩, halike⟩ := hinner n a ha
      obtain ⟨v, ps, heq, hv⟩ := a.exists_expanded_eq (lookupIn registry .locked stages)
      obtain ⟨w, qs, heq', -⟩ := b.exists_expanded_eq (lookupIn registry .locked stages)
      have hfound : ∃ b', lookupIn registry .locked (.expression :: stages) a.profiledName = some b' ∧
          b'.origin = a.origin := by
        show ∃ b', (lookupIn registry .locked stages a.profiledName).map _ = some b' ∧ _
        rw [hb, Option.map_some, heq']
        exact ⟨_, rfl, horigin⟩
      rw [heq]
      exact ⟨hname, hraw.trans (hides_cons_of_ne fun set => by simp).symm, fun hnone => hv (hvalue hnone), hfound, halike⟩
  | profile active => exact Seen.profile hs hinner h
  | secret set => exact Seen.secret set hinner h

theorem seen_of_lookupIn (hstages : ∀ s ∈ stages, s.KeepsNames) (h : lookupIn registry .locked stages n = some r) :
    Seen registry stages n r := by
  induction stages generalizing n r with
  | nil => exact seen_nil h
  | cons s stages ih =>
      have hinner (n : Text) (r : Record) := ih (n := n) (r := r) fun t ht => hstages t (List.mem_cons_of_mem s ht)
      exact seen_cons (hstages s List.mem_cons_self) hinner h

end Chain

namespace Parts

variable {p : Parts} {files : List TableSource}

theorem mem_pipeline_stages {s : Stage} : s ∈ (p.pipeline files).chain.stages ↔
    s = .profile (p.pipeline files).profiles ∨ s ∈ p.stageList := by
  show s ∈ ((Chain.ofStages p.stageList).insert (.profile (p.pipeline files).profiles)).stages ↔ _
  rw [Chain.mem_insert]
  exact or_congr_right Chain.mem_ofStages

theorem hides_pipeline_iff {n : Text} : Chain.Hides (p.pipeline files).chain.stages n ↔ p.IsSecret n := by
  simp only [Chain.Hides, IsSecret, mem_pipeline_stages, reduceCtorEq, false_or]

theorem keepsNames_pipeline (hstages : ∀ s ∈ p.stages, s.KeepsNames) (hrelocations : p.relocations = [])
    (hfallbacks : p.fallbacks = []) (hprofiles : ∀ q ∈ (p.pipeline files).profiles, '.' ∉ q) :
    ∀ s ∈ (p.pipeline files).chain.stages, s.KeepsNames := by
  intro s hs
  rcases mem_pipeline_stages.mp hs with rfl | hs
  · exact hprofiles
  · simp only [stageList, tableStage, hrelocations, hfallbacks, List.isEmpty_nil, if_true, List.append_nil,
      List.mem_append, List.mem_ite_nil_left, List.mem_ite_nil_right, List.mem_singleton] at hs
    rcases hs with ((hs | rfl) | ⟨-, rfl⟩) | ⟨-, rfl⟩
    · exact hstages s hs
    all_goals trivial

/-- A listed record is the answer for some name. -/
theorem exists_value?_of_mem_records {r : Record} (hbuiltin : ∀ s ∈ p.stages, s.isBuiltin = true)
    (hstages : ∀ s ∈ p.stages, s.KeepsNames) (hrelocations : p.relocations = [])
    (hr : r ∈ (Config.mk (p.pipeline files) .locked).records) :
    ∃ n, (Config.mk (p.pipeline files) .locked).value? n = some r := by
  have hrelocate : ∀ s ∈ p.stages, ∀ target, s ≠ .relocate target := by
    rintro s hs target rfl
    exact hstages _ hs
  have hlists : Chain.ListsAnswers (p.pipeline files).registry .locked (p.pipeline files).chain.stages :=
    Chain.listsAnswers_append (outside_profile hbuiltin hrelocate hrelocations) _ _
  have hlisted : r ∈ Chain.valuesIn (p.pipeline files).registry .locked (p.pipeline files).chain.stages := hr
  rw [hlists] at hlisted
  obtain ⟨n, -, hn⟩ := List.mem_filterMap.mp hlisted
  exact ⟨n, hn⟩

section KeptNames

variable (hkeeps : ∀ s ∈ (p.pipeline files).chain.stages, s.KeepsNames) {n : Text} {r : Record}
include hkeeps

theorem seen_of_value? (h : (Config.mk (p.pipeline files) .locked).value? n = some r) :
    Chain.Seen (p.pipeline files).registry (p.pipeline files).chain.stages n r := Chain.seen_of_lookupIn hkeeps h

/-- The raw texts that a locked reader does not get are those of the secret names. -/
theorem rawValue_eq_none_iff (h : (Config.mk (p.pipeline files) .locked).value? n = some r) :
    r.rawValue = none ↔ p.IsSecret n := (seen_of_value? hkeeps h).raw.trans hides_pipeline_iff

theorem veiled_of_isSecret (h : (Config.mk (p.pipeline files) .locked).value? n = some r) (hn : p.IsSecret n) :
    r.value = none ∧ r.rawValue = none := by
  have hraw := (rawValue_eq_none_iff hkeeps h).mpr hn
  exact ⟨(seen_of_value? hkeeps h).value hraw, hraw⟩

end KeptNames

end Parts

/-! ## Variables -/

/-- The environment at a place among the ranked sources answers two names with one variable. -/
def Registry.SameVariable (registry : Registry) (place : Nat) (key n m : Text) : Prop :=
  ∃ s e, registry.ranked[place]? = some s ∧ s.source = .environment e ∧ keyFor? e.vars n = some key ∧
    keyFor? e.vars m = some key

theorem Registry.SameVariable.trans {registry : Registry} {place : Nat} {key n m l : Text}
    (h : registry.SameVariable place key n m) (h' : registry.SameVariable place key m l) :
    registry.SameVariable place key n l := by
  obtain ⟨s, e, hs, he, hn, -⟩ := h
  obtain ⟨s', e', hs', he', -, hl⟩ := h'
  obtain rfl := Option.some.inj (hs.symm.trans hs')
  obtain rfl := Source.environment.inj (he.symm.trans he')
  exact ⟨s, e, hs, he, hn, hl⟩

/-- A reader gets no value of a variable from the source at a place: not in answer to a name of the variable, and not
in a listing under any of its names. -/
def Config.Veils (c : Config) (place : Nat) (key m : Text) : Prop :=
  (∀ r, c.value? m = some r → r.origin.position = place → r.value = none ∧ r.rawValue = none) ∧
    ∀ r ∈ c.records, r.origin.position = place → c.pipeline.registry.SameVariable place key m r.profiledName →
      r.value = none ∧ r.rawValue = none

namespace Parts

/-- **A variable is as secret as each of its names.** In a configuration of library stages, a raw text that a locked
reader sees was supplied under some name that is not secret. Where no stage renames, the variables of secret names are
veiled under all their names exactly if every name for which the reader gets such a variable is secret itself. -/
theorem variables_veiled_iff (p : Parts) (reader : Reader) (dir : Directory) (c : Config)
    (hbuiltin : ∀ s ∈ p.stages, s.isBuiltin = true) (hc : p.assemble reader dir = .ok c) :
    (∀ r, (∃ n, c.value? n = some r) ∨ r ∈ c.records → ∀ text, r.rawValue = some text →
      ∃ n, c.pipeline.registry.Supplies r.origin n text ∧ ¬ p.IsSecret n) ∧
    ((∀ s ∈ p.stages, s.KeepsNames) → p.relocations = [] → p.fallbacks = [] → (∀ q ∈ c.pipeline.profiles, '.' ∉ q) →
      ((∀ place key n m, p.IsSecret n → c.pipeline.registry.SameVariable place key n m → c.Veils place key m) ↔
        ∀ place key n m r, p.IsSecret n → c.pipeline.registry.SameVariable place key n m → c.value? m = some r →
          r.origin.position = place → p.IsSecret m)) := by
  obtain ⟨files, -, rfl⟩ := exists_files_of_assemble hc
  obtain ⟨hanswers, hlisted⟩ := shownOff files hbuiltin
  constructor
  · rintro r (⟨n, hn⟩ | hr)
    · exact hanswers n r hn
    · exact hlisted r hr
  · intro hstages hrelocations hfallbacks hprofiles
    have hkeeps := keepsNames_pipeline hstages hrelocations hfallbacks hprofiles
    constructor
    · intro hveils place key n m r hsecret hsame hr hplace
      have hraw := ((hveils place key n m hsecret hsame).1 r hr hplace).2
      exact (rawValue_eq_none_iff hkeeps hr).mp hraw
    · intro hnames place key n m hsecret hsame
      refine ⟨fun r hr hplace => veiled_of_isSecret hkeeps hr (hnames place key n m r hsecret hsame hr hplace), ?_⟩
      intro r hr hplace hspelled
      -- a listed record is the answer for its name, and was found under a spelling of it that names the variable
      obtain ⟨l, hl⟩ := exists_value?_of_mem_records hbuiltin hstages hrelocations hr
      obtain ⟨a, ha, horigin⟩ := (seen_of_value? hkeeps hl).spelled
      obtain ⟨set, hset, hcontains⟩ :=
        hnames place key n r.profiledName a hsecret (hsame.trans hspelled) ha (horigin ▸ hplace)
      rw [(seen_of_value? hkeeps hl).alike] at hcontains
      exact veiled_of_isSecret hkeeps hl ⟨set, hset, hcontains⟩

/-- A secret of a profile, which the key of its variable does not hide. -/
theorem variables_veiled_iff_profiled :
    let e : EnvironmentSource := .ofVariables (.ofPairs [("_DEV_TOKEN".toList, "t".toList)])
    let p : Parts := { Parts.empty with
      environment := some e, profiles := some ["dev".toList], secretPatterns := ["token".toList] }
    let c : Config := ⟨p.pipeline [], .locked⟩
    let r : Record := .ofSource "_DEV_TOKEN".toList "t".toList ⟨e.name, 300, 0, none⟩
    (∀ s ∈ p.stages, s.isBuiltin = true) ∧ p.assemble .ofNotations .empty = .ok c ∧ c.value? "_DEV_TOKEN".toList = some r ∧
      (∃ n, c.pipeline.registry.Supplies r.origin n "t".toList ∧ ¬ p.IsSecret n) ∧
      ¬ ∀ place key n m, p.IsSecret n → c.pipeline.registry.SameVariable place key n m → c.Veils place key m := by
  intro e p c r
  have hbuiltin : ∀ s ∈ p.stages, s.isBuiltin = true := by simp [p, Parts.empty]
  have hregistry : Registry.ofSources (p.sourceList []) =
      ⟨[⟨.environment e, 300, 0⟩, ⟨.defaults .empty, ordinalRange.least, 1⟩]⟩ :=
    congrArg Registry.mk (Registry.mergeSort_pair _ _ _)
  have hchain := ofStages_stageList_secrets (p := p) rfl rfl rfl rfl (List.cons_ne_nil _ _)
  have hvalue : c.value? "_DEV_TOKEN".toList = some r := by
    unfold c pipeline
    rw [hregistry, hchain]
    decide +kernel
  have hprofiles : ∀ q ∈ c.pipeline.profiles, '.' ∉ q := by
    show ∀ q ∈ p.activeProfiles _ _, '.' ∉ q
    rw [hregistry, hchain]
    decide +kernel
  have hsecret (n : Text) : p.IsSecret n ↔ (SecretSet.ofPatterns ["token".toList]).contains n = true :=
    isSecret_iff_contains (by simp [p, Parts.empty]) n
  have hsame : c.pipeline.registry.SameVariable 0 "_DEV_TOKEN".toList "%dev.token".toList "_DEV_TOKEN".toList := by
    refine ⟨⟨.environment e, 300, 0⟩, e, ?_, rfl, by decide +kernel, by decide +kernel⟩
    show (Registry.ofSources (p.sourceList [])).ranked[0]? = _
    rw [hregistry]
    rfl
  obtain ⟨hshown, hiff⟩ := variables_veiled_iff p .ofNotations .empty c hbuiltin rfl
  refine ⟨hbuiltin, rfl, hvalue, hshown r (Or.inl ⟨_, hvalue⟩) _ rfl, fun hveiled => ?_⟩
  have hkeeps : ∀ s ∈ p.stages, s.KeepsNames := by simp [p, Parts.empty]
  have hnames := (hiff hkeeps rfl rfl hprofiles).mp hveiled 0 _ _ _ r ((hsecret _).mpr (by decide +kernel)) hsame hvalue rfl
  rw [hsecret] at hnames
  exact absurd hnames (by decide +kernel)

/-- A secret whose variable is read under its own key, and listed with its value. -/
theorem variable_shown_by_key :
    let e : EnvironmentSource := .ofVariables (.ofPairs [("DB_PASSWORD".toList, "hunter2".toList)])
    let p : Parts := { Parts.empty with environment := some e, secretPatterns := ["db.password".toList] }
    let c : Config := ⟨p.pipeline [], .locked⟩
    p.assemble .ofNotations .empty = .ok c ∧ p.IsSecret "db.password".toList ∧
      c.pipeline.registry.SameVariable 0 "DB_PASSWORD".toList "db.password".toList "DB_PASSWORD".toList ∧
      (∃ r ∈ c.records, c.value? "DB_PASSWORD".toList = some r ∧ r.origin.position = 0 ∧
        r.value = some "hunter2".toList ∧ r.rawValue = some "hunter2".toList) ∧
      ¬ ∀ place key n m, p.IsSecret n → c.pipeline.registry.SameVariable place key n m → c.Veils place key m := by
  intro e p c
  have hregistry : Registry.ofSources (p.sourceList []) =
      ⟨[⟨.environment e, 300, 0⟩, ⟨.defaults .empty, ordinalRange.least, 1⟩]⟩ :=
    congrArg Registry.mk (Registry.mergeSort_pair _ _ _)
  have hchain := ofStages_stageList_secrets (p := p) rfl rfl rfl rfl (List.cons_ne_nil _ _)
  have hsecret : p.IsSecret "db.password".toList :=
    (isSecret_iff_contains (by simp [p, Parts.empty]) _).mpr (by decide +kernel)
  have hsame : c.pipeline.registry.SameVariable 0 "DB_PASSWORD".toList "db.password".toList "DB_PASSWORD".toList := by
    refine ⟨⟨.environment e, 300, 0⟩, e, ?_, rfl, by decide +kernel, by decide +kernel⟩
    show (Registry.ofSources (p.sourceList [])).ranked[0]? = _
    rw [hregistry]
    rfl
  let r : Record := .ofSource "DB_PASSWORD".toList "hunter2".toList ⟨e.name, 300, 0, none⟩
  have hvalue : c.value? "DB_PASSWORD".toList = some r := by
    unfold c pipeline
    rw [hregistry, hchain]
    decide +kernel
  have hlisted : r ∈ c.records := by
    unfold c pipeline
    rw [hregistry, hchain]
    decide +kernel
  refine ⟨rfl, hsecret, hsame, ⟨r, hlisted, hvalue, rfl, rfl, rfl⟩, fun hveiled => ?_⟩
  have hnone := ((hveiled 0 _ _ _ hsecret hsame).1 r hvalue rfl).1
  exact absurd hnone (by decide)

end Parts

end LayeredConfig
