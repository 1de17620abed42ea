import LayeredConfig.Chain
import LayeredConfig.Proofs.Dict
import LayeredConfig.Proofs.Registry
import Mathlib.Data.List.Forall2
import Mathlib.Data.Option.Basic

/-!
# `LayeredConfig.Proofs.Redaction.View` — what a locked reader sees of two sets of sources

Two sets of sources may differ in the values of hidden names and in nothing else. The stages that take out secret
values turn this agreement into equality, and behind them every other stage sees the same of both.

## Contents
- **Records.** `Record.Agrees`: the same record, or the same but for its values where the name is hidden.
- **Sources.** `Source.AgreesOff` for two sources, and what it leaves of the agreement when sources are ranked and asked
  (`Registry.AgreesOff`).
- **Stages.** One secret stage leaves a smaller difference (`ViewAgrees.secret`), a run of them only one in names that
  none of them hides (`viewAgrees_secrets`); a `SameView` is kept by every stage outside (`SameView.append`).
-/

namespace LayeredConfig

/-! ## Records -/

/-- A record without its values. -/
def Record.masked (r : Record) : Record := { r with value := none, rawValue := none }

/-- Two records that are the same but for their values, and altogether unless they are hidden. -/
structure Record.Agrees (hidden : Prop) (a b : Record) : Prop where
  masked : a.masked = b.masked
  shown : ¬ hidden → a = b

namespace Record

theorem agrees_refl (hidden : Prop) (a : Record) : a.Agrees hidden a := ⟨rfl, fun _ => rfl⟩

/-- Nothing is left of the difference between two records when their values are taken out. -/
theorem Agrees.redacted {hidden : Prop} {a b : Record} (h : a.Agrees hidden b) : a.redacted = b.redacted := by
  obtain ⟨hname, hprofile, horigin, hproblems⟩ :
      a.name = b.name ∧ a.profile = b.profile ∧ a.origin = b.origin ∧ a.problems = b.problems := by
    simpa [Record.masked] using h.masked
  simp [Record.redacted, hname, hprofile, horigin, hproblems]

theorem Agrees.name {hidden : Prop} {a b : Record} (h : a.Agrees hidden b) : a.name = b.name := by
  have hname := congrArg Record.name h.masked
  exact hname

/-- A stage that takes out the values of some records leaves a difference only where it does not do so. -/
theorem Agrees.gate {hidden : Prop} {a b : Record} (h : a.Agrees hidden b) (taken : Bool) :
    (if taken then a.redacted else a).Agrees (hidden ∧ taken = false) (if taken then b.redacted else b) := by
  cases taken with
  | true =>
      rw [if_pos rfl, if_pos rfl, h.redacted]
      exact agrees_refl _ _
  | false => exact ⟨h.masked, fun hn => h.shown fun hh => hn ⟨hh, rfl⟩⟩

end Record

/-- Two lookups whose answers for every name agree. -/
def AgreeOff (hidden : Text → Prop) (f g : Text → Option Record) : Prop :=
  ∀ n, Option.Rel (Record.Agrees (hidden n)) (f n) (g n)

/-! ## Sources -/

/-- Two sources that differ at most in the values of hidden names. -/
structure Source.AgreesOff (hidden : Text → Prop) (a b : Source) : Prop where
  name : a.name = b.name
  ordinal : a.ordinal = b.ordinal
  names : a.names = b.names
  line : ∀ n, a.line? n = b.line? n
  defined : ∀ n, (a.get? n).isSome = (b.get? n).isSome
  shown : ∀ n, ¬ hidden n → a.get? n = b.get? n

theorem Source.agreesOff_refl (hidden : Text → Prop) (a : Source) : a.AgreesOff hidden a :=
  ⟨rfl, rfl, rfl, fun _ => rfl, fun _ => rfl, fun _ _ => rfl⟩

/-- Two tables that differ in the value of one hidden name. -/
theorem Source.agreesOff_insert {hidden : Text → Prop} (name : Text) (d : Dict Text Text) {k v w : Text}
    (hk : hidden k) (hordinal : ordinalProperty ≠ k) :
    Source.AgreesOff hidden (.table (.ofProperties name (d.insert k v)))
      (.table (.ofProperties name (d.insert k w))) := by
  have hget (u : Text) (n : Text) : Source.get? (.table (.ofProperties name (d.insert k u))) n =
      if n = k then some u else d.get? n := Dict.get?_insert d k n u
  refine ⟨rfl, ?_, NameSet.eq_of_mem_iff fun n => ?_, fun _ => rfl, fun n => ?_, fun n hn => ?_⟩
  · show ordinalOf ((d.insert k v).get? ordinalProperty) = ordinalOf ((d.insert k w).get? ordinalProperty)
    rw [Dict.get?_insert, Dict.get?_insert, if_neg hordinal, if_neg hordinal]
  · show n ∈ (d.insert k v).keySet ↔ n ∈ (d.insert k w).keySet
    simp only [Dict.mem_keySet_iff, Dict.get?_insert]
    by_cases hnk : n = k
    · simp [hnk]
    · simp [hnk]
  · rw [hget, hget]
    by_cases hnk : n = k
    · simp [hnk]
    · simp [hnk]
  · have hnk : n ≠ k := fun h => hn (h ▸ hk)
    rw [hget, hget, if_neg hnk, if_neg hnk]

/-- Two sources at one place of the registration. -/
structure RankedSource.AgreesOff (hidden : Text → Prop) (a b : RankedSource) : Prop where
  source : a.source.AgreesOff hidden b.source
  ordinal : a.ordinal = b.ordinal
  sequence : a.sequence = b.sequence

/-- Two registries whose sources agree rank by rank. -/
def Registry.AgreesOff (hidden : Text → Prop) (r r' : Registry) : Prop :=
  List.Forall₂ (RankedSource.AgreesOff hidden) r.ranked r'.ranked

section Related

variable {α β γ δ : Type} {R : α → β → Prop} {S : γ → δ → Prop}

theorem rel_or {a c : Option α} {b d : Option β} (h : Option.Rel R a b) (h' : Option.Rel R c d) :
    Option.Rel R (a.or c) (b.or d) := by
  cases h with
  | none => exact h'
  | some h => exact Option.Rel.some h

theorem rel_map {a : Option α} {b : Option β} {f : α → γ} {g : β → δ} (h : Option.Rel R a b)
    (hfg : ∀ x y, R x y → S (f x) (g y)) : Option.Rel S (a.map f) (b.map g) := by
  cases h with
  | none => exact Option.Rel.none
  | some h => exact Option.Rel.some (hfg _ _ h)

/-- Sorting keeps two lists in step when the order compares their members alike. -/
theorem forall₂_mergeSort {le : α → α → Bool} {le' : β → β → Bool} {l : List α} {l' : List β} (h : List.Forall₂ R l l')
    (hle : ∀ a b a' b', R a a' → R b b' → le a b = le' a' b') : List.Forall₂ R (l.mergeSort le) (l'.mergeSort le') := by
  obtain ⟨hlen, hzip⟩ := List.forall₂_iff_zip.mp h
  -- both lists are sorted as the first and the second components of one list of pairs
  have hfst : ((l.zip l').mergeSort fun p q => le p.1 q.1).map Prod.fst = l.mergeSort le := by
    rw [List.map_mergeSort (s := le) fun p _ q _ => rfl, List.map_fst_zip (Nat.le_of_eq hlen)]
  have hsnd : ((l.zip l').mergeSort fun p q => le p.1 q.1).map Prod.snd = l'.mergeSort le' := by
    rw [List.map_mergeSort (s := le') fun p hp q hq => hle _ _ _ _ (hzip hp) (hzip hq),
      List.map_snd_zip (Nat.le_of_eq hlen.symm)]
  rw [← hfst, ← hsnd, List.forall₂_map_left_iff, List.forall₂_map_right_iff, List.forall₂_same]
  exact fun p hp => hzip (List.mem_mergeSort.mp hp)

/-- What is found for the members of one list in two ways. -/
theorem forall₂_filterMap {l : List γ} {f : γ → Option α} {g : γ → Option β}
    (h : ∀ x, Option.Rel R (f x) (g x)) : List.Forall₂ R (l.filterMap f) (l.filterMap g) := by
  induction l with
  | nil => exact List.Forall₂.nil
  | cons x l ih =>
      have hx := h x
      rw [List.filterMap_cons, List.filterMap_cons]
      generalize f x = a, g x = b at hx
      cases hx with
      | none => exact ih
      | some hr => exact List.Forall₂.cons hr ih

end Related

variable {hidden : Text → Prop}

theorem numbered_agreesOff {xs ys : List Source} (h : List.Forall₂ (Source.AgreesOff hidden) xs ys) (i : Nat) :
    List.Forall₂ (RankedSource.AgreesOff hidden) ((xs.zipIdx i).map fun (s, i) => ⟨s, s.ordinal, i⟩)
      ((ys.zipIdx i).map fun (s, i) => ⟨s, s.ordinal, i⟩) := by
  induction h generalizing i with
  | nil => exact List.Forall₂.nil
  | cons hs _ ih => exact List.Forall₂.cons ⟨hs, hs.ordinal, rfl⟩ (ih (i + 1))

/-- Sources that agree in the order of registration agree rank by rank. -/
theorem ofSources_agreesOff {xs ys : List Source} (h : List.Forall₂ (Source.AgreesOff hidden) xs ys) :
    (Registry.ofSources xs).AgreesOff hidden (Registry.ofSources ys) := by
  refine forall₂_mergeSort (numbered_agreesOff h 0) fun a b a' b' ha hb => ?_
  simp only [RankedSource.before, ha.ordinal, hb.ordinal, ha.sequence, hb.sequence]

theorem RankedSource.AgreesOff.record {a b : RankedSource} (h : a.AgreesOff hidden b) (position : Nat) (n : Text) :
    Option.Rel (Record.Agrees (hidden n)) (a.record? position n) (b.record? position n) := by
  have hdefined := h.source.defined n
  have hshown := h.source.shown n
  rw [record?, record?, h.source.name, h.ordinal, h.source.line]
  cases ha : a.source.get? n with
  | none =>
      rw [ha, Option.isSome_none, Eq.comm, Option.isSome_eq_false_iff, Option.isNone_iff_eq_none] at hdefined
      rw [hdefined]
      exact Option.Rel.none
  | some v =>
      obtain ⟨w, hw⟩ : ∃ w, b.source.get? n = some w := by
        rw [← Option.isSome_iff_exists, ← hdefined, ha, Option.isSome_some]
      rw [ha, hw, Option.some.injEq] at hshown
      rw [hw]
      exact Option.Rel.some ⟨rfl, fun hn => by rw [hshown hn]⟩

/-- Whichever source answers first, it is at the same place in both lists. -/
theorem resolveFrom_agreeOff {l l' : List RankedSource} (h : List.Forall₂ (RankedSource.AgreesOff hidden) l l')
    (n : Text) (i : Nat) :
    Option.Rel (Record.Agrees (hidden n)) (Registry.resolveFrom n i l) (Registry.resolveFrom n i l') := by
  induction h generalizing i with
  | nil => exact Option.Rel.none
  | cons hs _ ih =>
      rw [Registry.resolveFrom, Registry.resolveFrom]
      exact rel_or (hs.record i n) (ih (i + 1))

theorem Registry.AgreesOff.resolve {r r' : Registry} (h : r.AgreesOff hidden r') :
    AgreeOff hidden r.resolve r'.resolve :=
  fun n => resolveFrom_agreeOff h n 0

theorem Registry.AgreesOff.names {r r' : Registry} (h : r.AgreesOff hidden r') : r.names = r'.names := by
  have hnames {l l' : List RankedSource} (hl : List.Forall₂ (RankedSource.AgreesOff hidden) l l') :
      (l.flatMap fun s => s.source.names.toList) = l'.flatMap fun s => s.source.names.toList := by
    induction hl with
    | nil => rfl
    | cons hs _ ih => rw [List.flatMap_cons, List.flatMap_cons, hs.source.names, ih]
  rw [Registry.names, Registry.names, hnames h]

/-! ## Stages -/

/-- What a locked reader sees through some stages: the answers for all names, the names and the listed records, which
agree but for the values of hidden names. -/
structure ViewAgrees (hidden : Text → Prop) (r r' : Registry) (stages : List Stage) : Prop where
  lookup : AgreeOff hidden (Chain.lookupIn r .locked stages) (Chain.lookupIn r' .locked stages)
  names : Chain.namesIn r stages = Chain.namesIn r' stages
  values : List.Forall₂ (fun a b => Record.Agrees (hidden a.name) a b) (Chain.valuesIn r .locked stages)
    (Chain.valuesIn r' .locked stages)

/-- The sources themselves, with no stage around them. -/
theorem viewAgrees_nil {r r' : Registry} (h : r.AgreesOff hidden r') : ViewAgrees hidden r r' [] where
  lookup := h.resolve
  names := h.names
  values := by
    show List.Forall₂ _ r.values r'.values
    rw [Registry.values, Registry.values, h.names]
    refine forall₂_filterMap fun n => ?_
    have hname (a : Record) (ha : r.resolve n = some a) : a.name = n := Registry.name_of_resolve ha
    have hn := h.resolve n
    generalize r.resolve n = x, r'.resolve n = y at hn hname
    cases hn with
    | none => exact Option.Rel.none
    | some hr => exact Option.Rel.some ((hname _ rfl).symm ▸ hr)

/-- One secret stage: what it hides is the same of both from here on. -/
theorem ViewAgrees.secret {r r' : Registry} {inner : List Stage} (h : ViewAgrees hidden r r' inner)
    (secrets : SecretSet) :
    ViewAgrees (fun n => hidden n ∧ secrets.contains n = false) r r' (.secret secrets :: inner) where
  lookup n := rel_map (h.lookup n) fun a b hr => hr.gate (secrets.contains n)
  names := h.names
  values := by
    show List.Forall₂ _ ((Chain.valuesIn r .locked inner).map _) ((Chain.valuesIn r' .locked inner).map _)
    rw [List.forall₂_map_left_iff, List.forall₂_map_right_iff]
    refine h.values.imp fun a b hr => ?_
    have hgate := hr.gate (secrets.contains a.name)
    have hname : ∀ c : Bool, (if c then a.redacted else a).name = a.name := by
      intro c
      cases c <;> rfl
    show Record.Agrees _ (if secrets.contains a.name then a.redacted else a)
      (if secrets.contains b.name then b.redacted else b)
    rw [hname, ← hr.name]
    exact hgate

/-- A run of secret stages around the sources leaves a difference only in names that none of them hides. -/
theorem viewAgrees_secrets {r r' : Registry} (h : r.AgreesOff hidden r') (sets : List SecretSet) :
    ViewAgrees (fun n => hidden n ∧ ∀ s ∈ sets, s.contains n = false) r r' (sets.map .secret) := by
  induction sets with
  | nil => simpa using viewAgrees_nil h
  | cons s sets ih =>
      have hstays : (fun n => hidden n ∧ ∀ t ∈ s :: sets, t.contains n = false) =
          fun n => (hidden n ∧ ∀ t ∈ sets, t.contains n = false) ∧ s.contains n = false := by
        funext n
        simp [and_comm, and_left_comm]
      rw [hstays]
      exact ih.secret s

/-- A locked reader sees the same of both. -/
structure SameView (r r' : Registry) (stages : List Stage) : Prop where
  lookup : Chain.lookupIn r .locked stages = Chain.lookupIn r' .locked stages
  names : Chain.namesIn r stages = Chain.namesIn r' stages
  values : Chain.valuesIn r .locked stages = Chain.valuesIn r' .locked stages

/-- Where nothing is hidden any more, the two views are the same. -/
theorem ViewAgrees.sameView {r r' : Registry} {stages : List Stage} (h : ViewAgrees hidden r r' stages)
    (hnone : ∀ n, ¬ hidden n) : SameView r r' stages where
  lookup := by
    funext n
    have hn := h.lookup n
    generalize Chain.lookupIn r .locked stages n = x, Chain.lookupIn r' .locked stages n = y at hn ⊢
    cases hn with
    | none => rfl
    | some hr => rw [hr.shown (hnone n)]
  names := h.names
  values := List.forall₂_eq_eq_eq ▸ h.values.imp fun a b hr => hr.shown (hnone a.name)

/-- A stage adds nothing to the difference: all that it answers comes from the stages inside it. -/
theorem SameView.cons {r r' : Registry} {inner : List Stage} (h : SameView r r' inner) (s : Stage) :
    SameView r r' (s :: inner) where
  lookup := by
    funext n
    show s.get .locked (Chain.lookupIn r .locked inner) n = s.get .locked (Chain.lookupIn r' .locked inner) n
    rw [h.lookup]
  names := by
    show s.names (Chain.namesIn r inner) = s.names (Chain.namesIn r' inner)
    rw [h.names]
  values := by
    show s.values .locked (Chain.lookupIn r .locked inner) (Chain.namesIn r inner) (Chain.valuesIn r .locked inner) =
      s.values .locked (Chain.lookupIn r' .locked inner) (Chain.namesIn r' inner) (Chain.valuesIn r' .locked inner)
    rw [h.lookup, h.names, h.values]

theorem SameView.append {r r' : Registry} {inner : List Stage} (h : SameView r r' inner) (outer : List Stage) :
    SameView r r' (outer ++ inner) := by
  induction outer with
  | nil => exact h
  | cons s outer ih => exact ih.cons s

end LayeredConfig
