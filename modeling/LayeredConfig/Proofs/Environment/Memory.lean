import LayeredConfig.Environment.Snapshot
import LayeredConfig.Proofs.Dict
import Mathlib.Data.Finset.Card

/-!
# `LayeredConfig.Proofs.Environment.Memory` — remembered outcomes change no answer

A resolver keeps the outcome for every name that it was asked for, also when no variable was found. A name is resolved
from the variables alone and these never change, so what is remembered is what would be found again: whichever names were
asked before, and in which order, an answer is the one that a resolver without memory gives.

## Contents
- **Outcomes.** `ResolvesTo` tells of the first of the three spellings of a name that is a variable.
- **Requests.** `Request.ask` is one call; `IsAnswered` says what it has to answer (`isAnswered_iff`). `Resolver.run` is a
  sequence of calls.
- **Memory.** `HasAsked` says what is remembered after some names were asked. One request keeps it (`HasAsked.ask`), and so
  does a run (`HasAsked.run`); `memory_invisible`.
-/

namespace LayeredConfig.Environment

open Text

/-! ## Outcomes -/

/-- The key and the value of the variable that a name resolves to: the name itself, its key spelling and its raised key
spelling are tried in this order. -/
inductive ResolvesTo (vars : Variables) (name : Text) : Option (Text × Text) → Prop
  | verbatim {v : Text} (h : vars.get? name = some v) : ResolvesTo vars name (some (name, v))
  | spelled {v : Text} (hname : vars.get? name = none) (h : vars.get? (keyOf name) = some v) :
      ResolvesTo vars name (some (keyOf name, v))
  | raised {v : Text} (hname : vars.get? name = none) (hkey : vars.get? (keyOf name) = none)
      (h : vars.get? (asciiUpper (keyOf name)) = some v) : ResolvesTo vars name (some (asciiUpper (keyOf name), v))
  | missing (hname : vars.get? name = none) (hkey : vars.get? (keyOf name) = none)
      (hraised : vars.get? (asciiUpper (keyOf name)) = none) : ResolvesTo vars name none

variable {vars : Variables}

/-- The key that is looked for is the one of the outcome. -/
theorem ResolvesTo.keyFor?_eq {name : Text} {found : Option (Text × Text)} (h : ResolvesTo vars name found) :
    keyFor? vars name = found.map Prod.fst := by
  unfold keyFor?
  cases h with
  | verbatim h => simp [h]
  | spelled hname h => simp [hname, h]
  | raised hname hkey h => simp [hname, hkey, h]
  | missing hname hkey hraised => simp [hname, hkey, hraised]

theorem ResolvesTo.lookup_eq {name : Text} {found : Option (Text × Text)} (h : ResolvesTo vars name found) :
    lookup vars name = found.map Prod.snd := by
  rw [lookup, h.keyFor?_eq]
  cases h with
  | verbatim h => exact h
  | spelled _ h => exact h
  | raised _ _ h => exact h
  | missing => rfl

theorem exists_resolvesTo (vars : Variables) (name : Text) : ∃ found, ResolvesTo vars name found := by
  cases hname : vars.get? name with
  | some v => exact ⟨_, .verbatim hname⟩
  | none =>
      cases hkey : vars.get? (keyOf name) with
      | some v => exact ⟨_, .spelled hname hkey⟩
      | none =>
          cases hraised : vars.get? (asciiUpper (keyOf name)) with
          | some v => exact ⟨_, .raised hname hkey hraised⟩
          | none => exact ⟨_, .missing hname hkey hraised⟩

/-! ## Requests -/

/-- What is asked about a name: the key of the variable that it resolves to, or the value. -/
inductive Request where
  | key (name : Text)
  | value (name : Text)

namespace Request

/-- The name that is asked about. -/
def name : Request → Text
  | key n => n
  | value n => n

/-- The answer of a resolver, and the resolver afterwards. -/
def ask (r : Resolver) : Request → Option Text × Resolver
  | key n => r.resolve n
  | value n => r.lookup n

/-- The answer by the variables alone. -/
def answer (vars : Variables) : Request → Option Text
  | key n => keyFor? vars n
  | value n => lookup vars n

/-- What a request asks for of the variable that is found. -/
def part : Request → Text × Text → Text
  | key _ => Prod.fst
  | value _ => Prod.snd

/-- An answer tells of the first spelling of the name that is a variable. -/
def IsAnswered (vars : Variables) (q : Request) (a : Option Text) : Prop :=
  ∃ found, ResolvesTo vars q.name found ∧ a = found.map q.part

/-- It is the answer by the variables alone. -/
theorem isAnswered_iff {q : Request} {a : Option Text} : q.IsAnswered vars a ↔ a = q.answer vars := by
  have heq {found : Option (Text × Text)} (h : ResolvesTo vars q.name found) : found.map q.part = q.answer vars := by
    cases q with
    | key n => exact h.keyFor?_eq.symm
    | value n => exact h.lookup_eq.symm
  constructor
  · rintro ⟨found, hfound, rfl⟩
    exact heq hfound
  · rintro rfl
    obtain ⟨found, hfound⟩ := exists_resolvesTo vars q.name
    exact ⟨found, hfound, (heq hfound).symm⟩

end Request

namespace Resolver

/-- The answers to a sequence of requests, and the resolver after the last one. -/
def run (r : Resolver) : List Request → List (Option Text) × Resolver
  | [] => ([], r)
  | q :: qs =>
      let (a, r') := q.ask r
      let (answers, last) := r'.run qs
      (a :: answers, last)

/-! ## Memory -/

/-- A resolver over some variables that was asked for some names: it remembers the outcome of these and of no others. -/
structure HasAsked (vars : Variables) (asked : List Text) (r : Resolver) : Prop where
  vars_eq : r.vars = vars
  remembered (n : Text) : r.remembered.get? n = if n ∈ asked then some (keyFor? vars n) else none

variable {asked : List Text} {r : Resolver}

theorem hasAsked_ofVariables (vars : Variables) : HasAsked vars [] (ofVariables vars) := ⟨rfl, fun _ => rfl⟩

/-- A name that was asked before changes nothing. -/
theorem HasAsked.again (h : HasAsked vars asked r) {n : Text} (hn : n ∈ asked) : HasAsked vars (asked ++ [n]) r := by
  refine ⟨h.vars_eq, fun m => (h.remembered m).trans (if_congr ?_ rfl rfl)⟩
  rw [List.mem_append, List.mem_singleton]
  exact ⟨Or.inl, fun hm => hm.elim id fun heq => heq ▸ hn⟩

/-- The outcome for one more name is kept beside those for the others. -/
theorem HasAsked.insert (h : HasAsked vars asked r) (n : Text) :
    HasAsked vars (asked ++ [n]) { r with remembered := r.remembered.insert n (keyFor? r.vars n) } := by
  refine ⟨h.vars_eq, fun m => ?_⟩
  rw [Dict.get?_insert, h.remembered, h.vars_eq]
  by_cases hm : m = n
  · rw [if_pos hm, if_pos (by simp [hm]), hm]
  · rw [if_neg hm]
    refine if_congr ?_ rfl rfl
    rw [List.mem_append, List.mem_singleton, or_iff_left hm]

/-- What is known is told, what is not known is found and kept. -/
theorem HasAsked.resolve (h : HasAsked vars asked r) (n : Text) :
    (r.resolve n).1 = keyFor? vars n ∧ HasAsked vars (asked ++ [n]) (r.resolve n).2 := by
  unfold Resolver.resolve
  split
  · next known hknown =>
      have hn := h.remembered n
      rw [hknown] at hn
      split at hn
      · next hmem => exact ⟨Option.some.inj hn, h.again hmem⟩
      · cases hn
  · exact ⟨congrArg (keyFor? · n) h.vars_eq, h.insert n⟩

/-- One request is answered by the variables, and its name is remembered afterwards. -/
theorem HasAsked.ask (h : HasAsked vars asked r) (q : Request) :
    (q.ask r).1 = q.answer vars ∧ HasAsked vars (asked ++ [q.name]) (q.ask r).2 := by
  cases q with
  | key n => exact h.resolve n
  | value n =>
      obtain ⟨hanswer, hnext⟩ := h.resolve n
      refine ⟨?_, hnext⟩
      show (r.resolve n).1.bind r.vars.get? = (keyFor? vars n).bind vars.get?
      rw [hanswer, h.vars_eq]

theorem HasAsked.run (h : HasAsked vars asked r) (qs : List Request) :
    (r.run qs).1 = qs.map (Request.answer vars) ∧ HasAsked vars (asked ++ qs.map Request.name) (r.run qs).2 := by
  induction qs generalizing asked r with
  | nil => exact ⟨rfl, by rwa [List.map_nil, List.append_nil]⟩
  | cons q qs ih =>
      obtain ⟨hanswer, hnext⟩ := h.ask q
      obtain ⟨hanswers, hlast⟩ := ih hnext
      refine ⟨?_, ?_⟩
      · show (q.ask r).1 :: ((q.ask r).2.run qs).1 = _
        rw [hanswer, hanswers, List.map_cons]
      · rw [List.map_cons, List.append_cons]
        exact hlast

theorem HasAsked.get?_iff (h : HasAsked vars asked r) {n : Text} {known : Option Text} :
    r.remembered.get? n = some known ↔ n ∈ asked ∧ known = keyFor? vars n := by
  rw [h.remembered]
  split
  · next hn => simp [hn, eq_comm]
  · next hn => simp [hn]

/-- There is one entry for every name that was asked. -/
theorem HasAsked.rememberedCount (h : HasAsked vars asked r) : r.rememberedCount = asked.toFinset.card := by
  have hkeys : r.remembered.keys.toFinset = asked.toFinset := by
    ext n
    rw [List.mem_toFinset, List.mem_toFinset, Dict.mem_keys_iff]
    simp only [h.get?_iff, exists_and_left, exists_eq, and_true]
  rw [← hkeys, List.toFinset_card_of_nodup r.remembered.nodup_keys]
  exact (List.length_map Prod.fst).symm

/-- **The memory of a resolver cannot be seen.** Whatever is asked, and in whatever order, every answer tells of the first
spelling of its name that is a variable, as if nothing had been asked before. What is remembered afterwards are the names
that were asked, each with the key that is found for it or with none, and there are as many entries as different names. -/
theorem memory_invisible (vars : Variables) (requests : List Request) :
    let (answers, r) := (ofVariables vars).run requests
    answers = requests.map (Request.answer vars) ∧
      List.Forall₂ (Request.IsAnswered vars) requests answers ∧
      (∀ n known, r.remembered.get? n = some known ↔ n ∈ requests.map Request.name ∧ known = keyFor? vars n) ∧
      r.rememberedCount = (requests.map Request.name).toFinset.card := by
  obtain ⟨hanswers, hlast⟩ := (hasAsked_ofVariables vars).run requests
  refine ⟨hanswers, ?_, fun n known => hlast.get?_iff, hlast.rememberedCount⟩
  rw [hanswers, List.forall₂_map_right_iff, List.forall₂_same]
  exact fun q _ => Request.isAnswered_iff.mpr rfl

end Resolver

end LayeredConfig.Environment
