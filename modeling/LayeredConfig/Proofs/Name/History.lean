import LayeredConfig.Proofs.Dict
import LayeredConfig.Proofs.Name.Trie

/-!
# `LayeredConfig.Proofs.Name.History` — a tree of paths answers from the list of its puts

A tree that was made by storing values at paths, one after another, holds nothing that the list of these paths and
values does not say. A look-up can be read off the list: each step of the query leaves some of its entries, and of those
that are left in the end the last one of the query's length answers.

## Contents
- **List.** `goingOn`, `narrow` and `narrowed` say which entries are left, `pick` is the answer.
- **Tree.** `ofPaths` stores values at paths; a node stands where an entry passes, and holds the value put there last
  (`ofPaths_spec`).
- **Agreement.** `findSteps_eq_narrowed` below any node, and `get?_ofPaths_eq_pick` for whole queries.
-/

namespace LayeredConfig

open Name

namespace Trie

variable {α : Type}

/-! ## List -/

/-- The entries whose path has a given step at a place. -/
def goingOn (i : Nat) (s : Text) (es : List (List Text × α)) : List (List Text × α) :=
  es.filter fun e => e.1[i]? = some s

/-- The entries that a step of a query leaves: those that have this step at its place or, where there are none, those
that have its wildcard there. -/
def narrow (i : Nat) (s : Text) (es : List (List Text × α)) : List (List Text × α) :=
  if (goingOn i s es).isEmpty then goingOn i (wildcardOf s) es else goingOn i s es

/-- The entries that the steps of a query leave, the first of which stands at a given place. There is no turning back:
what one step has left out stays out. -/
def narrowed : Nat → List Text → List (List Text × α) → List (List Text × α)
  | _, [], es => es
  | i, s :: q, es => narrowed (i + 1) q (narrow i s es)

/-- The answer of a list of entries to a query: the value put last among the entries that are left and are as long as the
query. -/
def pick (es : List (List Text × α)) (q : List Text) : Option α :=
  ((narrowed 0 q es).filter fun e => e.1.length = q.length).getLast?.map Prod.snd

theorem narrowed_nil_entries (i : Nat) (q : List Text) : narrowed i q ([] : List (List Text × α)) = [] := by
  induction q generalizing i with
  | nil => rfl
  | cons s q ih => exact ih (i + 1)

/-- A path goes on behind another one with the step at the place where that one ends. -/
theorem append_singleton_prefix_iff {w l : List Text} {s : Text} :
    w ++ [s] <+: l ↔ w <+: l ∧ l[w.length]? = some s := by
  constructor
  · rintro ⟨r, rfl⟩
    refine ⟨⟨s :: r, by simp⟩, ?_⟩
    rw [List.append_assoc, List.getElem?_append_right (Nat.le_refl _), Nat.sub_self]
    rfl
  · rintro ⟨⟨r, rfl⟩, hs⟩
    rw [List.getElem?_append_right (Nat.le_refl _), Nat.sub_self, ← List.head?_eq_getElem?] at hs
    obtain ⟨r, rfl⟩ := List.head?_eq_some_iff.mp hs
    exact ⟨r, by simp⟩

/-- The entries behind a path. -/
def behind (w : List Text) (es : List (List Text × α)) : List (List Text × α) := es.filter fun e => w <+: e.1

theorem goingOn_behind (w : List Text) (s : Text) (es : List (List Text × α)) :
    goingOn w.length s (behind w es) = behind (w ++ [s]) es := by
  unfold goingOn behind
  rw [List.filter_filter]
  refine List.filter_congr fun e _ => ?_
  rw [← Bool.decide_and, decide_eq_decide, append_singleton_prefix_iff, and_comm]

theorem behind_eq_nil_iff {w : List Text} {es : List (List Text × α)} : behind w es = [] ↔ ∀ e ∈ es, ¬ w <+: e.1 := by
  unfold behind
  rw [List.filter_eq_nil_iff]
  simp only [decide_eq_true_eq]

/-- Of the entries behind a path those of its length are the ones at it. -/
theorem filter_length_behind (w : List Text) (es : List (List Text × α)) :
    (behind w es).filter (fun e => e.1.length = w.length) = es.filter fun e => e.1 = w := by
  unfold behind
  rw [List.filter_filter]
  refine List.filter_congr fun e _ => ?_
  rw [← Bool.decide_and, decide_eq_decide]
  constructor
  · rintro ⟨hlength, hbegins⟩
    exact (hbegins.eq_of_length hlength.symm).symm
  · rintro rfl
    exact ⟨rfl, List.prefix_rfl⟩

/-! ## Tree -/

/-- Paths as their steps. -/
def stepsOf (es : List (Path × α)) : List (List Text × α) := es.map fun e => (e.1.steps, e.2)

/-- The tree in which values were stored at paths, one after another. -/
def ofPaths (es : List (Path × α)) : Trie α := ofPairs (es.map fun e => (e.1.text, e.2))

theorem ofPaths_eq (es : List (Path × α)) :
    ofPaths es = (stepsOf es).foldl (fun t e => alterSteps (setValue (some e.2)) e.1 t) empty := by
  have hput (t : Trie α) (p : Path) (v : α) : t.put p.text v = alterSteps (setValue (some v)) p.steps t := by
    rw [put, alter, p.keySteps_text]
  rw [ofPaths, ofPairs, stepsOf, List.foldl_map, List.foldl_map]
  simp only [hput]

section Puts

variable (es : List (Path × α))

theorem ofPaths_spec : (ofPaths es).Flat ∧ ∀ w,
    (((ofPaths es).at? w).isSome = true ↔ w = [] ∨ behind w (stepsOf es) ≠ []) ∧
      (ofPaths es).valueAt w = ((stepsOf es).filter fun e => e.1 = w).getLast?.map Prod.snd := by
  have hes : ∀ e ∈ stepsOf es, ∀ s ∈ e.1, s ≠ recursiveMarker := Path.ne_recursive_of_mem_map
  obtain ⟨hflat, hnodes⟩ := foldl_alterSteps_empty (fun v => onlyValue_setValue (some v)) hes
  rw [ofPaths_eq]
  refine ⟨hflat, fun w => ⟨(hnodes w).1.trans (or_congr_right ?_), ?_⟩⟩
  · rw [ne_eq, behind_eq_nil_iff]
    simp only [not_forall, not_not, exists_prop]
  · rw [(hnodes w).2, Dict.foldl_put, Option.or_none]

/-! ## Agreement -/

theorem at?_append (t : Trie α) (w r : List Text) : t.at? (w ++ r) = (t.at? w).bind fun c => c.at? r := by
  induction w generalizing t with
  | nil => rfl
  | cons s w ih =>
      rw [List.cons_append, at?_cons, at?_cons, Option.bind_assoc]
      exact congrArg _ (funext fun c => ih c)

/-- The branch of a node stands at the path of the node and the step. -/
theorem branch?_eq_at? {t c : Trie α} {w : List Text} (hc : t.at? w = some c) (s : Text) :
    c.branch? s = t.at? (w ++ [s]) := by
  rw [at?_append, hc, Option.bind_some, at?_cons]
  exact (Option.bind_fun_some _).symm

/-- There is a branch for a step if and only if some entry goes on with it. -/
theorem branch?_eq_none_iff {c : Trie α} {w : List Text} (hc : (ofPaths es).at? w = some c) (s : Text) :
    c.branch? s = none ↔ behind (w ++ [s]) (stepsOf es) = [] := by
  have hne : w ++ [s] ≠ [] := List.append_ne_nil_of_right_ne_nil w (List.cons_ne_nil s [])
  rw [branch?_eq_at? hc, ← Option.not_isSome_iff_eq_none, (((ofPaths_spec es).2 (w ++ [s])).1).trans (or_iff_right hne),
    Classical.not_not]

/-- Below a node the search finds what the entries behind its path say. -/
theorem findSteps_eq_narrowed {q : List Text} (hq : ∀ s ∈ q, s ≠ recursiveMarker) {w : List Text} {c : Trie α}
    (hc : (ofPaths es).at? w = some c) :
    (c.findSteps q).bind value = ((narrowed w.length q (behind w (stepsOf es))).filter fun e =>
      e.1.length = w.length + q.length).getLast?.map Prod.snd := by
  obtain ⟨hflat, hnodes⟩ := ofPaths_spec es
  -- along the query; the step that is taken is its own or its wildcard, and is put behind the path
  induction q generalizing w c with
  | nil =>
      have hvalue := (hnodes w).2
      rw [valueAt, hc, Option.bind_some] at hvalue
      rw [findSteps_nil, Option.bind_some, hvalue]
      exact congrArg (fun l => l.getLast?.map Prod.snd) (filter_length_behind w (stepsOf es)).symm
  | cons s q ih =>
      have hrest : ∀ k ∈ q, k ≠ recursiveMarker := fun k hk => hq k (List.mem_cons_of_mem s hk)
      have hstep (x : Text) (d : Trie α) (hd : c.branch? x = some d) :
          (d.findSteps q).bind value = ((narrowed (w.length + 1) q (behind (w ++ [x]) (stepsOf es))).filter fun e =>
            e.1.length = w.length + (s :: q).length).getLast?.map Prod.snd := by
        have hat : (ofPaths es).at? (w ++ [x]) = some d := by rw [← branch?_eq_at? hc, hd]
        have hfound := ih hrest hat
        rw [List.length_append, List.length_singleton, Nat.add_assoc, Nat.add_comm 1 q.length] at hfound
        exact hfound
      rw [findSteps, child?_eq (hflat w c hc) (hq s List.mem_cons_self), narrowed, narrow, goingOn_behind,
        goingOn_behind]
      cases hexact : c.branch? s with
      | some d =>
          have hne : behind (w ++ [s]) (stepsOf es) ≠ [] := by
            intro hnil
            rw [(branch?_eq_none_iff es hc s).mpr hnil] at hexact
            cases hexact
          rw [Option.some_or, Option.bind_some, if_neg (by simpa using hne)]
          exact hstep s d hexact
      | none =>
          rw [Option.none_or, (branch?_eq_none_iff es hc s).mp hexact, List.isEmpty_nil, if_pos rfl]
          cases hwildcard : c.branch? (wildcardOf s) with
          | some d => exact hstep (wildcardOf s) d hwildcard
          | none =>
              -- no entry is left, and no node is found
              rw [(branch?_eq_none_iff es hc _).mp hwildcard, narrowed_nil_entries]
              rfl

/-- **A look-up is read off the list of puts.** In a tree that was made by storing values at paths, one after another, a
query finds what the list of these paths says: the value put last among the entries that no step of the query has left
out and that are as long as the query, or nothing. -/
theorem get?_ofPaths_eq_pick (q : Path) : (ofPaths es).get? q.text = pick (stepsOf es) q.steps := by
  have hsteps : ∀ s ∈ q.steps, s ≠ recursiveMarker := fun s hs => q.ne_recursive_of_mem_steps hs
  have hroot : behind [] (stepsOf es) = stepsOf es := List.filter_eq_self.mpr fun e _ => decide_eq_true List.nil_prefix
  have hfound := findSteps_eq_narrowed es hsteps (at?_nil (ofPaths es))
  rw [get?, find?, q.keySteps_text, Option.bind_some, hfound, hroot, pick]
  simp only [List.length_nil, Nat.zero_add]

end Puts

/-- An entry that goes on exactly leaves out one that would have answered by a wildcard. -/
example : pick [([['a'], ['*'], ['c']], 1), ([['a'], ['b'], ['d']], 2)] [['a'], ['b'], ['c']] = none := by decide

end Trie

end LayeredConfig
