import LayeredConfig.Name.Trie
import LayeredConfig.Proofs.Name.Path

/-!
# `LayeredConfig.Proofs.Name.Trie` — a tree of paths by the values at its nodes

A tree without recursive nodes is known by the nodes that exact steps reach and by the values there. A change at a path
makes the nodes on the way to it and touches no other value. A look-up takes the exact branch wherever there is one and
a wildcard branch otherwise; it never turns back.

## Contents
- **Steps.** `Step.ofText_cases`, and `wildcardOf`: the wildcard that may stand for a step.
- **Nodes.** `branch?`, `at?`, `valueAt`, and `Flat` for trees without recursive nodes.
- **Change.** What `alterSteps` leaves of them: `isSome_at?_alterSteps`, `valueAt_alterSteps`, `Flat.alterSteps`, and many
  changes from the empty tree on (`foldl_alterSteps_empty`).
- **Look-up.** `Unshadowed` says that a path has a wildcard only where no other path goes on exactly, and
  `find_eq_some_iff` that the answer stands at such a path.
-/

namespace LayeredConfig

open Name

namespace Trie

variable {α : Type}

/-! ## Steps -/

/-- A step is one of the three marks or is taken literally. -/
theorem Step.ofText_cases (s : Text) :
    s = recursiveMarker ∨ s = ['*'] ∨ s = ['[', '*', ']'] ∨ Step.ofText s = .literal s := by
  unfold Step.ofText
  split
  · exact Or.inl rfl
  · exact Or.inr (Or.inl rfl)
  · exact Or.inr (Or.inr (Or.inl rfl))
  · exact Or.inr (Or.inr (Or.inr rfl))

/-- The wildcard that may stand for a step: an index group has that of its own kind. -/
def wildcardOf (step : Text) : Text := if step.head? == some '[' then ['[', '*', ']'] else ['*']

/-! ## Nodes -/

/-- The branch for exactly this step. -/
def branch? (t : Trie α) (step : Text) : Option (Trie α) :=
  match Step.ofText step with
  | .recursive => none
  | .anyKey => t.any
  | .anyIndex => t.anyIndex
  | .literal s => lookupKey s t.children

/-- The node that exact steps reach. -/
def at? (t : Trie α) : List Text → Option (Trie α)
  | [] => some t
  | s :: r => (t.branch? s).bind fun c => c.at? r

/-- The value at the node that exact steps reach. -/
def valueAt (t : Trie α) (steps : List Text) : Option α := (t.at? steps).bind value

/-- No node that exact steps reach is recursive. -/
def Flat (t : Trie α) : Prop := ∀ steps c, t.at? steps = some c → c.isRecursive = false

@[simp] theorem at?_nil (t : Trie α) : t.at? [] = some t := rfl

theorem at?_cons (t : Trie α) (s : Text) (r : List Text) : t.at? (s :: r) = (t.branch? s).bind fun c => c.at? r := rfl

theorem isSome_at?_singleton (t : Trie α) (s : Text) : (t.at? [s]).isSome = (t.branch? s).isSome := by
  rw [at?_cons]
  cases t.branch? s with
  | none => rfl
  | some c => rfl

@[simp] theorem valueAt_nil (t : Trie α) : t.valueAt [] = t.value := rfl

theorem valueAt_cons (t : Trie α) (s : Text) (r : List Text) :
    t.valueAt (s :: r) = (t.branch? s).bind fun c => c.valueAt r := by
  rw [valueAt, at?_cons, Option.bind_assoc]
  rfl

theorem branch?_empty (s : Text) : (empty : Trie α).branch? s = none := by
  unfold branch?
  cases Step.ofText s <;> rfl

theorem valueAt_empty (steps : List Text) : (empty : Trie α).valueAt steps = none := by
  cases steps with
  | nil => rfl
  | cons s r => rw [valueAt_cons, branch?_empty, Option.bind_none]

theorem flat_empty : (empty : Trie α).Flat := by
  intro steps c hc
  cases steps with
  | nil => exact Option.some.inj hc ▸ rfl
  | cons s r =>
      rw [at?_cons, branch?_empty] at hc
      cases hc

theorem Flat.isRecursive {t : Trie α} (ht : t.Flat) : t.isRecursive = false := ht [] t rfl

theorem Flat.branch {t c : Trie α} (ht : t.Flat) {s : Text} (hc : t.branch? s = some c) : c.Flat := by
  intro steps d hd
  refine ht (s :: steps) d ?_
  rw [at?_cons, hc]
  exact hd

/-- What a change finds in place of a missing branch is flat, too. -/
theorem Flat.getD_branch {t : Trie α} (ht : t.Flat) (s : Text) : ((t.branch? s).getD empty).Flat := by
  cases hc : t.branch? s with
  | none => exact flat_empty
  | some c => exact ht.branch hc

/-! ## Change -/

theorem lookupKey_alterChild {f : Trie α → Trie α} {key k : Text} {cs : List (Text × Trie α)} :
    lookupKey k (alterChild f key cs) = if k = key then some (f ((lookupKey key cs).getD empty)) else lookupKey k cs := by
  induction cs with
  | nil => rfl
  | cons e cs ih =>
      unfold alterChild
      by_cases hkey : key = e.1
      · rw [if_pos hkey]
        by_cases hk : k = key
        · simp [lookupKey, hk, hkey]
        · have hne : k ≠ e.1 := hkey ▸ hk
          simp [lookupKey, hk, hne]
      · rw [if_neg hkey]
        by_cases hk : k = key
        · subst hk
          rw [if_pos rfl] at ih ⊢
          simp only [lookupKey, if_neg hkey, ih]
        · simp only [lookupKey, ih, if_neg hk]

/-- A change of the value of a node alone. -/
structure OnlyValue (f : Trie α → Trie α) (g : Option α → Option α) : Prop where
  value (t : Trie α) : (f t).value = g t.value
  branch (t : Trie α) (s : Text) : (f t).branch? s = t.branch? s
  recursive (t : Trie α) : (f t).isRecursive = t.isRecursive

theorem onlyValue_setValue (v : Option α) : OnlyValue (setValue v) fun _ => v where
  value t := by
    cases t
    rfl
  branch t s := by
    cases t
    rfl
  recursive t := by
    cases t
    rfl

/-- A step changes one branch of the node from which it is taken. -/
theorem branch?_alterSteps {f : Trie α → Trie α} {s : Text} (hs : s ≠ recursiveMarker) (r : List Text) {t : Trie α}
    (ht : t.isRecursive = false) :
    (alterSteps f (s :: r) t).value = t.value ∧ (alterSteps f (s :: r) t).isRecursive = false ∧
      ∀ k, (alterSteps f (s :: r) t).branch? k =
        if k = s then some (alterSteps f r ((t.branch? s).getD empty)) else t.branch? k := by
  obtain ⟨v, cs, a, i, rec⟩ := t
  obtain rfl : rec = false := ht
  -- the branches of the two wildcards are fields of the node, all others entries of one list
  rcases Step.ofText_cases s with rfl | rfl | rfl | hs'
  · exact absurd rfl hs
  · refine ⟨rfl, rfl, fun k => ?_⟩
    by_cases hk : k = ['*']
    · subst hk
      rfl
    · rw [if_neg hk]
      rcases Step.ofText_cases k with rfl | rfl | rfl | hk'
      · rfl
      · exact absurd rfl hk
      · rfl
      · simp only [branch?, hk']
        rfl
  · refine ⟨rfl, rfl, fun k => ?_⟩
    by_cases hk : k = ['[', '*', ']']
    · subst hk
      rfl
    · rw [if_neg hk]
      rcases Step.ofText_cases k with rfl | rfl | rfl | hk'
      · rfl
      · rfl
      · exact absurd rfl hk
      · simp only [branch?, hk']
        rfl
  · have hnode : alterSteps f (s :: r) (.node v cs a i false) =
        .node v (alterChild (alterSteps f r) s cs) a i false := by
      rw [alterSteps, hs']
    rw [hnode]
    refine ⟨rfl, rfl, fun k => ?_⟩
    rcases Step.ofText_cases k with rfl | rfl | rfl | hk'
    · rw [if_neg (Ne.symm hs)]
      rfl
    · rw [if_neg fun h => by cases h; cases hs']
      rfl
    · rw [if_neg fun h => by cases h; cases hs']
      rfl
    · simp only [branch?, hk', hs']
      exact lookupKey_alterChild

section Alter

variable {f : Trie α → Trie α} {g : Option α → Option α} {p : List Text}

/-- A change makes the nodes on the way to its path and no others. -/
theorem isSome_at?_alterSteps (hf : OnlyValue f g) (hp : ∀ s ∈ p, s ≠ recursiveMarker) {t : Trie α} (ht : t.Flat)
    (q : List Text) : ((alterSteps f p t).at? q).isSome = true ↔ q <+: p ∨ (t.at? q).isSome = true := by
  induction p generalizing t q with
  | nil =>
      cases q with
      | nil => simp
      | cons k q =>
          show ((f t).at? (k :: q)).isSome = true ↔ _
          rw [at?_cons, hf.branch, ← at?_cons]
          simp
  | cons s p ih =>
      obtain ⟨-, -, hbranch⟩ := branch?_alterSteps (f := f) (hp s List.mem_cons_self) p ht.isRecursive
      cases q with
      | nil => simp
      | cons k q =>
          rw [at?_cons, hbranch]
          by_cases hk : k = s
          · subst hk
            rw [if_pos rfl, Option.bind_some, ih (fun s hs => hp s (List.mem_cons_of_mem _ hs)) (ht.getD_branch k),
              List.cons_prefix_cons, at?_cons]
            cases t.branch? k with
            | some c => simp
            | none =>
                -- the branch is made by the change, and is empty but for its root
                cases q with
                | nil => simp
                | cons l q => simp [at?_cons, branch?_empty]
          · simp [at?_cons, List.cons_prefix_cons, hk]

/-- It changes the value at its path and no other. -/
theorem valueAt_alterSteps (hf : OnlyValue f g) (hp : ∀ s ∈ p, s ≠ recursiveMarker) {t : Trie α} (ht : t.Flat)
    (q : List Text) : (alterSteps f p t).valueAt q = if q = p then g (t.valueAt p) else t.valueAt q := by
  -- along the path: where the query leaves it, the branch is as it was
  induction p generalizing t q with
  | nil =>
      cases q with
      | nil => exact hf.value t
      | cons k q =>
          show (f t).valueAt (k :: q) = _
          rw [valueAt_cons, hf.branch, ← valueAt_cons, if_neg (List.cons_ne_nil k q)]
  | cons s p ih =>
      obtain ⟨hvalue, -, hbranch⟩ := branch?_alterSteps (f := f) (hp s List.mem_cons_self) p ht.isRecursive
      cases q with
      | nil =>
          rw [if_neg (List.cons_ne_nil s p).symm]
          exact hvalue
      | cons k q =>
          rw [valueAt_cons, hbranch]
          by_cases hk : k = s
          · subst hk
            rw [if_pos rfl, Option.bind_some, ih (fun s hs => hp s (List.mem_cons_of_mem _ hs)) (ht.getD_branch k),
              valueAt_cons, valueAt_cons]
            simp only [List.cons.injEq, true_and]
            cases t.branch? k with
            | some c => rfl
            | none => simp only [Option.getD_none, valueAt_empty, Option.bind_none]
          · rw [if_neg hk, if_neg fun h => hk (List.cons.inj h).1, ← valueAt_cons]

theorem Flat.alterSteps (hf : OnlyValue f g) (hp : ∀ s ∈ p, s ≠ recursiveMarker) {t : Trie α} (ht : t.Flat) :
    (Trie.alterSteps f p t).Flat := by
  induction p generalizing t with
  | nil =>
      intro q c hc
      cases q with
      | nil =>
          obtain rfl := Option.some.inj hc
          exact (hf.recursive t).trans ht.isRecursive
      | cons k q =>
          have hat : (f t).at? (k :: q) = some c := hc
          rw [at?_cons, hf.branch, ← at?_cons] at hat
          exact ht _ c hat
  | cons s p ih =>
      obtain ⟨-, hrecursive, hbranch⟩ := branch?_alterSteps (f := f) (hp s List.mem_cons_self) p ht.isRecursive
      intro q c hc
      cases q with
      | nil => exact Option.some.inj hc ▸ hrecursive
      | cons k q =>
          rw [at?_cons, hbranch] at hc
          by_cases hk : k = s
          · rw [if_pos hk, Option.bind_some] at hc
            exact ih (fun s hs => hp s (List.mem_cons_of_mem _ hs)) (ht.getD_branch s) q c hc
          · rw [if_neg hk, ← at?_cons] at hc
            exact ht _ c hc

/-- Changes made one after another make the nodes of all their paths, and each value is changed by those at its path. -/
theorem foldl_alterSteps {put : α → Trie α → Trie α} {set : α → Option α → Option α}
    (hput : ∀ v, OnlyValue (put v) (set v)) {es : List (List Text × α)}
    (hes : ∀ e ∈ es, ∀ s ∈ e.1, s ≠ recursiveMarker) {t : Trie α} (ht : t.Flat) :
    (es.foldl (fun t e => Trie.alterSteps (put e.2) e.1 t) t).Flat ∧
      ∀ q, (((es.foldl (fun t e => Trie.alterSteps (put e.2) e.1 t) t).at? q).isSome = true ↔
          (∃ e ∈ es, q <+: e.1) ∨ (t.at? q).isSome = true) ∧
        (es.foldl (fun t e => Trie.alterSteps (put e.2) e.1 t) t).valueAt q =
          es.foldl (fun o e => if q = e.1 then set e.2 o else o) (t.valueAt q) := by
  induction es generalizing t with
  | nil => exact ⟨ht, fun q => ⟨by simp, rfl⟩⟩
  | cons e es ih =>
      have he := hes e List.mem_cons_self
      obtain ⟨hflat, hrest⟩ := ih (fun d hd => hes d (List.mem_cons_of_mem e hd)) (ht.alterSteps (hput e.2) he)
      refine ⟨hflat, fun q => ⟨?_, ?_⟩⟩
      · rw [List.foldl_cons, (hrest q).1, isSome_at?_alterSteps (hput e.2) he ht, List.exists_mem_cons_iff, or_assoc,
          or_left_comm]
      · rw [List.foldl_cons, List.foldl_cons, (hrest q).2, valueAt_alterSteps (hput e.2) he ht]
        by_cases hq : q = e.1
        · rw [if_pos hq, if_pos hq, hq]
        · rw [if_neg hq, if_neg hq]

/-- Made from nothing, a tree has a root and the nodes on the way to its paths. -/
theorem foldl_alterSteps_empty {put : α → Trie α → Trie α} {set : α → Option α → Option α}
    (hput : ∀ v, OnlyValue (put v) (set v)) {es : List (List Text × α)}
    (hes : ∀ e ∈ es, ∀ s ∈ e.1, s ≠ recursiveMarker) :
    (es.foldl (fun t e => Trie.alterSteps (put e.2) e.1 t) empty).Flat ∧
      ∀ q, (((es.foldl (fun t e => Trie.alterSteps (put e.2) e.1 t) empty).at? q).isSome = true ↔
          q = [] ∨ ∃ e ∈ es, q <+: e.1) ∧
        (es.foldl (fun t e => Trie.alterSteps (put e.2) e.1 t) empty).valueAt q =
          es.foldl (fun o e => if q = e.1 then set e.2 o else o) none := by
  obtain ⟨hflat, hnodes⟩ := foldl_alterSteps hput hes flat_empty
  refine ⟨hflat, fun q => ⟨?_, ?_⟩⟩
  · rw [(hnodes q).1, or_comm]
    refine or_congr_left ?_
    cases q with
    | nil => simp
    | cons s q => simp [at?_cons, branch?_empty]
  · rw [(hnodes q).2, valueAt_empty]

end Alter

/-! ## Look-up -/

/-- Without recursive nodes a step leads to its exact branch, or else to that of its wildcard. -/
theorem child?_eq {t : Trie α} (ht : t.isRecursive = false) {s : Text} (hs : s ≠ recursiveMarker) :
    t.child? s = (t.branch? s).or (t.branch? (wildcardOf s)) := by
  have hnone : (if t.isRecursive then some t else none) = none := by rw [ht]; rfl
  rcases Step.ofText_cases s with rfl | rfl | rfl | hs'
  · exact absurd rfl hs
  · rw [child?, hnone, Option.or_none]
    exact (Option.or_self).symm
  · rw [child?, hnone, Option.or_none]
    exact (Option.or_self).symm
  · rw [child?, hnone, Option.or_none]
    have hbranch : t.branch? s = lookupKey s t.children := by rw [branch?, hs']
    have hwildcard : t.wildcardFor s = t.branch? (wildcardOf s) := by
      unfold wildcardFor wildcardOf
      split
      · rfl
      · rfl
    rw [hs', hbranch, ← hwildcard]

/-- A step of a path answers for itself and, as a wildcard, for the steps of its kind. -/
def Answers (w s : Text) : Prop := w = s ∨ w = wildcardOf s

instance (w s : Text) : Decidable (Answers w s) := inferInstanceAs (Decidable (_ ∨ _))

/-- So a branch is taken for a step that it answers, by a wildcard only where there is no exact branch. -/
theorem child?_eq_some_iff {t c : Trie α} (ht : t.isRecursive = false) {s : Text} (hs : s ≠ recursiveMarker) :
    t.child? s = some c ↔ ∃ x, Answers x s ∧ (x ≠ s → t.branch? s = none) ∧ t.branch? x = some c := by
  rw [child?_eq ht hs, Option.or_eq_some_iff]
  constructor
  · rintro (hexact | ⟨hnone, hwildcard⟩)
    · exact ⟨s, Or.inl rfl, fun h => absurd rfl h, hexact⟩
    · exact ⟨wildcardOf s, Or.inr rfl, fun _ => hnone, hwildcard⟩
  · rintro ⟨x, hanswers, hexact, hx⟩
    by_cases hxs : x = s
    · exact Or.inl (hxs ▸ hx)
    · exact Or.inr ⟨hexact hxs, hanswers.resolve_left hxs ▸ hx⟩

/-- No path goes on with a step of the query at a place where this one has another step. -/
def Unshadowed (reached : List Text → Prop) (w q : List Text) : Prop :=
  ∀ i s, q[i]? = some s → w[i]? ≠ some s → ¬ reached (w.take i ++ [s])

theorem unshadowed_cons {reached : List Text → Prop} {x s : Text} {w q : List Text} :
    Unshadowed reached (x :: w) (s :: q) ↔
      (x ≠ s → ¬ reached [s]) ∧ Unshadowed (fun steps => reached (x :: steps)) w q := by
  constructor
  · intro h
    refine ⟨fun hne => h 0 s rfl (by simpa using hne), fun i k hk hne => ?_⟩
    exact h (i + 1) k hk hne
  · rintro ⟨hhead, htail⟩ i k hk hne
    cases i with
    | zero =>
        obtain rfl : s = k := by simpa using hk
        exact hhead (by simpa using hne)
    | succ i => exact htail i k hk hne

/-- The answer for a query stands at the one path that answers it step by step and is not shadowed. -/
theorem find_eq_some_iff {t : Trie α} (ht : t.Flat) {q : List Text} (hq : ∀ s ∈ q, s ≠ recursiveMarker) {v : α} :
    (t.findSteps q).bind value = some v ↔
      ∃ w, List.Forall₂ Answers w q ∧ Unshadowed (fun steps => (t.at? steps).isSome = true) w q ∧
        t.valueAt w = some v := by
  -- along the query; the tree is then the branch that was taken
  induction q generalizing t with
  | nil =>
      constructor
      · intro h
        refine ⟨[], .nil, ?_, h⟩
        intro i s hs
        cases hs
      · rintro ⟨w, hanswers, -, hv⟩
        cases hanswers
        exact hv
  | cons s q ih =>
      have hs := hq s List.mem_cons_self
      have hq' : ∀ k ∈ q, k ≠ recursiveMarker := fun k hk => hq k (List.mem_cons_of_mem s hk)
      -- below a branch the paths that are reached are those of the branch
      have hreached (x : Text) (c : Trie α) (hx : t.branch? x = some c) :
          (fun steps => (t.at? (x :: steps)).isSome = true) = fun steps => (c.at? steps).isSome = true := by
        funext steps
        rw [at?_cons, hx, Option.bind_some]
      constructor
      · intro h
        rw [findSteps, Option.bind_assoc, Option.bind_eq_some_iff] at h
        obtain ⟨c, hc, hfound⟩ := h
        obtain ⟨x, hanswers, hexact, hx⟩ := (child?_eq_some_iff ht.isRecursive hs).mp hc
        obtain ⟨w, hw, hunshadowed, hv⟩ := (ih (ht.branch hx) hq').mp hfound
        refine ⟨x :: w, .cons hanswers hw, unshadowed_cons.mpr ⟨fun hne => ?_, ?_⟩, ?_⟩
        · rw [isSome_at?_singleton, hexact hne]
          exact Bool.false_ne_true
        · rw [hreached x c hx]
          exact hunshadowed
        · rw [valueAt_cons, hx]
          exact hv
      · rintro ⟨steps, hsteps, hunshadowed, hv⟩
        obtain ⟨x, w, hanswers, hw, rfl⟩ := List.forall₂_cons_right_iff.mp hsteps
        obtain ⟨hexact, htail⟩ := unshadowed_cons.mp hunshadowed
        rw [valueAt_cons, Option.bind_eq_some_iff] at hv
        obtain ⟨c, hx, hv⟩ := hv
        have hnone : x ≠ s → t.branch? s = none := by
          intro hne
          have hnot := hexact hne
          rwa [isSome_at?_singleton, Option.not_isSome_iff_eq_none] at hnot
        rw [hreached x c hx] at htail
        rw [findSteps, (child?_eq_some_iff ht.isRecursive hs).mpr ⟨x, hanswers, hnone, hx⟩, Option.bind_some]
        exact (ih (ht.branch hx) hq').mpr ⟨w, hw, htail, hv⟩

end Trie

end LayeredConfig
