import LayeredConfig.Proofs.Name.Trie
import LayeredConfig.Source

/-!
# `LayeredConfig.Proofs.Defaults` — which default answers for a name

Defaults are declared for paths, in which a `*` stands for any key and a `[*]` for any index. They are held in a tree,
and the tree is searched without turning back: a declared path that goes on with a step of the name hides, from this
step on, every path that has a wildcard in its place.

## Contents
- **Paths.** `Path.Matches`, and `Path.Unshadowed` for a match that is not hidden.
- **Tree.** The tree is made by one change for each pair, and the first value of a path stays
  (`Source.defaultsOfPaths_spec`).
- **Answers.** A name has a default if and only if a path that matches it is not hidden (`Source.default_iff`), and this
  is less than a match (`Source.default_hidden_by_literal`).
-/

namespace LayeredConfig

open Name

/-! ## Paths -/

/-- The path answers a name step by step: with the same step, or with a `*` for a key or a `[*]` for an index. -/
def Name.Path.Matches (p n : Path) : Prop := List.Forall₂ Trie.Answers p.steps n.steps

/-- Where the path has a wildcard instead of a step of the name, none of some paths goes on with the step. -/
def Name.Path.Unshadowed (ps : List Path) (p n : Path) : Prop :=
  Trie.Unshadowed (fun steps => ∃ d ∈ ps, steps <+: d.steps) p.steps n.steps

namespace Source

/-! ## Tree -/

/-- Stores a default at a node that has none. -/
def keepFirst (v : Text) (t : Trie Text) : Trie Text := if t.value.isSome then t else t.setValue (some v)

theorem onlyValue_keepFirst (v : Text) : Trie.OnlyValue (keepFirst v) fun o => o.or (some v) := by
  have hset := Trie.onlyValue_setValue (some v)
  constructor
  · intro t
    unfold keepFirst
    cases hvalue : t.value with
    | none => exact hset.value t
    | some w => exact hvalue
  · intro t s
    unfold keepFirst
    split
    · rfl
    · exact hset.branch t s
  · intro t
    unfold keepFirst
    split
    · rfl
    · exact hset.recursive t

/-- The tree of the defaults of some paths. -/
def defaultsOfPaths (es : List (Path × Text)) : Trie Text := defaultsOfPairs (es.map fun e => (e.1.text, e.2))

/-- The pairs as they are put into the tree. -/
def stepPairs (es : List (Path × Text)) : List (List Text × Text) := es.map fun e => (e.1.steps, e.2)

theorem defaultsOfPaths_eq (es : List (Path × Text)) :
    defaultsOfPaths es = (stepPairs es).foldl (fun t e => Trie.alterSteps (keepFirst e.2) e.1 t) .empty := by
  have hput (t : Trie Text) (p : Path) (v : Text) : t.putNew p.text v = Trie.alterSteps (keepFirst v) p.steps t := by
    rw [Trie.putNew, Trie.alter, p.keySteps_text]
    rfl
  rw [defaultsOfPaths, defaultsOfPairs, stepPairs, List.foldl_map, List.foldl_map]
  simp only [hput]

/-- Of the values of a path the first one stays. -/
theorem foldl_keepFirst (q : List Text) (ps : List (List Text × Text)) (o : Option Text) :
    ps.foldl (fun o e => if q = e.1 then o.or (some e.2) else o) o =
      o.or ((ps.find? fun e => e.1 = q).map Prod.snd) := by
  induction ps generalizing o with
  | nil => simp
  | cons e ps ih =>
      rw [List.foldl_cons, ih, List.find?_cons]
      by_cases hq : q = e.1
      · have hfirst : decide (e.1 = q) = true := decide_eq_true hq.symm
        rw [if_pos hq, hfirst, Option.map_some, Option.or_assoc]
        rfl
      · have hfirst : decide (e.1 = q) = false := decide_eq_false (Ne.symm hq)
        rw [if_neg hq, hfirst]

/-- What the tree of defaults is known by. -/
theorem defaultsOfPaths_spec (es : List (Path × Text)) :
    (defaultsOfPaths es).Flat ∧
      ∀ q, (((defaultsOfPaths es).at? q).isSome = true ↔ q = [] ∨ ∃ d ∈ es.map Prod.fst, q <+: d.steps) ∧
        (defaultsOfPaths es).valueAt q = (es.find? fun e => e.1.steps = q).map Prod.snd := by
  have hes : ∀ e ∈ stepPairs es, ∀ s ∈ e.1, s ≠ recursiveMarker := Path.ne_recursive_of_mem_map
  obtain ⟨hflat, hnodes⟩ := Trie.foldl_alterSteps_empty onlyValue_keepFirst hes
  rw [defaultsOfPaths_eq]
  refine ⟨hflat, fun q => ⟨?_, ?_⟩⟩
  · refine (hnodes q).1.trans (or_congr_right ?_)
    simp only [stepPairs, List.mem_map, exists_exists_and_eq_and]
  · refine (hnodes q).2.trans ?_
    rw [foldl_keepFirst, Option.none_or, stepPairs, List.find?_map, Option.map_map]
    rfl

/-! ## Answers -/

theorem get?_defaults (t : Trie Text) (n : Path) :
    (defaults t).get? n.text = (t.findSteps n.steps).bind Trie.value := by
  show t.get? n.text = _
  rw [Trie.get?, Trie.find?, n.keySteps_text, Option.bind_some]

/-- What hides a match goes on by at least one step, so the root plays no part. -/
theorem unshadowed_defaultsOfPaths {es : List (Path × Text)} {w q : List Text} :
    Trie.Unshadowed (fun steps => ((defaultsOfPaths es).at? steps).isSome = true) w q ↔
      Trie.Unshadowed (fun steps => ∃ d ∈ es.map Prod.fst, steps <+: d.steps) w q := by
  refine forall₂_congr fun i s => imp_congr_right fun _ => imp_congr_right fun _ => not_congr ?_
  have hne : w.take i ++ [s] ≠ [] := List.append_ne_nil_of_right_ne_nil _ (List.cons_ne_nil s [])
  exact ((defaultsOfPaths_spec es).2 _).1.trans (or_iff_right hne)

/-- The answer is the first value of the path that matches the name and is not hidden. -/
theorem get?_defaultsOfPaths_eq_some_iff {es : List (Path × Text)} {n : Path} {v : Text} :
    (defaults (defaultsOfPaths es)).get? n.text = some v ↔
      ∃ e ∈ es, e.1.Matches n ∧ e.1.Unshadowed (es.map Prod.fst) n ∧
        (es.find? fun d => d.1.steps = e.1.steps).map Prod.snd = some v := by
  obtain ⟨hflat, hnodes⟩ := defaultsOfPaths_spec es
  rw [get?_defaults, Trie.find_eq_some_iff hflat fun s hs => n.ne_recursive_of_mem_steps hs]
  constructor
  · rintro ⟨w, hmatches, hunshadowed, hv⟩
    rw [(hnodes w).2] at hv
    obtain ⟨e, he, -⟩ := Option.map_eq_some_iff.mp hv
    obtain rfl : e.1.steps = w := by simpa using List.find?_some he
    exact ⟨e, List.mem_of_find?_eq_some he, hmatches, unshadowed_defaultsOfPaths.mp hunshadowed, hv⟩
  · rintro ⟨e, -, hmatches, hunshadowed, hv⟩
    exact ⟨e.1.steps, hmatches, unshadowed_defaultsOfPaths.mpr hunshadowed, (hnodes _).2.trans hv⟩

/-- A name has a default if and only if one of the listed paths that match it is not hidden; its value is the first one
listed for this path. -/
theorem default_iff (es : List (Path × Text)) (n : Path) :
    (((defaults (defaultsOfPaths es)).get? n.text).isSome = true ↔
      ∃ e ∈ es, e.1.Matches n ∧ e.1.Unshadowed (es.map Prod.fst) n) ∧
    ∀ v, (defaults (defaultsOfPaths es)).get? n.text = some v ↔
      ∃ e ∈ es, e.1.Matches n ∧ e.1.Unshadowed (es.map Prod.fst) n ∧
        (es.find? fun d => d.1.steps = e.1.steps).map Prod.snd = some v := by
  refine ⟨?_, fun v => get?_defaultsOfPaths_eq_some_iff⟩
  rw [Option.isSome_iff_exists]
  constructor
  · rintro ⟨v, hv⟩
    obtain ⟨e, he, hmatches, hunshadowed, -⟩ := get?_defaultsOfPaths_eq_some_iff.mp hv
    exact ⟨e, he, hmatches, hunshadowed⟩
  · rintro ⟨e, he, hmatches, hunshadowed⟩
    -- the pair need not be the first one of its path
    have hlisted : (es.find? fun d => d.1.steps = e.1.steps).isSome = true :=
      List.find?_isSome.mpr ⟨e, he, decide_eq_true rfl⟩
    obtain ⟨d, hfirst⟩ := Option.isSome_iff_exists.mp hlisted
    have hv : (es.find? fun d => d.1.steps = e.1.steps).map Prod.snd = some d.2 := by rw [hfirst, Option.map_some]
    exact ⟨d.2, get?_defaultsOfPaths_eq_some_iff.mpr ⟨e, he, hmatches, hunshadowed, hv⟩⟩

/-- A plain key of one character. -/
def letter (c : Char) (h : c ≠ '.' ∧ c ≠ '"' ∧ c ≠ '[' ∧ c ≠ ']') : PathSegment :=
  ⟨.plain [c] (List.cons_ne_nil c []) (by simpa using h) (by simp [recursiveMarker]), []⟩

/-- A name that a listed path matches can be without default: another path, which does not match it, begins with the
key in the place of the wildcard. -/
theorem default_hidden_by_literal :
    ∃ wide narrow n : Path, wide.text = "a.*.c".toList ∧ narrow.text = "a.b.d".toList ∧ n.text = "a.b.c".toList ∧
      wide.Matches n ∧
      (defaults (defaultsOfPaths [(wide, "1".toList), (narrow, "2".toList)])).get? n.text = none := by
  let wide : Path := ⟨[letter 'a' (by decide), letter '*' (by decide), letter 'c' (by decide)], List.cons_ne_nil _ _⟩
  let narrow : Path := ⟨[letter 'a' (by decide), letter 'b' (by decide), letter 'd' (by decide)], List.cons_ne_nil _ _⟩
  let n : Path := ⟨[letter 'a' (by decide), letter 'b' (by decide), letter 'c' (by decide)], List.cons_ne_nil _ _⟩
  have hmatches : wide.Matches n := .cons (.inl rfl) (.cons (.inr rfl) (.cons (.inl rfl) .nil))
  exact ⟨wide, narrow, n, rfl, rfl, rfl, hmatches, by decide +kernel⟩

end Source

end LayeredConfig
