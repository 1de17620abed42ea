import Mathlib.Data.List.Induction
import LayeredConfig.Proofs.Name.Trie

/-!
# `LayeredConfig.Proofs.Name.Marked` — trees of marked paths

A path of plain keys may end in the recursive marker. In a tree of such paths the branch for a key is again the tree of
a list of such paths: of what stands behind the key in those that start with it. So the tree answers from the list. A
step goes to the branch wherever some path starts with it; only where none does, a marked node answers for itself. That
is why a marked path does not cover what another path opens below it.

## Contents
- **Paths.** `PlainKey`, `MarkedPath`, and how they are taken apart (`MarkedPath.keySteps_text`).
- **Lists.** `after` a key and `afterAll` of some keys; `covers` is the answer of a list.
- **Tree.** `roots_ofMarked` says how a tree starts, `child?_ofMarked` where a step leads; `contains_ofMarked` is the
  answer to a name.
- **Coverage.** `Filled` lists cover everything (`covers_of_filled`), and no others do (`filled_of_covers`).
-/

namespace LayeredConfig

open Text Name

namespace Name

/-! ## Paths -/

/-- A key that is neither a wildcard nor a marker and needs no quotes. -/
@[ext]
structure PlainKey where
  text : Text
  ne : text ≠ []
  free : ∀ c ∈ text, c ≠ '.' ∧ c ≠ '"' ∧ c ≠ '[' ∧ c ≠ ']'
  noWildcard : text ≠ ['*']
  noMarker : text ≠ recursiveMarker

namespace PlainKey

theorem text_injective : Function.Injective PlainKey.text := fun _ _ h => PlainKey.ext h

/-- A plain key is taken literally. -/
theorem ofText_text (k : PlainKey) : Trie.Step.ofText k.text = .literal k.text := by
  rcases Trie.Step.ofText_cases k.text with h | h | h | h
  · exact absurd h k.noMarker
  · exact absurd h k.noWildcard
  · exact absurd rfl (k.free '[' (h ▸ List.mem_cons_self)).2.2.1
  · exact h

/-- There is always one more key. -/
theorem exists_fresh (ts : List Text) : ∃ k : PlainKey, k.text ∉ ts := by
  have hfree : ∀ c ∈ List.replicate (ts.flatten.length + 3) 'a', c ≠ '.' ∧ c ≠ '"' ∧ c ≠ '[' ∧ c ≠ ']' := by
    intro c hc
    rw [List.eq_of_mem_replicate hc]
    decide
  -- it is longer than all others, and than the wildcard and the marker
  have hlong (t : Text) (ht : t.length < ts.flatten.length + 3) : List.replicate (ts.flatten.length + 3) 'a' ≠ t := by
    intro h
    rw [← h, List.length_replicate] at ht
    exact absurd ht (Nat.lt_irrefl _)
  refine ⟨⟨List.replicate (ts.flatten.length + 3) 'a', hlong [] ?_, hfree, hlong ['*'] ?_, hlong recursiveMarker ?_⟩, ?_⟩
  · exact Nat.succ_pos _
  · exact Nat.succ_lt_succ (Nat.succ_pos _)
  · exact Nat.succ_lt_succ (Nat.succ_lt_succ (Nat.succ_pos _))
  · intro hmem
    exact hlong _ (Nat.lt_add_right 2 (Nat.lt_succ_of_le (List.sublist_flatten_of_mem hmem).length_le)) rfl

/-- The name of a sequence of keys. -/
def joined (ks : List PlainKey) : Text := dotted (ks.map PlainKey.text)

end PlainKey

/-- A path of plain keys, with the recursive marker behind them or not. -/
@[ext]
structure MarkedPath where
  keys : List PlainKey
  marked : Bool

namespace MarkedPath

/-- The marker of a path, if it has one. -/
def marker (e : MarkedPath) : List Text := if e.marked then [recursiveMarker] else []

/-- The steps of a path, its marker among them. -/
def steps (e : MarkedPath) : List Text := e.keys.map PlainKey.text ++ e.marker

/-- How a path is written. -/
def text (e : MarkedPath) : Text := dotted e.steps

/-- The name at which a path stands. -/
def root (e : MarkedPath) : Text := PlainKey.joined e.keys

end MarkedPath

/-- Pieces without dots, quotes and brackets are steps. -/
theorem keySteps_dotted {ts : List Text}
    (h : ∀ t ∈ ts, t ≠ [] ∧ ∀ c ∈ t, c ≠ '.' ∧ c ≠ '"' ∧ c ≠ '[' ∧ c ≠ ']') : keySteps (dotted ts) = some ts := by
  have hsplit : ts.mapM splitGroups = some (ts.map fun t => [t]) := by
    refine mapM_eq_some_map fun t ht => ?_
    have hlast : t.getLast? ≠ some ']' := fun hl => ((h t ht).2 ']' (List.mem_of_getLast? hl)).2.2.2 rfl
    rw [splitGroups, if_pos]
    simpa using Or.inl hlast
  cases ts with
  | nil => rfl
  | cons t ts =>
      have hne : dotted (t :: ts) ≠ [] := by
        cases ts with
        | nil => exact (h t List.mem_cons_self).1
        | cons u us => exact List.append_ne_nil_of_left_ne_nil (h t List.mem_cons_self).1 _
      have hsegments := (segmentsFrom_dotted (List.cons_ne_nil t ts) fun u hu => whole_of_free (h u hu).2).1
      rw [keySteps, segments_of_ne_nil hne, hsegments, hsplit, Option.map_some, ← List.flatMap_def,
        List.flatMap_singleton']

theorem PlainKey.keySteps_joined (ks : List PlainKey) : keySteps (joined ks) = some (ks.map PlainKey.text) := by
  refine keySteps_dotted fun t ht => ?_
  obtain ⟨k, -, rfl⟩ := List.mem_map.mp ht
  exact ⟨k.ne, k.free⟩

/-- A path is taken apart into its steps. -/
theorem MarkedPath.keySteps_text (e : MarkedPath) : keySteps e.text = some e.steps := by
  refine keySteps_dotted fun t ht => ?_
  rcases List.mem_append.mp ht with ht | ht
  · obtain ⟨k, -, rfl⟩ := List.mem_map.mp ht
    exact ⟨k.ne, k.free⟩
  · unfold marker at ht
    split at ht
    · rw [List.mem_singleton.mp ht]
      decide
    · cases ht

end Name

namespace Trie

/-! ## Lists -/

/-- What stands behind a key in a path that starts with it. -/
def behindKey (s : Text) : MarkedPath → Option MarkedPath
  | ⟨[], _⟩ => none
  | ⟨k :: r, m⟩ => if k.text = s then some ⟨r, m⟩ else none

/-- What stands behind a key in those of some paths that start with it. -/
def after (s : Text) (es : List MarkedPath) : List MarkedPath := es.filterMap (behindKey s)

/-- What stands behind some keys in those of some paths that start with them. -/
def afterAll (ks : List PlainKey) (es : List MarkedPath) : List MarkedPath :=
  ks.foldl (fun es k => after k.text es) es

/-- Whether a list holds the path without keys. -/
def ends (es : List MarkedPath) : Bool := es.any fun e => e.keys.isEmpty

/-- Whether it holds this path with the marker. -/
def marks (es : List MarkedPath) : Bool := es.any fun e => e.keys.isEmpty && e.marked

/-- The answer of a list of paths to a list of steps. A step that starts some of them leaves what stands behind it in
these; any other step leaves the list as it is, provided that it marks the place. -/
def covers : List MarkedPath → List Text → Bool
  | es, [] => ends es
  | es, s :: q => if after s es = [] then marks es && covers es q else covers (after s es) q

theorem behindKey_eq_some_iff {s : Text} {e x : MarkedPath} :
    behindKey s e = some x ↔ ∃ k : PlainKey, k.text = s ∧ e = ⟨k :: x.keys, x.marked⟩ := by
  obtain ⟨keys, marked⟩ := e
  cases keys with
  | nil => simp [behindKey]
  | cons k r =>
      rw [behindKey, Option.ite_none_right_eq_some, Option.some.injEq]
      constructor
      · rintro ⟨hkey, rfl⟩
        exact ⟨k, hkey, rfl⟩
      · rintro ⟨j, hkey, he⟩
        cases he
        exact ⟨hkey, rfl⟩

/-- A step behind which something stands is the first key of some path. -/
theorem mem_after_iff_exists {s : Text} {x : MarkedPath} {es : List MarkedPath} :
    x ∈ after s es ↔ ∃ k : PlainKey, k.text = s ∧ ⟨k :: x.keys, x.marked⟩ ∈ es := by
  unfold after
  rw [List.mem_filterMap]
  simp only [behindKey_eq_some_iff]
  constructor
  · rintro ⟨e, he, k, hkey, rfl⟩
    exact ⟨k, hkey, he⟩
  · rintro ⟨k, hkey, he⟩
    exact ⟨_, he, k, hkey, rfl⟩

theorem mem_after {k : PlainKey} {x : MarkedPath} {es : List MarkedPath} :
    x ∈ after k.text es ↔ ⟨k :: x.keys, x.marked⟩ ∈ es := by
  rw [mem_after_iff_exists]
  constructor
  · rintro ⟨j, hkey, he⟩
    rwa [PlainKey.text_injective hkey] at he
  · intro he
    exact ⟨k, rfl, he⟩

theorem mem_afterAll {ks : List PlainKey} {x : MarkedPath} {es : List MarkedPath} :
    x ∈ afterAll ks es ↔ ⟨ks ++ x.keys, x.marked⟩ ∈ es := by
  induction ks generalizing es with
  | nil => rfl
  | cons k ks ih => exact ih.trans (mem_after (x := ⟨ks ++ x.keys, x.marked⟩))

/-- No path starts with a wildcard or a group. -/
theorem after_eq_nil_of_not_key {s : Text} (hs : ∀ k : PlainKey, k.text ≠ s) (es : List MarkedPath) :
    after s es = [] := by
  refine List.eq_nil_iff_forall_not_mem.mpr fun x hx => ?_
  obtain ⟨k, hkey, -⟩ := mem_after_iff_exists.mp hx
  exact hs k hkey

theorem marks_iff {es : List MarkedPath} : marks es = true ↔ ⟨[], true⟩ ∈ es := by
  simp only [marks, List.any_eq_true, Bool.and_eq_true, List.isEmpty_iff]
  constructor
  · rintro ⟨⟨keys, marked⟩, he, rfl, rfl⟩
    exact he
  · intro he
    exact ⟨_, he, rfl, rfl⟩

theorem ends_of_mem {es : List MarkedPath} {m : Bool} (h : ⟨[], m⟩ ∈ es) : ends es = true :=
  List.any_eq_true.mpr ⟨_, h, rfl⟩

/-! ## Tree -/

/-- The tree of a list of paths. -/
def ofMarked (es : List MarkedPath) : Trie Unit := ofPairs (es.map fun e => (e.text, ()))

theorem ofMarked_concat (es : List MarkedPath) (e : MarkedPath) :
    ofMarked (es ++ [e]) = alterSteps (setValue (some ())) e.steps (ofMarked es) := by
  unfold ofMarked ofPairs
  rw [List.map_append, List.foldl_append]
  show put _ e.text () = _
  rw [put, alter, e.keySteps_text]

/-- What a list of paths says of the root of its tree. -/
structure Roots (es : List MarkedPath) (t : Trie Unit) : Prop where
  value : t.value.isSome = ends es
  recursive : t.isRecursive = marks es
  any : t.any = none
  anyIndex : t.anyIndex = none
  children (s : Text) : lookupKey s t.children = if after s es = [] then none else some (ofMarked (after s es))

/-- A put at the root. -/
theorem Roots.put_root {es : List MarkedPath} {t : Trie Unit} (h : Roots es t) (m : Bool) :
    Roots (es ++ [⟨[], m⟩]) (alterSteps (setValue (some ())) (MarkedPath.steps ⟨[], m⟩) t) := by
  obtain ⟨v, cs, a, i, rec⟩ := t
  obtain ⟨hvalue, hrecursive, hany, hindex, hchildren⟩ := h
  have hafter (s : Text) : after s (es ++ [⟨[], m⟩]) = after s es := by
    rw [after, List.filterMap_append]
    exact List.append_nil _
  have hmarks : marks (es ++ [⟨[], m⟩]) = (marks es || m) := by simp [marks]
  have hends : ends (es ++ [⟨[], m⟩]) = true := by simp [ends]
  have hnode : alterSteps (setValue (some ())) (MarkedPath.steps ⟨[], m⟩) (.node v cs a i rec) =
      .node (some ()) cs a i (rec || m) := by
    cases m with
    | true => exact congrArg (Trie.node (some ()) cs a i) (Bool.or_true rec).symm
    | false => exact congrArg (Trie.node (some ()) cs a i) (Bool.or_false rec).symm
  rw [hnode]
  refine ⟨hends.symm, ?_, hany, hindex, fun s => ?_⟩
  · rw [hmarks, ← hrecursive]
    rfl
  · rw [hafter]
    exact hchildren s

/-- A put behind a key changes the branch of this key, as a put in the tree of what stands behind it. -/
theorem Roots.put_key {es : List MarkedPath} {t : Trie Unit} (h : Roots es t) (k : PlainKey) (x : MarkedPath) :
    Roots (es ++ [⟨k :: x.keys, x.marked⟩])
      (alterSteps (setValue (some ())) (MarkedPath.steps ⟨k :: x.keys, x.marked⟩) t) := by
  obtain ⟨v, cs, a, i, rec⟩ := t
  obtain ⟨hvalue, hrecursive, hany, hindex, hchildren⟩ := h
  have hnode : alterSteps (setValue (some ())) (MarkedPath.steps ⟨k :: x.keys, x.marked⟩) (.node v cs a i rec) =
      .node v (alterChild (alterSteps (setValue (some ())) x.steps) k.text cs) a i rec := by
    show alterSteps _ (k.text :: x.steps) _ = _
    rw [alterSteps, k.ofText_text]
  have hafter (s : Text) : after s (es ++ [⟨k :: x.keys, x.marked⟩]) =
      after s es ++ if k.text = s then [x] else [] := by
    rw [after, List.filterMap_append]
    refine congrArg (after s es ++ ·) ?_
    by_cases hs : k.text = s
    · rw [if_pos hs]
      exact List.filterMap_cons_some (if_pos hs)
    · rw [if_neg hs]
      exact List.filterMap_cons_none (if_neg hs)
  have hends : ends (es ++ [⟨k :: x.keys, x.marked⟩]) = ends es := by simp [ends]
  have hmarks : marks (es ++ [⟨k :: x.keys, x.marked⟩]) = marks es := by simp [marks]
  rw [hnode]
  refine ⟨hvalue.trans hends.symm, hrecursive.trans hmarks.symm, hany, hindex, fun s => ?_⟩
  rw [hafter]
  show lookupKey s (alterChild _ _ _) = _
  rw [lookupKey_alterChild]
  by_cases hs : s = k.text
  · subst hs
    -- a branch that is missing is the tree of no paths
    have hbefore : (lookupKey k.text cs).getD empty = ofMarked (after k.text es) := by
      rw [show lookupKey k.text cs = _ from hchildren k.text]
      split
      · next hnil => rw [hnil]; rfl
      · rfl
    rw [if_pos rfl, if_pos rfl, if_neg (List.append_ne_nil_of_right_ne_nil _ (List.cons_ne_nil x [])), hbefore,
      ofMarked_concat]
  · rw [if_neg hs, if_neg (Ne.symm hs), List.append_nil]
    exact hchildren s

theorem roots_ofMarked (es : List MarkedPath) : Roots es (ofMarked es) := by
  induction es using List.reverseRecOn with
  | nil => exact ⟨rfl, rfl, rfl, rfl, fun _ => rfl⟩
  | append_singleton es e ih =>
      rw [ofMarked_concat]
      obtain ⟨keys, marked⟩ := e
      cases keys with
      | nil => exact ih.put_root marked
      | cons k r => exact ih.put_key k ⟨r, marked⟩

/-- A step goes to the branch for it wherever some path starts with it; otherwise a marked root answers for itself. -/
theorem child?_ofMarked (es : List MarkedPath) {s : Text} (hs : s ≠ recursiveMarker) :
    (ofMarked es).child? s =
      if after s es = [] then if marks es then some (ofMarked es) else none else some (ofMarked (after s es)) := by
  obtain ⟨-, hrecursive, hany, hindex, hchildren⟩ := roots_ofMarked es
  have hwildcard (t : Text) : (ofMarked es).wildcardFor t = none := by
    unfold wildcardFor
    split
    · exact hindex
    · exact hany
  rw [child?, hrecursive]
  rcases Step.ofText_cases s with rfl | rfl | rfl | hliteral
  · exact absurd rfl hs
  · rw [if_pos (after_eq_nil_of_not_key (fun k => k.noWildcard) es)]
    exact congrArg (Option.or · _) hany
  · have hgroup (k : PlainKey) : k.text ≠ ['[', '*', ']'] :=
      fun h => (k.free '[' (h ▸ List.mem_cons_self)).2.2.1 rfl
    rw [if_pos (after_eq_nil_of_not_key hgroup es)]
    exact congrArg (Option.or · _) hindex
  · rw [hliteral]
    dsimp only
    rw [hchildren, hwildcard, Option.or_none]
    split
    · rw [Option.none_or]
    · rw [Option.some_or]

/-- So the tree answers from the list. -/
theorem isSome_findSteps_ofMarked (es : List MarkedPath) {q : List Text} (hq : ∀ s ∈ q, s ≠ recursiveMarker) :
    (((ofMarked es).findSteps q).bind value).isSome = covers es q := by
  -- along the query, which either goes into the tree of a shorter list or stays
  induction q generalizing es with
  | nil => exact (roots_ofMarked es).value
  | cons s q ih =>
      have hrest : ∀ t ∈ q, t ≠ recursiveMarker := fun t ht => hq t (List.mem_cons_of_mem s ht)
      rw [findSteps, child?_ofMarked es (hq s List.mem_cons_self), covers]
      by_cases hafter : after s es = []
      · rw [if_pos hafter, if_pos hafter]
        cases hmarks : marks es with
        | true => exact (ih es hrest).trans (Bool.true_and _).symm
        | false => rfl
      · rw [if_neg hafter, if_neg hafter]
        exact ih (after s es) hrest

theorem contains_ofMarked (es : List MarkedPath) {n : Text} {q : List Text} (hn : keySteps n = some q)
    (hq : ∀ s ∈ q, s ≠ recursiveMarker) : (ofMarked es).contains n = covers es q := by
  rw [contains, get?, find?, hn, Option.bind_some]
  exact isSome_findSteps_ofMarked es hq

/-! ## Coverage -/

/-- A list in which every path is marked, and every beginning of a path is there and marked, too. -/
def Filled (es : List MarkedPath) : Prop := ∀ e ∈ es, ∀ w, w <+: e.keys → ⟨w, true⟩ ∈ es

/-- Along the keys of a path that is there the answer is that of what stands behind them. -/
theorem covers_keys_append {ks : List PlainKey} {x : MarkedPath} {es : List MarkedPath}
    (h : ⟨ks ++ x.keys, x.marked⟩ ∈ es) (q : List Text) :
    covers es (ks.map PlainKey.text ++ q) = covers (afterAll ks es) q := by
  induction ks generalizing es with
  | nil => rfl
  | cons k ks ih =>
      have hmem : ⟨ks ++ x.keys, x.marked⟩ ∈ after k.text es := mem_after.mpr h
      rw [List.map_cons, List.cons_append, covers, if_neg (List.ne_nil_of_mem hmem)]
      exact ih hmem

theorem Filled.after {es : List MarkedPath} (h : Filled es) (k : PlainKey) : Filled (after k.text es) := by
  intro e he w hw
  exact mem_after.mpr (h _ (mem_after.mp he) (k :: w) ((List.prefix_cons_inj k).mpr hw))

/-- What stands behind some keys is filled if every beginning of a path that goes on behind them is marked. -/
theorem filled_afterAll_iff {ks : List PlainKey} {es : List MarkedPath} :
    Filled (afterAll ks es) ↔ ∀ e ∈ es, ∀ w, ks <+: w → w <+: e.keys → ⟨w, true⟩ ∈ es := by
  constructor
  · rintro h ⟨keys, m⟩ he w ⟨v, rfl⟩ ⟨r, rfl⟩
    rw [List.append_assoc] at he
    exact mem_afterAll.mp (h ⟨v ++ r, m⟩ (mem_afterAll.mpr he) v (List.prefix_append v r))
  · rintro h x hx w hw
    exact mem_afterAll.mpr (h _ (mem_afterAll.mp hx) (ks ++ w) (List.prefix_append ks w)
      ((List.prefix_append_right_inj ks).mpr hw))

/-- A filled list that marks its root covers everything. -/
theorem covers_of_filled {es : List MarkedPath} (hfilled : Filled es) (hroot : ⟨[], true⟩ ∈ es) (q : List Text) :
    covers es q = true := by
  induction q generalizing es with
  | nil => exact ends_of_mem hroot
  | cons s q ih =>
      rw [covers]
      by_cases hafter : Trie.after s es = []
      · rw [if_pos hafter, marks_iff.mpr hroot, ih hfilled hroot]
        rfl
      · -- the first key of a path is a path itself, and marked
        obtain ⟨x, hx⟩ := List.exists_mem_of_ne_nil _ hafter
        obtain ⟨k, rfl, he⟩ := mem_after_iff_exists.mp hx
        have hkey : ⟨[k], true⟩ ∈ es := hfilled _ he [k] (by simp)
        rw [if_neg hafter]
        exact ih (hfilled.after k) (mem_after.mpr hkey)

/-- A list that covers all sequences of keys is filled: a beginning that is not marked leaves a key uncovered with which
no path goes on. -/
theorem filled_of_covers {es : List MarkedPath} (h : ∀ ks : List PlainKey, covers es (ks.map PlainKey.text) = true) :
    Filled es := by
  rintro ⟨keys, m⟩ he w ⟨r, rfl⟩
  obtain ⟨k, hk⟩ := PlainKey.exists_fresh (es.flatMap fun e => e.keys.map PlainKey.text)
  have hfresh : after k.text (afterAll w es) = [] := by
    refine List.eq_nil_iff_forall_not_mem.mpr fun x hx => hk ?_
    have hmem := mem_afterAll.mp (mem_after.mp hx)
    exact List.mem_flatMap.mpr ⟨_, hmem, List.mem_map_of_mem (by simp)⟩
  have hcovers := h (w ++ [k])
  rw [List.map_append, covers_keys_append (x := ⟨r, m⟩) he, List.map_singleton, covers, if_pos hfresh,
    Bool.and_eq_true, marks_iff, mem_afterAll, List.append_nil] at hcovers
  exact hcovers.1

end Trie

end LayeredConfig
