import LayeredConfig.Proofs.Name.Marked
import LayeredConfig.Proofs.Pipeline.Defaults
import LayeredConfig.Proofs.Schema.Declared

/-!
# `LayeredConfig.Proofs.Pipeline.Ignored` — how much a marked path keeps from being reported

The paths that are not checked against the schemas are plain keys, with the recursive marker behind them or not. A marked
path covers every name below it as long as no other path opens a place below it without marking this place as well.

## Contents
- **Names.** `MarkedPath.IsAbove`, by the spelling of a name; such a name has the keys of the path as its first steps
  (`MarkedPath.IsAbove.first_steps`).
- **Configurations.** `Parts.ignored_iff` says what is ignored, and when a marked path covers all names below it;
  `Parts.marked_path_left_open` is a name below a marked path that is reported.
-/

namespace LayeredConfig

open Text Name Family

namespace Name

/-! ## Names -/

/-- Segments behind a name, each with its dot. -/
def dots (ts : List Text) : Text := ts.flatMap fun t => '.' :: t

theorem dotted_cons (t : Text) (ts : List Text) : dotted (t :: ts) = t ++ dots ts := by
  induction ts generalizing t with
  | nil => exact (List.append_nil t).symm
  | cons u us ih => exact congrArg (fun r => t ++ '.' :: r) (ih u)

theorem dots_eq_nil_or (ts : List Text) : dots ts = [] ∨ ∃ v, dots ts = '.' :: v := by
  cases ts with
  | nil => exact Or.inl rfl
  | cons t ts => exact Or.inr ⟨_, rfl⟩

theorem follows_dots_append (ts : List Text) {u : Text} (hu : Follows u) : Follows (dots ts ++ u) := by
  cases ts with
  | nil => exact hu
  | cons t ts => exact follows_dot _

/-- A segment that is spelled like a plain key has this key as its base. -/
theorem PathSegment.steps_of_key {k : PlainKey} {s : PathSegment} {v w : Text} (hv : Follows v)
    (hw : w = [] ∨ ∃ u, w = '.' :: u) (h : k.text ++ v = s.text ++ w) :
    s.steps = k.text :: s.indexes.map Index.text ∧ v = s.indexes.flatMap Index.text ++ w := by
  obtain ⟨base, gs⟩ := s
  have htext : k.text ++ v = base.text ++ (gs.flatMap Index.text ++ w) := by
    rw [← List.append_assoc]
    exact h
  cases base with
  | plain t ne free single =>
      obtain ⟨hkey, hrest⟩ := eq_of_append_follows (fun c hc => ⟨(k.free c hc).1, (k.free c hc).2.2.1⟩)
        (fun c hc => ⟨(free c hc).1, (free c hc).2.2.1⟩) hv (follows_groups gs hw) htext
      refine ⟨?_, hrest⟩
      rw [hkey]
      rfl
  | quoted t free =>
      -- no key starts with a quote
      obtain ⟨c, r, hk⟩ := List.exists_cons_of_ne_nil k.ne
      rw [hk] at htext
      have hquote : c = '"' := (List.cons.inj htext).1
      exact absurd hquote (k.free c (hk ▸ List.mem_cons_self)).2.1

/-- Behind some groups, keys in the spelling of a name are steps of the name. -/
theorem keys_prefix_of_dots {ks : List PlainKey} {gs : List Index} {ss : List PathSegment} {u : Text} (hu : Follows u)
    (h : dots (ks.map PlainKey.text) ++ u = gs.flatMap Index.text ++ dots (ss.map PathSegment.text)) :
    ks.map PlainKey.text <+: gs.map Index.text ++ ss.flatMap PathSegment.steps := by
  induction ks generalizing gs ss with
  | nil => exact List.nil_prefix
  | cons k ks ih =>
      cases gs with
      | cons g gs => exact absurd (List.cons.inj h).1 (by decide)
      | nil =>
          cases ss with
          | nil => cases h
          | cons s ss =>
              have hkey : k.text ++ (dots (ks.map PlainKey.text) ++ u) = s.text ++ dots (ss.map PathSegment.text) := by
                rw [← List.append_assoc]
                exact (List.cons.inj h).2
              obtain ⟨hsteps, hrest⟩ :=
                PathSegment.steps_of_key (follows_dots_append _ hu) (dots_eq_nil_or _) hkey
              rw [List.map_cons, List.map_nil, List.nil_append, List.flatMap_cons, hsteps, List.cons_append]
              exact (List.prefix_cons_inj k.text).mpr (ih hrest)

/-- The name is the one at which the path stands, or goes on behind it with a dot or a bracket. -/
def MarkedPath.IsAbove (d : MarkedPath) (n : Text) : Prop := ∃ u, n = d.root ++ u ∧ Follows u

/-- The first steps of a name below a path are the keys of the path. -/
theorem MarkedPath.IsAbove.first_steps {d : MarkedPath} (hd : d.keys ≠ []) {n : Path} (h : d.IsAbove n.text) :
    d.keys.map PlainKey.text <+: n.steps := by
  obtain ⟨u, hn, hu⟩ := h
  obtain ⟨k, ks, hkeys⟩ := List.exists_cons_of_ne_nil hd
  obtain ⟨s, ss, hsegments⟩ := List.exists_cons_of_ne_nil n.ne
  rw [MarkedPath.root, PlainKey.joined, hkeys, Path.text, hsegments, List.map_cons, List.map_cons, dotted_cons,
    dotted_cons, List.append_assoc] at hn
  obtain ⟨hsteps, hrest⟩ := PathSegment.steps_of_key (follows_dots_append _ hu) (dots_eq_nil_or _) hn.symm
  rw [hkeys, Path.steps, hsegments, List.map_cons, List.flatMap_cons, hsteps, List.cons_append]
  exact (List.prefix_cons_inj k.text).mpr (keys_prefix_of_dots hu hrest)

end Name

/-! ## Configurations -/

/-- An ignored name is never reported as undeclared. -/
theorem Config.not_mem_undeclaredNames_of_ignored {c : Config} {n : Text} (h : c.pipeline.ignored.contains n = true) :
    n ∉ c.undeclaredNames := by
  intro hn
  have hundeclared := isUndeclared_of_mem_undeclaredNames hn
  simp [isUndeclared, h] at hundeclared

namespace Parts

open Trie

/-- **What is ignored.** In a configuration with a list of ignored paths a name is ignored as its steps are covered by
the list, and then never reported as undeclared. A marked path of the list is ignored itself. The names that go on behind
it with plain keys are all ignored if and only if the list holds, with the marker, every beginning of one of its paths
that lies at or below this path; and then so is every other name at or below it. -/
theorem ignored_iff (p : Parts) (es : List MarkedPath) (hes : p.ignoredPaths = es.map MarkedPath.text)
    (d : MarkedPath) (hd : d ∈ es) (hmarked : d.marked = true) (hkeys : d.keys ≠ []) :
    (∀ n : Path, p.ignoredTree.contains n.text = covers es n.steps) ∧
    (∀ files access n, p.ignoredTree.contains n = true →
      n ∉ (Config.mk (p.pipeline files) access).undeclaredNames) ∧
    p.ignoredTree.contains d.root = true ∧
    ((∀ ks, p.ignoredTree.contains (PlainKey.joined (d.keys ++ ks)) = true) ↔
      ∀ e ∈ es, ∀ w, d.keys <+: w → w <+: e.keys → ⟨w, true⟩ ∈ es) ∧
    ((∀ e ∈ es, ∀ w, d.keys <+: w → w <+: e.keys → ⟨w, true⟩ ∈ es) →
      ∀ n : Path, d.IsAbove n.text → p.ignoredTree.contains n.text = true) := by
  have htree : p.ignoredTree = ofMarked es := by
    rw [ignoredTree, hes, List.map_map]
    rfl
  have hname (ks : List PlainKey) : (ofMarked es).contains (PlainKey.joined ks) = covers es (ks.map PlainKey.text) := by
    refine contains_ofMarked es (PlainKey.keySteps_joined ks) fun s hs => ?_
    obtain ⟨k, -, rfl⟩ := List.mem_map.mp hs
    exact k.noMarker
  have hpath (n : Path) : (ofMarked es).contains n.text = covers es n.steps :=
    contains_ofMarked es n.keySteps_text fun s hs => n.ne_recursive_of_mem_steps hs
  -- behind the path its marker is left of it, and the answer is that of what is left of the list
  have hhere : ⟨d.keys ++ [], true⟩ ∈ es := by rwa [List.append_nil, ← hmarked]
  have hroot : ⟨[], true⟩ ∈ afterAll d.keys es := mem_afterAll.mpr hhere
  have hbehind (q : List Text) : covers es (d.keys.map PlainKey.text ++ q) = covers (afterAll d.keys es) q :=
    covers_keys_append (x := ⟨[], true⟩) hhere q
  rw [htree, ← filled_afterAll_iff]
  refine ⟨hpath, ?_, ?_, ⟨fun h => ?_, fun hfilled ks => ?_⟩, fun hfilled n hn => ?_⟩
  · intro files access n hn
    refine Config.not_mem_undeclaredNames_of_ignored ?_
    show p.ignoredTree.contains n = true
    rw [htree]
    exact hn
  · rw [MarkedPath.root, hname, ← List.append_nil (d.keys.map _), hbehind]
    exact ends_of_mem hroot
  · refine filled_of_covers fun ks => ?_
    rw [← hbehind, ← List.map_append, ← hname]
    exact h ks
  · rw [hname, List.map_append, hbehind]
    exact covers_of_filled hfilled hroot _
  · obtain ⟨q, hq⟩ := hn.first_steps hkeys
    rw [hpath, ← hq, hbehind]
    exact covers_of_filled hfilled hroot q

/-- Two marked paths, one below the other: everything at or below the upper one is ignored. -/
theorem ignored_iff_nested :
    let a : PlainKey := ⟨['a'], by decide, by decide, by decide, by decide⟩
    let b : PlainKey := ⟨['b'], by decide, by decide, by decide, by decide⟩
    let es : List MarkedPath := [⟨[a, b], true⟩, ⟨[a], true⟩]
    let p : Parts := { Parts.empty with ignoredPaths := ["a.b.**".toList, "a.**".toList] }
    p.ignoredPaths = es.map MarkedPath.text ∧ ⟨[a], true⟩ ∈ es ∧
      (∀ e ∈ es, ∀ w, [a] <+: w → w <+: e.keys → ⟨w, true⟩ ∈ es) ∧
      ∀ n : Path, MarkedPath.IsAbove ⟨[a], true⟩ n.text → p.ignoredTree.contains n.text = true := by
  intro a b es p
  have hes : p.ignoredPaths = es.map MarkedPath.text := rfl
  have hmem : ⟨[a], true⟩ ∈ es := List.mem_cons_of_mem _ (List.mem_singleton_self _)
  have hmarked : ∀ e ∈ es, ∀ w, [a] <+: w → w <+: e.keys → ⟨w, true⟩ ∈ es := by
    rintro e he w ⟨v, rfl⟩ hw
    rcases List.mem_pair.mp he with rfl | rfl
    · have hv : v <+: [b] := (List.prefix_cons_inj a).mp hw
      rcases List.prefix_cons_iff.mp hv with rfl | ⟨r, rfl, hr⟩
      · exact hmem
      · rw [List.prefix_nil.mp hr]
        exact List.mem_cons_self
    · have hv : v <+: [] := (List.prefix_cons_inj a).mp hw
      rw [List.prefix_nil.mp hv]
      exact hmem
  obtain ⟨-, -, -, -, hall⟩ := ignored_iff p es hes ⟨[a], true⟩ hmem rfl (List.cons_ne_nil a [])
  exact ⟨hes, hmem, hmarked, hall hmarked⟩

/-- A path below a marked one, given without a marker, leaves the names beside it open: they are reported although they go
on behind the marked path. -/
theorem marked_path_left_open :
    let app : PlainKey := ⟨"app".toList, by decide, by decide, by decide, by decide⟩
    let x : PlainKey := ⟨['x'], by decide, by decide, by decide, by decide⟩
    let a : PlainKey := ⟨['a'], by decide, by decide, by decide, by decide⟩
    let b : PlainKey := ⟨['b'], by decide, by decide, by decide, by decide⟩
    let t : TableSource := .ofProperties "map".toList (.ofPairs [("app.x.a.c".toList, "1".toList)])
    let p : Parts := { Parts.empty with
      sources := [.table t]
      schemas := [⟨"app".toList, [("known".toList, .leaf none)]⟩]
      ignoredPaths := ["app.x.**".toList, "app.x.a.b".toList] }
    p.ignoredPaths = [⟨[app, x], true⟩, ⟨[app, x, a, b], false⟩].map MarkedPath.text ∧
      MarkedPath.IsAbove ⟨[app, x], true⟩ "app.x.a.c".toList ∧
      p.ignoredTree.contains "app.x.a.c".toList = false ∧
      "app.x.a.c".toList ∈ (Config.mk (p.pipeline []) .locked).undeclaredNames := by
  intro app x a b t p
  refine ⟨rfl, ⟨".a.c".toList, rfl, follows_dot _⟩, by decide +kernel, ?_⟩
  have hregistry : (p.pipeline []).registry =
      ⟨[⟨.table t, 100, 0⟩, ⟨p.defaultSource, ordinalRange.least, 1⟩]⟩ :=
    congrArg Registry.mk (Registry.mergeSort_pair _ _ _)
  show _ ∈ NameSet.ofList _
  rw [NameSet.mem_ofList, List.mem_filter]
  refine ⟨?_, by decide +kernel⟩
  rw [Config.checkedNames, hregistry]
  decide +kernel

end Parts

end LayeredConfig
