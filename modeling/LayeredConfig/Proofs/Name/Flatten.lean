import LayeredConfig.Proofs.Name.History
import Mathlib.Data.Set.List

/-!
# `LayeredConfig.Proofs.Name.Flatten` — a tree of paths as a table of names

Flattening writes the steps of every value in a tree as a name again. Where the branches of each node have different
keys, it lists the values of the tree and nothing else; where they stand at the steps of paths, no two of them get one
name. So the table of a tree is the table of the values put into it, and says everything about a tree made by puts.

## Contents
- **Branches.** `Tidy` trees keep every branch once; changes and merging keep them tidy (`Tidy.alterSteps`,
  `Tidy.merge`).
- **Merging.** `valueAt_merge`: the values of the first tree, and those of the second where the first has none.
- **Names.** `nameBelow` writes steps as a name, and the steps of a path as its text (`nameBelow_steps`).
- **Tables.** `get?_flatten` for any tidy tree with values at paths, `flatten_ofPaths` for the tree of a list of puts,
  which answers as its table does (`get?_ofPaths_congr`).
- **Main statement.** `flatten_faithful`.
-/

namespace LayeredConfig

open Name

namespace Trie

variable {α : Type}

/-! ## Branches -/

/-- In the tree and in all of its branches, the literal branches of a node have different keys, and none of these is
read as a wildcard or as the recursive marker. -/
inductive Tidy : Trie α → Prop where
  | node {v : Option α} {cs : List (Text × Trie α)} {a i : Option (Trie α)} {rec : Bool}
      (nodup : (cs.map Prod.fst).Nodup) (literal : ∀ e ∈ cs, Step.ofText e.1 = .literal e.1)
      (below : ∀ e ∈ cs, Tidy e.2) (any : ∀ t ∈ a, Tidy t) (anyIndex : ∀ t ∈ i, Tidy t) :
      Tidy (.node v cs a i rec)

/-- The same of the literal branches of one node. -/
structure TidyList (cs : List (Text × Trie α)) : Prop where
  nodup : (cs.map Prod.fst).Nodup
  literal : ∀ e ∈ cs, Step.ofText e.1 = .literal e.1
  below : ∀ e ∈ cs, Tidy e.2

theorem tidyList_nil : TidyList ([] : List (Text × Trie α)) :=
  ⟨List.nodup_nil, fun _ he => absurd he List.not_mem_nil, fun _ he => absurd he List.not_mem_nil⟩

theorem tidy_empty : (empty : Trie α).Tidy :=
  .node tidyList_nil.nodup tidyList_nil.literal tidyList_nil.below (fun _ h => by cases h) fun _ h => by cases h

theorem TidyList.tail {e : Text × Trie α} {cs : List (Text × Trie α)} (h : TidyList (e :: cs)) : TidyList cs where
  nodup := (List.nodup_cons.mp h.nodup).2
  literal d hd := h.literal d (List.mem_cons_of_mem e hd)
  below d hd := h.below d (List.mem_cons_of_mem e hd)

/-- The value of an entry under a key that stands in the list once. -/
theorem TidyList.lookupKey_iff {cs : List (Text × Trie α)} (h : TidyList cs) {key : Text} {c : Trie α} :
    lookupKey key cs = some c ↔ (key, c) ∈ cs :=
  lookupKey_eq_some_iff_of_nodup h.nodup

/-- A key changed in a list is the only one that may be new in it. -/
theorem key_of_mem_alterChild {f : Trie α → Trie α} {key : Text} {cs : List (Text × Trie α)} {e : Text × Trie α}
    (h : e ∈ alterChild f key cs) : e ∈ cs ∨ e.1 = key ∧ (e.2 = f empty ∨ ∃ c, (key, c) ∈ cs ∧ e.2 = f c) := by
  induction cs with
  | nil =>
      rw [List.mem_singleton.mp h]
      exact Or.inr ⟨rfl, Or.inl rfl⟩
  | cons d cs ih =>
      unfold alterChild at h
      split at h
      · next hkey =>
          rcases List.mem_cons.mp h with rfl | h
          · exact Or.inr ⟨hkey.symm, Or.inr ⟨d.2, hkey ▸ List.mem_cons_self, rfl⟩⟩
          · exact Or.inl (List.mem_cons_of_mem d h)
      · rcases List.mem_cons.mp h with rfl | h
        · exact Or.inl List.mem_cons_self
        · rcases ih h with h | ⟨hkey, hnew | ⟨c, hc, hnew⟩⟩
          · exact Or.inl (List.mem_cons_of_mem d h)
          · exact Or.inr ⟨hkey, Or.inl hnew⟩
          · exact Or.inr ⟨hkey, Or.inr ⟨c, List.mem_cons_of_mem d hc, hnew⟩⟩

/-- A change of a branch keeps a list of branches tidy when it keeps branches so. -/
theorem TidyList.alterChild {f : Trie α → Trie α} (hf : ∀ t, Tidy t → Tidy (f t)) {key : Text}
    (hkey : Step.ofText key = .literal key) {cs : List (Text × Trie α)} (h : TidyList cs) :
    TidyList (Trie.alterChild f key cs) where
  nodup := by
    induction cs with
    | nil => exact List.nodup_singleton key
    | cons e cs ih =>
        have hcs := h.tail
        unfold Trie.alterChild
        split
        · exact h.nodup
        · next hne =>
            refine List.nodup_cons.mpr ⟨?_, ih hcs⟩
            intro hmem
            obtain ⟨d, hd, heq⟩ := List.mem_map.mp hmem
            rcases key_of_mem_alterChild hd with hd | ⟨hnew, -⟩
            · exact (List.nodup_cons.mp h.nodup).1 (List.mem_map.mpr ⟨d, hd, heq⟩)
            · exact hne (hnew.symm.trans heq)
  literal e he := by
    rcases key_of_mem_alterChild he with he | ⟨hnew, -⟩
    · exact h.literal e he
    · rw [hnew, hkey]
  below e he := by
    rcases key_of_mem_alterChild he with he | ⟨-, hnew | ⟨c, hc, hnew⟩⟩
    · exact h.below e he
    · rw [hnew]
      exact hf empty tidy_empty
    · rw [hnew]
      exact hf c (h.below _ hc)

theorem Tidy.children {v : Option α} {cs : List (Text × Trie α)} {a i : Option (Trie α)} {rec : Bool}
    (h : Tidy (.node v cs a i rec)) : TidyList cs := by
  cases h with
  | node nodup literal below any anyIndex => exact ⟨nodup, literal, below⟩

/-- A wildcard branch is tidy, and so is what a change finds in place of a missing one. -/
theorem tidy_getD_empty {b : Option (Trie α)} (h : ∀ t ∈ b, Tidy t) : (b.getD empty).Tidy := by
  cases b with
  | none => exact tidy_empty
  | some t => exact h t rfl

/-- A change at a path keeps a tree tidy when it does so at its node. -/
theorem Tidy.alterSteps {f : Trie α → Trie α} (hf : ∀ t, Tidy t → Tidy (f t)) (p : List Text) {t : Trie α}
    (h : t.Tidy) : (Trie.alterSteps f p t).Tidy := by
  induction p generalizing t with
  | nil => exact hf t h
  | cons s p ih =>
      cases h with
      | @node v cs a i rec nodup literal below any anyIndex =>
          have hbranch {b : Option (Trie α)} (hb : ∀ t ∈ b, Tidy t) :
              ∀ t ∈ some (Trie.alterSteps f p (b.getD empty)), Tidy t := by
            intro t ht
            rw [← Option.some.inj ht]
            exact ih (tidy_getD_empty hb)
          rcases Step.ofText_cases s with rfl | rfl | rfl | hs
          · exact ih (.node nodup literal below any anyIndex)
          · cases rec with
            | true => exact ih (.node nodup literal below any anyIndex)
            | false => exact .node nodup literal below (hbranch any) anyIndex
          · cases rec with
            | true => exact ih (.node nodup literal below any anyIndex)
            | false => exact .node nodup literal below any (hbranch anyIndex)
          · have hlist : TidyList (Trie.alterChild (Trie.alterSteps f p) s cs) :=
              TidyList.alterChild (fun t ht => ih ht) hs ⟨nodup, literal, below⟩
            rw [Trie.alterSteps, hs]
            exact .node hlist.nodup hlist.literal hlist.below any anyIndex

theorem tidy_setValue (v : Option α) {t : Trie α} (h : t.Tidy) : (t.setValue v).Tidy := by
  cases h with
  | node nodup literal below any anyIndex => exact .node nodup literal below any anyIndex

/-! ## Merging -/

theorem TidyList.mergeChildren {cs ds : List (Text × Trie α)} (hcs : TidyList cs)
    (hkeys : ∀ e ∈ ds, Step.ofText e.1 = .literal e.1) (hds : ∀ e ∈ ds, ∀ t, Tidy t → Tidy (Trie.merge t e.2)) :
    TidyList (Trie.mergeChildren cs ds) := by
  induction ds generalizing cs with
  | nil => exact hcs
  | cons e ds ih =>
      have hhead := hcs.alterChild (hds e List.mem_cons_self) (hkeys e List.mem_cons_self)
      rw [Trie.mergeChildren]
      exact ih hhead (fun d hd => hkeys d (List.mem_cons_of_mem e hd)) fun d hd => hds d (List.mem_cons_of_mem e hd)

theorem Tidy.merge {s t : Trie α} (hs : s.Tidy) (ht : t.Tidy) : (Trie.merge s t).Tidy := by
  induction ht generalizing s with
  | @node v cs a i rec nodup literal below any anyIndex ihBelow ihAny ihIndex =>
      have hbranch {b c : Option (Trie α)} (hb : ∀ t ∈ b, Tidy t)
          (hc : ∀ t ∈ c, ∀ {s : Trie α}, s.Tidy → (Trie.merge s t).Tidy) : ∀ t ∈ mergeBranch b c, Tidy t := by
        intro t hmem
        cases c with
        | none => exact hb t (by cases b <;> exact hmem)
        | some c =>
            cases b with
            | none => exact Option.some.inj hmem ▸ hc c rfl tidy_empty
            | some b => exact Option.some.inj hmem ▸ hc c rfl (hb b rfl)
      cases hs with
      | node nodup' literal' below' any' anyIndex' =>
          have hlist : TidyList (Trie.mergeChildren _ cs) :=
            TidyList.mergeChildren ⟨nodup', literal', below'⟩ literal fun e he t ht => ihBelow e he ht
          rw [Trie.merge]
          exact .node hlist.nodup hlist.literal hlist.below (hbranch any' ihAny) (hbranch anyIndex' ihIndex)

/-- Literal branches are merged key by key. -/
theorem lookupKey_mergeChildren {cs ds : List (Text × Trie α)} (hds : (ds.map Prod.fst).Nodup) (key : Text) :
    lookupKey key (mergeChildren cs ds) = mergeBranch (lookupKey key cs) (lookupKey key ds) := by
  induction ds generalizing cs with
  | nil =>
      rw [mergeChildren]
      cases lookupKey key cs <;> rfl
  | cons e ds ih =>
      obtain ⟨hnew, hds⟩ := List.nodup_cons.mp hds
      rw [mergeChildren, ih hds, lookupKey_alterChild]
      by_cases hkey : key = e.1
      · -- the entries behind do not touch this key again
        have hnone : lookupKey key ds = none := by
          cases hfound : lookupKey key ds with
          | none => rfl
          | some c => exact absurd (List.mem_map.mpr ⟨(key, c), mem_of_lookupKey hfound, hkey⟩) hnew
        rw [if_pos hkey, hnone, lookupKey, if_pos hkey, ← hkey]
        cases lookupKey key cs <;> rfl
      · rw [if_neg hkey, lookupKey, if_neg hkey]

theorem branch?_merge (s : Trie α) {t : Trie α} (ht : t.Tidy) (step : Text) :
    (merge s t).branch? step = mergeBranch (s.branch? step) (t.branch? step) := by
  obtain ⟨v, cs, a, i, rec⟩ := s
  obtain ⟨v', cs', a', i', rec'⟩ := t
  rw [merge]
  unfold branch?
  cases Step.ofText step with
  | recursive => rfl
  | anyKey => rfl
  | anyIndex => rfl
  | literal key => exact lookupKey_mergeChildren ht.children.nodup key

theorem Tidy.branch {t c : Trie α} (ht : t.Tidy) {s : Text} (hc : t.branch? s = some c) : c.Tidy := by
  cases ht with
  | node nodup literal below any anyIndex =>
      unfold branch? at hc
      cases hs : Step.ofText s with
      | recursive =>
          rw [hs] at hc
          cases hc
      | anyKey =>
          rw [hs] at hc
          exact any c hc
      | anyIndex =>
          rw [hs] at hc
          exact anyIndex c hc
      | literal key =>
          rw [hs] at hc
          exact below _ (mem_of_lookupKey hc)

/-- After merging, a value is that of the first tree, or else that of the second. -/
theorem valueAt_merge (s : Trie α) {t : Trie α} (ht : t.Tidy) (q : List Text) :
    (merge s t).valueAt q = (s.valueAt q).or (t.valueAt q) := by
  induction q generalizing s t with
  | nil =>
      cases s
      cases t
      rw [merge]
      rfl
  | cons k q ih =>
      rw [valueAt_cons, valueAt_cons, valueAt_cons, branch?_merge s ht]
      cases hc : t.branch? k with
      | none => cases s.branch? k <;> simp [mergeBranch]
      | some c =>
          have hc := ht.branch hc
          cases s.branch? k with
          | none =>
              rw [mergeBranch, Option.bind_some, Option.bind_some, Option.bind_none, ih empty hc, valueAt_empty]
          | some b => exact ih b hc

/-! ## Names -/

/-- Steps behind a name, written as a name again. -/
def nameBelow (path : Text) (steps : List Text) : Text := steps.foldl join path

theorem join_group {path : Text} (h : path ≠ []) (g : Index) : join path g.text = path ++ g.text := by
  unfold join
  rw [if_neg (by simpa using h)]
  rfl

theorem nameBelow_groups {path : Text} (h : path ≠ []) (gs : List Index) :
    nameBelow path (gs.map Index.text) = path ++ gs.flatMap Index.text := by
  induction gs generalizing path with
  | nil => exact (List.append_nil path).symm
  | cons g gs ih =>
      have hne : path ++ g.text ≠ [] := List.append_ne_nil_of_left_ne_nil h _
      rw [List.map_cons, List.flatMap_cons, nameBelow, List.foldl_cons, join_group h]
      exact (ih hne).trans (List.append_assoc _ _ _)

/-- The first step of a segment is put behind a dot. -/
theorem join_dot {path t : Text} (h : path ≠ []) (ht : t.head? ≠ some '[') : join path t = path ++ '.' :: t := by
  unfold join
  rw [if_neg (by simpa using h)]
  split
  · exact absurd rfl ht
  · rfl

theorem nameBelow_segment (path : Text) (s : PathSegment) :
    nameBelow path s.steps = if path = [] then s.text else path ++ '.' :: s.text := by
  obtain ⟨base, indexes⟩ := s
  cases base with
  | plain t ne free single =>
      have hhead : t.head? ≠ some '[' := fun h => (free '[' (List.mem_of_mem_head? h)).2.2.1 rfl
      show nameBelow (join path t) (indexes.map Index.text) = _
      by_cases hpath : path = []
      · subst hpath
        exact nameBelow_groups ne indexes
      · rw [if_neg hpath, join_dot hpath hhead, nameBelow_groups (by simp), List.append_assoc]
        rfl
  | quoted t free =>
      -- a quoted segment is one step
      have hstep : nameBelow path (PathSegment.steps ⟨.quoted t free, indexes⟩) =
          join path (PathSegment.text ⟨.quoted t free, indexes⟩) := rfl
      rw [hstep]
      by_cases hpath : path = []
      · rw [if_pos hpath, hpath]
        rfl
      · rw [if_neg hpath, join_dot hpath (by simp [PathSegment.text, PathBase.text])]

/-- Steps of several segments, behind a name or at the start of one. -/
theorem nameBelow_segments (path : Text) {ss : List PathSegment} (hne : ss ≠ []) :
    nameBelow path (ss.flatMap PathSegment.steps) =
      if path = [] then dotted (ss.map PathSegment.text) else path ++ '.' :: dotted (ss.map PathSegment.text) := by
  induction ss generalizing path with
  | nil => exact absurd rfl hne
  | cons s ss ih =>
      have hsplit : nameBelow path ((s :: ss).flatMap PathSegment.steps) =
          nameBelow (nameBelow path s.steps) (ss.flatMap PathSegment.steps) := List.foldl_append
      rw [hsplit, nameBelow_segment]
      by_cases hss : ss = []
      · subst hss
        rfl
      · have htext : dotted ((s :: ss).map PathSegment.text) = s.text ++ '.' :: dotted (ss.map PathSegment.text) :=
          dotted_append (List.cons_ne_nil s.text []) (by simpa using hss)
        have hfirst : (if path = [] then s.text else path ++ '.' :: s.text) ≠ [] := by
          split
          · exact s.text_ne_nil
          · simp
        rw [ih _ hss, if_neg hfirst, htext]
        split
        · rfl
        · rw [List.append_assoc, List.cons_append]

/-- The steps of a path are written as its text. -/
theorem nameBelow_steps (p : Path) : nameBelow [] p.steps = p.text := nameBelow_segments [] p.ne

/-- So a path is known by its text as well as by its steps. -/
theorem text_eq_iff_steps_eq (p q : Path) : p.text = q.text ↔ p.steps = q.steps := by
  constructor
  · intro h
    have hsteps := p.keySteps_text
    rw [h, q.keySteps_text] at hsteps
    exact (Option.some.inj hsteps).symm
  · intro h
    rw [← nameBelow_steps, h, nameBelow_steps]

/-! ## Tables -/

theorem mem_listBranch {path n : Text} {v : α} {b : Option (Trie α)} :
    (n, v) ∈ listBranch path b ↔ ∃ t, b = some t ∧ (n, v) ∈ listFrom path t := by
  cases b with
  | none => simp [listBranch]
  | some t => simp [listBranch]

theorem mem_listChildren {path n : Text} {v : α} {cs : List (Text × Trie α)} :
    (n, v) ∈ listChildren path cs ↔ ∃ e ∈ cs, (n, v) ∈ listFrom (join path e.1) e.2 := by
  induction cs with
  | nil => simp [listChildren]
  | cons e cs ih => rw [listChildren, List.mem_append, ih, List.exists_mem_cons_iff]

/-- What is listed of a tree stands at its node or is listed of one of its branches. -/
theorem mem_listFrom {path n : Text} {w : α} {t : Trie α} (ht : t.Tidy) :
    (n, w) ∈ t.listFrom path ↔
      n = path ∧ t.value = some w ∨ ∃ s c, t.branch? s = some c ∧ (n, w) ∈ c.listFrom (join path s) := by
  obtain ⟨v, cs, a, i, rec⟩ := t
  have hown : (n, w) ∈ (v.map fun x => (path, x)).toList ↔ n = path ∧ v = some w := by
    cases v with
    | none => simp
    | some x => simp [eq_comm]
  rw [listFrom, List.mem_append, List.mem_append, List.mem_append, hown, mem_listChildren, mem_listBranch,
    mem_listBranch, or_assoc, or_assoc]
  refine or_congr_right ?_
  constructor
  · rintro (⟨e, he, hn⟩ | ⟨c, rfl, hn⟩ | ⟨c, rfl, hn⟩)
    · refine ⟨e.1, e.2, ?_, hn⟩
      rw [branch?, ht.children.literal e he]
      exact ht.children.lookupKey_iff.mpr he
    · exact ⟨['*'], c, rfl, hn⟩
    · exact ⟨['[', '*', ']'], c, rfl, hn⟩
  · rintro ⟨s, c, hc, hn⟩
    rcases Step.ofText_cases s with rfl | rfl | rfl | hs
    · cases hc
    · exact Or.inr (Or.inl ⟨c, hc, hn⟩)
    · exact Or.inr (Or.inr ⟨c, hc, hn⟩)
    · rw [branch?, hs] at hc
      exact Or.inl ⟨(s, c), mem_of_lookupKey hc, hn⟩

/-- The listing of a tidy tree holds its values, each under the name of its steps. -/
theorem mem_listFrom_iff {path n : Text} {w : α} {t : Trie α} (ht : t.Tidy) :
    (n, w) ∈ t.listFrom path ↔ ∃ q, n = nameBelow path q ∧ t.valueAt q = some w := by
  constructor
  · -- along the tree
    intro h
    induction ht generalizing path with
    | @node v cs a i rec nodup literal below any anyIndex ihBelow ihAny ihIndex =>
        have htidy : Tidy (.node v cs a i rec) := .node nodup literal below any anyIndex
        have hstep {s : Text} {c : Trie α} (hc : (Trie.node v cs a i rec).branch? s = some c)
            (hfound : ∃ q, n = nameBelow (join path s) q ∧ c.valueAt q = some w) :
            ∃ q, n = nameBelow path q ∧ (Trie.node v cs a i rec).valueAt q = some w := by
          obtain ⟨q, hn, hv⟩ := hfound
          exact ⟨s :: q, hn, by rw [valueAt_cons, hc]; exact hv⟩
        rcases (mem_listFrom htidy).mp h with ⟨hn, hv⟩ | ⟨s, c, hc, hn⟩
        · exact ⟨[], hn, hv⟩
        · refine hstep hc ?_
          rcases Step.ofText_cases s with rfl | rfl | rfl | hs
          · cases hc
          · exact ihAny c hc hn
          · exact ihIndex c hc hn
          · rw [branch?, hs] at hc
            exact ihBelow _ (mem_of_lookupKey hc) hn
  · -- along the steps
    rintro ⟨q, hn, hv⟩
    induction q generalizing path t with
    | nil => exact (mem_listFrom ht).mpr (Or.inl ⟨hn, hv⟩)
    | cons s q ih =>
        rw [valueAt_cons, Option.bind_eq_some_iff] at hv
        obtain ⟨c, hc, hv⟩ := hv
        exact (mem_listFrom ht).mpr (Or.inr ⟨s, c, hc, ih (ht.branch hc) hn hv⟩)

/-- A tree whose values stand at the steps of paths. -/
def OnPaths (t : Trie α) : Prop := ∀ q v, t.valueAt q = some v → ∃ p : Path, p.steps = q

/-- **The table of a tree.** In a tidy tree with values at paths, a name has the value at the steps of its path. -/
theorem get?_flatten {t : Trie α} (ht : t.Tidy) (hpaths : t.OnPaths) {n : Text} {v : α} :
    t.flatten.get? n = some v ↔ ∃ p : Path, p.text = n ∧ t.valueAt p.steps = some v := by
  have hlisted (w : α) : (n, w) ∈ t.listFrom [] ↔ ∃ p : Path, p.text = n ∧ t.valueAt p.steps = some w := by
    rw [mem_listFrom_iff ht]
    constructor
    · rintro ⟨q, rfl, hv⟩
      obtain ⟨p, rfl⟩ := hpaths q w hv
      exact ⟨p, (nameBelow_steps p).symm, hv⟩
    · rintro ⟨p, rfl, hv⟩
      exact ⟨p.steps, (nameBelow_steps p).symm, hv⟩
  have hmade := Dict.madeOf_ofPairs (t.listFrom [])
  constructor
  · intro h
    exact (hlisted v).mp (hmade.mem h)
  · -- the name is taken, and no other value has it
    rintro ⟨p, hp, hv⟩
    obtain ⟨w, hw⟩ := Option.isSome_iff_exists.mp (hmade.isSome ((hlisted v).mpr ⟨p, hp, hv⟩))
    obtain ⟨p', hp', hv'⟩ := (hlisted w).mp (hmade.mem hw)
    rw [(text_eq_iff_steps_eq p' p).mp (hp'.trans hp.symm), hv] at hv'
    rw [flatten, hw, hv']

section Puts

variable (es : List (Path × α))

theorem tidy_ofPaths : (ofPaths es).Tidy := by
  rw [ofPaths_eq]
  refine List.foldlRecOn (stepsOf es) _ tidy_empty ?_
  intro t ht e _
  exact ht.alterSteps (fun _ => tidy_setValue _) e.1

theorem onPaths_ofPaths : (ofPaths es).OnPaths := by
  intro q v hv
  rw [((ofPaths_spec es).2 q).2, Option.map_eq_some_iff] at hv
  obtain ⟨d, hd, -⟩ := hv
  obtain ⟨hmem, hq⟩ := List.mem_filter.mp (List.mem_of_getLast? hd)
  obtain ⟨e, -, rfl⟩ := List.mem_map.mp hmem
  exact ⟨e.1, of_decide_eq_true hq⟩

/-- The value that was put last under a name. -/
def lastPut (n : Text) : Option α := (es.filter fun e => e.1.text = n).getLast?.map Prod.snd

theorem valueAt_ofPaths (p : Path) : (ofPaths es).valueAt p.steps = lastPut es p.text := by
  rw [((ofPaths_spec es).2 p.steps).2, stepsOf, List.filter_map, List.getLast?_map, Option.map_map, lastPut]
  have hsame : (es.filter ((fun e => decide (e.1 = p.steps)) ∘ fun e => (e.1.steps, e.2))) =
      es.filter fun e => e.1.text = p.text := by
    refine List.filter_congr fun e _ => ?_
    rw [Function.comp_apply, decide_eq_decide, text_eq_iff_steps_eq]
  rw [hsame]
  rfl

theorem exists_of_lastPut {n : Text} {v : α} (h : lastPut es n = some v) : ∃ p : Path, (p, v) ∈ es ∧ p.text = n := by
  obtain ⟨e, he, rfl⟩ := Option.map_eq_some_iff.mp h
  obtain ⟨hmem, hn⟩ := List.mem_filter.mp (List.mem_of_getLast? he)
  exact ⟨e.1, hmem, of_decide_eq_true hn⟩

theorem isSome_lastPut_iff {n : Text} : (lastPut es n).isSome = true ↔ ∃ e ∈ es, e.1.text = n := by
  rw [lastPut, Option.isSome_map, List.getLast?_isSome, ne_eq, List.filter_eq_nil_iff]
  simp only [decide_eq_true_eq, not_forall, not_not, exists_prop]

/-- The table of a tree of puts holds under every name what was put there last. -/
theorem get?_flatten_ofPaths (n : Text) : (ofPaths es).flatten.get? n = lastPut es n := by
  refine Option.ext fun v => ?_
  rw [get?_flatten (tidy_ofPaths es) (onPaths_ofPaths es)]
  constructor
  · rintro ⟨p, rfl, hv⟩
    rwa [valueAt_ofPaths] at hv
  · intro h
    obtain ⟨p, -, rfl⟩ := exists_of_lastPut es h
    exact ⟨p, rfl, by rw [valueAt_ofPaths, h]⟩

/-- It is the table of the puts themselves. -/
theorem flatten_ofPaths : (ofPaths es).flatten = Dict.ofPairs (es.map fun e => (e.1.text, e.2)) := by
  refine Dict.eq_of_get?_eq fun n => ?_
  rw [get?_flatten_ofPaths, Dict.get?_ofPairs, List.filter_map, List.getLast?_map, Option.map_map]
  rfl

/-- A node stands above every value and nowhere else. -/
theorem isSome_at?_ofPaths (w : List Text) :
    ((ofPaths es).at? w).isSome = true ↔ w = [] ∨ ∃ q v, w <+: q ∧ (ofPaths es).valueAt q = some v := by
  rw [((ofPaths_spec es).2 w).1]
  refine or_congr_right ?_
  rw [ne_eq, behind_eq_nil_iff]
  constructor
  · intro h
    simp only [not_forall, not_not, exists_prop] at h
    obtain ⟨d, hd, hbegins⟩ := h
    obtain ⟨e, he, rfl⟩ := List.mem_map.mp hd
    obtain ⟨v, hv⟩ := Option.isSome_iff_exists.mp ((isSome_lastPut_iff es).mpr ⟨e, he, rfl⟩)
    exact ⟨e.1.steps, v, hbegins, by rw [valueAt_ofPaths, hv]⟩
  · rintro ⟨q, v, hbegins, hv⟩ hnone
    obtain ⟨p, rfl⟩ := onPaths_ofPaths es q v hv
    rw [valueAt_ofPaths] at hv
    obtain ⟨p', he, htext⟩ := exists_of_lastPut es hv
    refine hnone (p'.steps, v) (List.mem_map.mpr ⟨(p', v), he, rfl⟩) ?_
    rwa [(text_eq_iff_steps_eq p' p).mp htext]

end Puts

/-- Trees of puts with one table answer every query alike. -/
theorem get?_ofPaths_congr {es fs : List (Path × α)} (h : (ofPaths es).flatten = (ofPaths fs).flatten) (q : Path) :
    (ofPaths es).get? q.text = (ofPaths fs).get? q.text := by
  have hlast (n : Text) : lastPut es n = lastPut fs n := by rw [← get?_flatten_ofPaths, h, get?_flatten_ofPaths]
  have hvalue (w : List Text) : (ofPaths es).valueAt w = (ofPaths fs).valueAt w := by
    refine Option.ext fun v => ?_
    constructor
    · intro hv
      obtain ⟨p, rfl⟩ := onPaths_ofPaths es w v hv
      rwa [valueAt_ofPaths, ← hlast, ← valueAt_ofPaths]
    · intro hv
      obtain ⟨p, rfl⟩ := onPaths_ofPaths fs w v hv
      rwa [valueAt_ofPaths, hlast, ← valueAt_ofPaths]
  have hnodes : (fun w => ((ofPaths es).at? w).isSome = true) = fun w => ((ofPaths fs).at? w).isSome = true := by
    funext w
    rw [isSome_at?_ofPaths, isSome_at?_ofPaths]
    simp only [hvalue]
  have hq : ∀ s ∈ q.steps, s ≠ recursiveMarker := fun s hs => q.ne_recursive_of_mem_steps hs
  rw [get?, get?, find?, find?, q.keySteps_text, Option.bind_some, Option.bind_some]
  refine Option.ext fun v => ?_
  rw [find_eq_some_iff (ofPaths_spec es).1 hq, find_eq_some_iff (ofPaths_spec fs).1 hq, hnodes]
  simp only [hvalue]

/-- The entries of the table of a tree of puts are paths with values again. -/
theorem exists_paths_of_flatten (es : List (Path × α)) :
    ∃ fs : List (Path × α), (fs.map fun e => (e.1.text, e.2)) = (ofPaths es).flatten.entries := by
  have hentry : ∀ d ∈ (ofPaths es).flatten.entries, d ∈ Set.range fun e : Path × α => (e.1.text, e.2) := by
    rintro ⟨n, v⟩ hd
    rw [← Dict.get?_eq_some_iff, get?_flatten_ofPaths] at hd
    obtain ⟨p, -, htext⟩ := exists_of_lastPut es hd
    exact ⟨(p, v), Prod.ext htext rfl⟩
  rw [← Set.mem_range, Set.range_list_map]
  exact hentry

/-- The table of two trees of puts merged holds the values of the first, and those of the second where the first has
none. -/
theorem get?_flatten_merge (es fs : List (Path × α)) (n : Text) :
    ((ofPaths es).merge (ofPaths fs)).flatten.get? n = (lastPut es n).or (lastPut fs n) := by
  have hmerged (p : Path) : ((ofPaths es).merge (ofPaths fs)).valueAt p.steps =
      (lastPut es p.text).or (lastPut fs p.text) := by
    rw [valueAt_merge _ (tidy_ofPaths fs), valueAt_ofPaths, valueAt_ofPaths]
  have hpaths : ((ofPaths es).merge (ofPaths fs)).OnPaths := by
    intro q v hv
    rw [valueAt_merge _ (tidy_ofPaths fs), Option.or_eq_some_iff] at hv
    rcases hv with hv | ⟨-, hv⟩
    · exact onPaths_ofPaths es q v hv
    · exact onPaths_ofPaths fs q v hv
  refine Option.ext fun v => ?_
  rw [get?_flatten ((tidy_ofPaths es).merge (tidy_ofPaths fs)) hpaths]
  constructor
  · rintro ⟨p, rfl, hv⟩
    rwa [hmerged] at hv
  · intro h
    have hname : ∃ p : Path, p.text = n := by
      rcases Option.or_eq_some_iff.mp h with hes | ⟨-, hfs⟩
      · obtain ⟨p, -, htext⟩ := exists_of_lastPut es hes
        exact ⟨p, htext⟩
      · obtain ⟨p, -, htext⟩ := exists_of_lastPut fs hfs
        exact ⟨p, htext⟩
    obtain ⟨p, rfl⟩ := hname
    exact ⟨p, rfl, by rw [hmerged, h]⟩

/-- **Flattening and merging are faithful.** For trees that were made by storing values at paths: the table of such a
tree has exactly one entry for each path put, under the text of the path and with the value put last; the tree made of
the entries of this table answers every query as the tree does; and the table of two trees merged is that of the first,
together with those entries of the second whose names the first one lacks. -/
theorem flatten_faithful (es fs : List (Path × α)) :
    ((ofPaths es).flatten.keys.Nodup ∧ (∀ n, n ∈ (ofPaths es).flatten.keys ↔ ∃ e ∈ es, e.1.text = n) ∧
        ∀ n, (ofPaths es).flatten.get? n = lastPut es n) ∧
      (∀ q : Path, (ofPairs (ofPaths es).flatten.entries).get? q.text = (ofPaths es).get? q.text) ∧
      ∀ n v, (n, v) ∈ ((ofPaths es).merge (ofPaths fs)).flatten.entries ↔
        (n, v) ∈ (ofPaths es).flatten.entries ∨
          (n, v) ∈ (ofPaths fs).flatten.entries ∧ n ∉ (ofPaths es).flatten.keys := by
  have hkeys (n : Text) : n ∈ (ofPaths es).flatten.keys ↔ ∃ e ∈ es, e.1.text = n := by
    rw [Dict.mem_keys_iff, ← Option.isSome_iff_exists, get?_flatten_ofPaths, isSome_lastPut_iff]
  refine ⟨⟨Dict.nodup_keys _, hkeys, get?_flatten_ofPaths es⟩, ?_, ?_⟩
  · intro q
    obtain ⟨ds, hds⟩ := exists_paths_of_flatten es
    have htable : (ofPaths ds).flatten = (ofPaths es).flatten := by
      rw [flatten_ofPaths ds, hds, Dict.ofPairs_entries]
    rw [← hds]
    exact get?_ofPaths_congr htable q
  · intro n v
    have hlacks : n ∉ (ofPaths es).flatten.keys ↔ lastPut es n = none := by
      rw [hkeys, ← isSome_lastPut_iff, Option.not_isSome_iff_eq_none]
    rw [← Dict.get?_eq_some_iff, ← Dict.get?_eq_some_iff, ← Dict.get?_eq_some_iff, get?_flatten_merge,
      get?_flatten_ofPaths, get?_flatten_ofPaths, hlacks, Option.or_eq_some_iff, and_comm]

/-- Of two puts at one path the later counts, and a merge keeps what is there. -/
example :
    ((ofPairs [(['a'], 1), (['a', '.', '*'], 2), (['a'], 3)]).merge (ofPairs [(['a'], 4), (['*'], 5)])).flatten.entries =
      [(['*'], 5), (['a'], 3), (['a', '.', '*'], 2)] := by decide

end Trie

end LayeredConfig
