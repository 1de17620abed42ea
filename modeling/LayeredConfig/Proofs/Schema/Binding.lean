import LayeredConfig.Proofs.Pipeline.Plain
import LayeredConfig.Proofs.Schema.Listing

/-!
# `LayeredConfig.Proofs.Schema.Binding` — binding gives a flattened tree back

A tree is written to flat properties, and a schema is bound to a configuration that has these properties and no others.
The recursion over the shape of the schema finds at every name the part of the tree that was written there.

## Contents
- **Reading.** `Config.Reads`: a configuration that answers from one dictionary, and what its scalars are.
- **Collections.** Lists and maps of scalars (`bindList_eq`, `bindMap_eq`, `bindMapOfLists_eq`).
- **Shapes.** `bindShape_eq`, `bindMembers_eq`, by recursion over the shape, and `Reads.bind_eq` for a schema.
- **Round trip.** `bind_flattened`.
-/

namespace LayeredConfig

open Text Name Family Document

/-! ## Tables -/

/-- Entries put into a table one by one make the ascending table of the same entries. -/
theorem tableOf_eq {entries es : List (Text × Tree)} (hes : es.Pairwise fun a b => a.1 < b.1)
    (h : ∀ e, e ∈ entries ↔ e ∈ es) : Tree.tableOf entries = .table es := by
  have hfold (d : Dict Text Tree) (ps : List (Text × Tree)) :
      (ps.foldl (fun d p => d.insert p.1 p.2) d).entries = ps.foldl (fun t e => insertEntry e.1 e.2 t) d.entries := by
    induction ps generalizing d with
    | nil => rfl
    | cons p ps ih => exact ih (d.insert p.1 p.2)
  have hfunctional : Dict.Functional entries := by
    intro k t u ht hu
    have hlookup := (lookupKey_eq_some_iff hes).mpr ((h _).mp ht)
    rw [(lookupKey_eq_some_iff hes).mpr ((h _).mp hu)] at hlookup
    exact (Option.some.inj hlookup).symm
  have hentries : (Dict.ofPairs entries).entries = es := by
    refine Dict.entries_eq_of_mem_iff _ hes fun e => ?_
    rw [← Dict.get?_eq_some_iff, (Dict.madeOf_ofPairs entries).get?_iff hfunctional]
    exact h e
  rw [Tree.tableOf, ← hentries, Dict.ofPairs, hfold]
  rfl

/-- What is read for the members of a list, when each corresponds to a member of another one. -/
theorem mapM_of_forall₂ {α β γ : Type} {R : α → γ → Prop} {f : α → Except ConfigError β} {g : γ → β} {l : List α}
    {r : List γ} (h : List.Forall₂ R l r) (hf : ∀ a, ∀ b ∈ r, R a b → f a = .ok (g b)) : l.mapM f = .ok (r.map g) := by
  induction h with
  | nil => rfl
  | cons hr _ ih =>
      rw [List.mapM_cons, hf _ _ List.mem_cons_self hr, ih fun a b hb => hf a b (List.mem_cons_of_mem _ hb)]
      rfl

/-- The parts of a list stand at the names of its elements. -/
theorem Holds.forall₂_elements {d : Dict Text Text} {name : Text} {items : List Tree}
    (h : Holds d name (some (.list items))) (hvisible : ∀ t ∈ items, t.IsVisible) (hlen : items.length ≤ maxIndex + 1) :
    List.Forall₂ (fun e t => e ≠ [] ∧ Holds d e (some t)) (elements name d.keys) items := by
  rw [h.elements_eq hvisible hlen, List.forall₂_iff_get]
  refine ⟨by simp, fun i hi hi' => ?_⟩
  have hne : items ≠ [] := List.ne_nil_of_length_pos (Nat.lt_of_le_of_lt (Nat.zero_le i) hi')
  have hitem := h.item hne i
  rw [List.getElem?_eq_getElem hi'] at hitem
  simpa using ⟨Value.itemName_ne_nil name i, hitem⟩

/-- The parts of a table stand at the names of its members. -/
theorem Holds.forall₂_members {d : Dict Text Text} {name : Text} {es : List (Text × Tree)}
    (h : Holds d name (some (.table es))) (hname : name ≠ []) (hes : Keyed es) :
    List.Forall₂ (fun m e => m.1 = e.1 ∧ m.2 ≠ [] ∧ Holds d m.2 (some e.2)) (es.map fun e => (e.1, memberPath name e.1))
      es := by
  rw [List.forall₂_map_left_iff, List.forall₂_same]
  intro e he
  have hmember := h.member hname hes (hes.2 e he)
  rw [(lookupKey_eq_some_iff hes.1).mpr he] at hmember
  exact ⟨rfl, memberPath_ne_nil (hes.2 e he), hmember⟩

namespace Config

/-! ## Reading -/

/-- The configuration answers with the values of a dictionary, all of one origin, and lists its keys. -/
structure Reads (c : Config) (d : Dict Text Text) : Prop where
  value : ∃ o : Origin, ∀ n, c.value? n = (d.get? n).map fun v => .ofSource n v o
  names : c.propertyNames = d.keySet

namespace Reads

variable {c : Config} {d : Dict Text Text} {n : Text}

theorem value?_eq_none (h : c.Reads d) (hn : d.get? n = none) : c.value? n = none := by
  obtain ⟨o, ho⟩ := h.value
  rw [ho, hn]
  rfl

theorem checked (h : c.Reads d) : ∃ o : Origin, c.checked n = .ok ((d.get? n).map fun v => .ofSource n v o) := by
  obtain ⟨o, ho⟩ := h.value
  refine ⟨o, ?_⟩
  rw [Config.checked, ho]
  cases d.get? n with
  | none => rfl
  | some v => rfl

theorem rawText (h : c.Reads d) : c.rawText n = .ok (d.get? n) := by
  obtain ⟨o, ho⟩ := h.checked (n := n)
  rw [Config.rawText, ho]
  cases d.get? n with
  | none => rfl
  | some v => rfl

theorem bindLeaf (h : c.Reads d) {v : Text} (hn : d.get? n = some v) : c.bindLeaf n = .ok (.text v) := by
  rw [Config.bindLeaf, h.rawText, hn]
  rfl

theorem bindOptional_none (h : c.Reads d) (hn : d.get? n = none) : c.bindOptional n = .ok none := by
  rw [Config.bindOptional, nonEmptyText, h.rawText, hn]
  rfl

theorem nonEmptyText_eq (h : c.Reads d) {v : Text} (hn : d.get? n = some v) (hv : v ≠ []) :
    c.nonEmptyText n = .ok (some v) := by
  have hfilter : (some v).filter (fun t : Text => !t.isEmpty) = some v := by simpa [List.isEmpty_iff] using hv
  rw [nonEmptyText, h.rawText, hn]
  exact congrArg Except.ok hfilter

theorem bindOptional_some (h : c.Reads d) {v : Text} (hn : d.get? n = some v) (hv : v ≠ []) :
    c.bindOptional n = .ok (some (.text v)) := by
  rw [Config.bindOptional, h.nonEmptyText_eq hn hv]
  rfl

/-- A root without a value of its own is read by its members. -/
theorem readList_indexed (h : c.Reads d) (hn : d.get? n = none) (names : List Text) :
    Family.readList c.value? names n = .indexed (elements n names) := by
  rw [Family.readList, h.value?_eq_none hn]
  rfl

theorem readMap_keyed (h : c.Reads d) (hn : d.get? n = none) (names : List Text) :
    Family.readMap c.value? names n = .keyed (keyedMembers n names) := by
  rw [Family.readMap, h.value?_eq_none hn]
  rfl

/-- A root with a value and without elements is read inline. -/
theorem readList_inline (h : c.Reads d) {v : Text} (hn : d.get? n = some v) {names : List Text}
    (hnames : ∀ m ∈ names, element? n m = none) : ∃ r, Family.readList c.value? names n = .inline r (splitList v) := by
  obtain ⟨o, ho⟩ := h.value
  have hfamily : names.filter (fun m => (element? n m).isSome) = [] := by
    refine List.filter_eq_nil_iff.mpr fun m hm => ?_
    rw [hnames m hm]
    exact Bool.false_ne_true
  refine ⟨.ofSource n v o, ?_⟩
  rw [Family.readList, hfamily, ho, hn]
  rfl

/-- So is a root with a value and without members. -/
theorem readMap_inline (h : c.Reads d) {v : Text} (hn : d.get? n = some v) {names : List Text}
    (hnames : ∀ m ∈ names, keyedMember? n m = none) :
    ∃ r, Family.readMap c.value? names n = .inline r (splitMap v) := by
  obtain ⟨o, ho⟩ := h.value
  have hfamily : names.filter (fun m => (keyedMember? n m).isSome) = [] := by
    refine List.filter_eq_nil_iff.mpr fun m hm => ?_
    rw [hnames m hm]
    exact Bool.false_ne_true
  refine ⟨.ofSource n v o, ?_⟩
  rw [Family.readMap, hfamily, ho, hn]
  rfl

/-! ## Collections -/

/-- A list of texts that are not empty. -/
theorem bindList_eq (h : c.Reads d) {t : Tree} (ht : FitsTexts t) (hd : Holds d n (some t)) :
    c.bindList d.keys n = .ok t := by
  obtain ⟨items, rfl, hitems, hlen⟩ := ht
  by_cases hne : items = []
  · -- the empty list stands at its own name as an empty value, and only the inline reading finds it there
    subst hne
    have hnone : ∀ m ∈ d.keys, element? n m = none := by
      intro m hm
      cases helement : element? n m with
      | none => rfl
      | some p =>
          have hlt := ((hd.exists_element_iff (by simp) hlen).mp ⟨m, hm, helement⟩).1
          exact absurd hlt (Nat.not_lt_zero _)
    obtain ⟨r, hread⟩ := h.readList_inline hd.get?_nil hnone
    obtain ⟨o, hchecked⟩ := h.checked (n := n)
    rw [Config.bindList, hread]
    show (do let _ ← c.checked n; _) = _
    rw [hchecked]
    rfl
  · have hne' : items.map Tree.text ≠ [] := by simpa using hne
    have hvisible : ∀ t ∈ items.map Tree.text, t.IsVisible := by
      intro t ht
      obtain ⟨v, -, rfl⟩ := List.mem_map.mp ht
      exact List.cons_ne_nil _ _
    have hparts := hd.forall₂_elements hvisible (by simpa using hlen)
    have hread : (elements n d.keys).mapM c.bindOptional = .ok ((items.map Tree.text).map some) := by
      refine mapM_of_forall₂ hparts fun e t ht he => ?_
      obtain ⟨v, hv, rfl⟩ := List.mem_map.mp ht
      exact h.bindOptional_some he.2.get?_text (hitems v hv)
    rw [Config.bindList, h.readList_indexed (hd.get?_list hne')]
    show (do let ts ← (elements n d.keys).mapM c.bindOptional; _) = _
    rw [hread]
    show Except.ok (Tree.list (((items.map Tree.text).map some).filterMap id)) = _
    simp [Tree.texts]

/-- A map of texts that are not empty. -/
theorem bindMap_eq (h : c.Reads d) (hn : n ≠ []) {es : List (Text × Tree)} (hes : Keyed es)
    (htexts : ∀ e ∈ es, ∃ v, e.2 = .text v ∧ v ≠ []) (hd : Holds d n (some (.table es))) :
    c.bindMap d.keys n = .ok (.table es) := by
  have hmembers : keyedMembers n d.keys = es.map fun e => (e.1, memberPath n e.1) := by
    refine hd.keyedMembers_eq hn hes fun e he => ?_
    obtain ⟨v, hv, -⟩ := htexts e he
    exact ⟨[], v, follows_nil, Or.inl rfl, by simp [hv]⟩
  have hread : (es.map fun e => (e.1, memberPath n e.1)).mapM (fun m => do
      return (← c.bindOptional m.2).map fun t => (m.1, t)) = .ok (es.map some) := by
    refine mapM_of_forall₂ (hd.forall₂_members hn hes) fun m e he hm => ?_
    obtain ⟨v, hv, hne⟩ := htexts e he
    obtain ⟨hkey, -, hpart⟩ := hm
    rw [hv] at hpart
    rw [h.bindOptional_some hpart.get?_text hne, hkey, ← hv]
    rfl
  rw [Config.bindMap, h.readMap_keyed (hd.get?_table hn hes), hmembers]
  refine (congrArg (· >>= _) hread).trans ?_
  show Except.ok (Tree.tableOf ((es.map some).filterMap id)) = _
  rw [tableOf_eq hes.1 (by simp)]

/-- A map of lists of texts that are not empty. -/
theorem bindMapOfLists_eq (h : c.Reads d) (hn : n ≠ []) {es : List (Text × Tree)} (hes : Keyed es)
    (hlists : ∀ e ∈ es, FitsTexts e.2) (hd : Holds d n (some (.table es))) :
    c.bindMapOfLists d.keys n = .ok (.table es) := by
  have hmembers : keyedMembers n d.keys = es.map fun e => (e.1, memberPath n e.1) := by
    refine hd.keyedMembers_eq hn hes fun e he => ?_
    obtain ⟨items, hitems, -, -⟩ := hlists e he
    rw [hitems]
    cases items with
    | nil => exact ⟨[], [], follows_nil, Or.inl rfl, by simp [Tree.texts]⟩
    | cons v items =>
        refine ⟨['[', '0', ']'], v, follows_bracket _, Or.inr (by decide), ?_⟩
        refine (Tree.mem_properties_list (by simp)).mpr ⟨0, .text v, rfl, ?_⟩
        rw [Tree.properties_text, Value.itemName_eq]
        exact List.mem_singleton_self _
  have hread : (es.map fun e => (e.1, memberPath n e.1)).mapM (fun m => do
      return (m.1, ← c.bindList d.keys m.2)) = .ok (es.map id) := by
    refine mapM_of_forall₂ (hd.forall₂_members hn hes) fun m e he hm => ?_
    obtain ⟨hkey, -, hpart⟩ := hm
    rw [h.bindList_eq (hlists e he) hpart, hkey]
    rfl
  rw [Config.bindMapOfLists, h.readMap_keyed (hd.get?_table hn hes), hmembers]
  refine (congrArg (· >>= _) hread).trans ?_
  show Except.ok (Tree.tableOf (es.map id)) = _
  rw [tableOf_eq hes.1 (by simp)]

end Reads

end Config

/-! ## Shapes -/

/-- The entries of a table. -/
def Tree.entries : Tree → List (Text × Tree)
  | .table es => es
  | _ => []

/-- What binding makes of members: those that are present, in the order of the members. -/
def presentMembers (ms : List (Text × Shape)) (es : List (Text × Tree)) : List (Text × Tree) :=
  ms.flatMap fun m => ((lookupKey m.1 es).map fun t => (m.1, t)).toList

/-- In a group they make up the table. -/
theorem GroupFits.tableOf_presentMembers {ms : List (Text × Shape)} {es : List (Text × Tree)} (h : GroupFits ms es) :
    Tree.tableOf (presentMembers ms es) = .table es := by
  refine tableOf_eq h.ascending fun e => ?_
  simp only [presentMembers, List.mem_flatMap, Option.mem_toList, Option.map_eq_some_iff]
  constructor
  · rintro ⟨m, -, t, ht, rfl⟩
    exact mem_of_lookupKey ht
  · intro he
    obtain ⟨m, hm, hname⟩ := List.mem_map.mp (h.named e he)
    exact ⟨m, hm, e.2, by rw [hname]; exact (lookupKey_eq_some_iff h.ascending).mpr he, by rw [hname]⟩

/-- Whether any name lies below a part that is held. -/
theorem hasMembers_of_holds {d : Dict Text Text} {name : Text} (hname : name ≠ []) {es : List (Text × Tree)}
    (hes : Keyed es) (h : Holds d name (some (.table es))) (hvisible : (Tree.table es).IsVisible) :
    Config.hasMembers d.keys name = true := by
  obtain ⟨⟨n, w⟩, hmem⟩ := hvisible.exists_mem name
  obtain ⟨e, he, hw⟩ := Tree.mem_properties_table.mp hmem
  obtain ⟨u, hu, rfl⟩ := Tree.exists_follows (memberPath_ne_nil (hes.2 e he)) hw
  refine List.any_eq_true.mpr ⟨_, h.member_mem_keys hname hes he hu hw, ?_⟩
  have hpath : afterPrefix? name (memberPath name e.1 ++ u) = some ('.' :: (quotedIfNeeded e.1 ++ u)) := by
    rw [afterPrefix?_eq_some_iff, memberPath_of_ne_nil hname (hes.2 e he), List.append_assoc, List.cons_append]
  rw [hpath]
  rfl

theorem not_hasMembers_of_holds {d : Dict Text Text} {name : Text} (h : Holds d name none) :
    Config.hasMembers d.keys name = false := by
  rw [Config.hasMembers, List.any_eq_false]
  intro n hn hbelow
  cases hrest : afterPrefix? name n with
  | none =>
      rw [hrest] at hbelow
      exact Bool.false_ne_true hbelow
  | some u =>
      rw [hrest] at hbelow
      obtain rfl := afterPrefix?_eq_some_iff.mp hrest
      have hu : Follows u := Or.inr (by simpa using hbelow)
      obtain ⟨w, hw⟩ := d.mem_keys_iff.mp hn
      exact absurd ((h u w hu).mp hw) List.not_mem_nil

namespace Config

variable {c : Config} {d : Dict Text Text}

mutual

/-- Binding a shape gives the tree that is held. -/
theorem bindShape_eq (h : c.Reads d) : ∀ (s : Shape) {n : Text} {t : Option Tree}, n ≠ [] → s.Named IsKey → s.Fits t →
    Holds d n t → c.bindShape d.keys n s = .ok t
  | .leaf _, n, t, hn, _, hfits, hd => by
      obtain ⟨v, rfl⟩ := hfits
      rw [bindShape, h.bindLeaf hd.get?_text]
      rfl
  | .optional, n, t, hn, _, hfits, hd => by
      rw [bindShape]
      rcases hfits with rfl | ⟨v, rfl, hv⟩
      · exact h.bindOptional_none hd.get?_eq
      · exact h.bindOptional_some hd.get?_text hv
  | .group ms, n, t, hn, hms, hfits, hd => by
      obtain ⟨es, rfl, hgroup⟩ := hfits
      rw [bindShape, bindMembers_eq h ms n hms hgroup.fits fun m hm =>
        hd.member hn (GroupFits.keyed hgroup hms) (hms.of_mem hm)]
      show Except.ok (some (Tree.tableOf _)) = _
      rw [GroupFits.tableOf_presentMembers hgroup]
  | .optionalGroup ms, n, t, hn, hms, hfits, hd => by
      rw [bindShape]
      rcases hfits with rfl | ⟨es, rfl, hgroup, hvisible⟩
      · -- nothing is held behind the name of an absent group, thus no listed name lies below it
        rw [not_hasMembers_of_holds hd]
        rfl
      · have hkeyed := GroupFits.keyed hgroup hms
        rw [hasMembers_of_holds hn hkeyed hd hvisible, if_pos rfl,
          bindMembers_eq h ms n hms hgroup.fits fun m hm => hd.member hn hkeyed (hms.of_mem hm)]
        show Except.ok (some (Tree.tableOf _)) = _
        rw [GroupFits.tableOf_presentMembers hgroup]
  | .list, n, t, hn, _, hfits, hd => by
      obtain ⟨u, rfl, htexts⟩ := hfits
      rw [bindShape, h.bindList_eq htexts hd]
      rfl
  | .listOfGroups ms, n, t, hn, hms, hfits, hd => by
      obtain ⟨items, rfl, hlen, hgroups⟩ := hfits
      have hread : (elements n d.keys).mapM (fun e => c.bindMembers d.keys e ms) =
          .ok (items.map fun t => presentMembers ms t.entries) := by
        refine mapM_of_forall₂ (hd.forall₂_elements (fun t ht => (hgroups t ht).1) hlen) fun e t ht he => ?_
        obtain ⟨-, es, rfl, hgroup⟩ := hgroups t ht
        exact bindMembers_eq h ms e hms hgroup.fits fun m hm =>
          he.2.member he.1 (GroupFits.keyed hgroup hms) (hms.of_mem hm)
      have htables : (items.map fun t => presentMembers ms t.entries).map Tree.tableOf = items := by
        rw [List.map_map]
        refine (List.map_congr_left fun t ht => ?_).trans (List.map_id items)
        obtain ⟨-, es, rfl, hgroup⟩ := hgroups t ht
        exact GroupFits.tableOf_presentMembers hgroup
      rw [bindShape, hread]
      show Except.ok (some (Tree.list _)) = _
      rw [htables]
  | .map, n, t, hn, _, hfits, hd => by
      obtain ⟨es, rfl, hkeyed, htexts⟩ := hfits
      rw [bindShape, h.bindMap_eq hn hkeyed htexts hd]
      rfl
  | .mapOfLists, n, t, hn, _, hfits, hd => by
      obtain ⟨es, rfl, hkeyed, hlists⟩ := hfits
      rw [bindShape, h.bindMapOfLists_eq hn hkeyed hlists hd]
      rfl
  | .mapOfGroups ms, n, t, hn, hms, hfits, hd => by
      obtain ⟨es, rfl, hkeyed, hgroups⟩ := hfits
      have hread : (es.map fun e => (e.1, memberPath n e.1)).mapM (fun m => do
          return (m.1, Tree.tableOf (← c.bindMembers d.keys m.2 ms))) = .ok (es.map id) := by
        refine mapM_of_forall₂ (hd.forall₂_members hn hkeyed) fun m e he hm => ?_
        obtain ⟨hkey, hne, hpart⟩ := hm
        obtain ⟨-, fs, hfs, hgroup⟩ := hgroups e he
        rw [hfs] at hpart
        rw [bindMembers_eq h ms m.2 hms hgroup.fits fun k hk =>
          hpart.member hne (GroupFits.keyed hgroup hms) (hms.of_mem hk)]
        show Except.ok (m.1, Tree.tableOf _) = _
        rw [GroupFits.tableOf_presentMembers hgroup, hkey, ← hfs]
        rfl
      rw [bindShape, hd.groupKeys_eq hn hkeyed fun e he => (hgroups e he).1]
      refine (congrArg (· >>= _) hread).trans ?_
      show Except.ok (some (Tree.tableOf (es.map id))) = _
      rw [tableOf_eq hkeyed.1 (by simp)]

/-- Binding members gives those that are held. -/
theorem bindMembers_eq (h : c.Reads d) : ∀ (ms : List (Text × Shape)) (n : Text) {es : List (Text × Tree)},
    MembersNamed IsKey ms → MembersFit ms es → (∀ m ∈ ms, Holds d (memberPath n m.1) (lookupKey m.1 es)) →
      c.bindMembers d.keys n ms = .ok (presentMembers ms es)
  | [], _, _, _, _, _ => rfl
  | (name, s) :: ms, n, es, hms, hfits, hd => by
      rw [bindMembers, bindShape_eq h s (memberPath_ne_nil hms.1) hms.2.1 hfits.1 (hd (name, s) List.mem_cons_self),
        bindMembers_eq h ms n hms.2.2 hfits.2 fun m hm => hd m (List.mem_cons_of_mem _ hm)]
      rfl

end

/-- Binding a schema gives the table whose properties are held below its root. -/
theorem Reads.bind_eq (h : c.Reads d) {s : Schema} {es : List (Text × Tree)} (hnames : MembersNamed IsKey s.members)
    (hfits : GroupFits s.members es)
    (hd : ∀ n v, d.get? n = some v ↔ (n, v) ∈ (Tree.table es).properties s.root) : c.bind s = .ok (.table es) := by
  -- the root may be empty, so that its members are taken from the whole dictionary
  have hmembers := bindMembers_eq h s.members s.root hnames hfits.fits fun m hm =>
    Holds.of_entries (hfits.keyed hnames) (hnames.of_mem hm) fun u w _ => hd _ w
  rw [Config.bind, h.names]
  refine (congrArg (· >>= _) hmembers).trans ?_
  show Except.ok (Tree.tableOf _) = _
  rw [hfits.tableOf_presentMembers]

/-! ## Round trip -/

/-- **Binding inverts flattening.** Take a table that fits the members of a schema, and a configuration whose only
source holds the properties of the table below the root, where no value holds a reference and neither property of the
profiles is among them. The configuration can be put together, unless undeclared names are refused, and binding the
schema gives the table back. -/
theorem bind_flattened (s : Schema) (es : List (Text × Tree)) (p : Parts) (name : Text) (access : Access)
    (hnames : MembersNamed IsKey s.members) (hfits : GroupFits s.members es)
    (hplain : ∀ e ∈ (Tree.table es).properties s.root, '$' ∉ e.2)
    (hprofile : ∀ e ∈ (Tree.table es).properties s.root, e.1 ≠ p.profileProperty ∧ e.1 ≠ profileParentProperty)
    (honly : p.OnlyTable (.ofProperties name (.ofPairs ((Tree.table es).properties s.root)))) :
    (p.refusesUndeclared = false → ∀ reader dir, p.assemble reader dir = .ok ⟨p.pipeline [], .locked⟩) ∧
      Config.bind ⟨p.pipeline [], access⟩ s = .ok (.table es) := by
  have hfunctional : Dict.Functional ((Tree.table es).properties s.root) :=
    GroupFits.functional hfits hnames (MembersFit.functional s.members s.root hnames hfits.fits)
  have hget (n v : Text) : (Dict.ofPairs ((Tree.table es).properties s.root)).get? n = some v ↔
      (n, v) ∈ (Tree.table es).properties s.root := (Dict.madeOf_ofPairs _).get?_iff hfunctional
  have habsent (n : Text) (hn : ∀ e ∈ (Tree.table es).properties s.root, e.1 ≠ n) :
      (Dict.ofPairs ((Tree.table es).properties s.root)).get? n = none := by
    cases hv : (Dict.ofPairs ((Tree.table es).properties s.root)).get? n with
    | none => rfl
    | some v => exact absurd rfl (hn _ ((hget n v).mp hv))
  obtain ⟨hvalue, hlisted⟩ := honly.reads_table rfl (fun n v hv => hplain (n, v) ((hget n v).mp hv))
    (habsent _ fun e he => (hprofile e he).1) (habsent _ fun e he => (hprofile e he).2) access
  constructor
  · intro hrefuses reader dir
    simp only [Parts.assemble, honly.files, List.mapM_nil, hrefuses]
    rfl
  · exact Reads.bind_eq ⟨hvalue, hlisted⟩ hnames hfits hget

/-- A list of two texts, and a map of groups one of whose keys holds a dot and whose group has an empty list; the group
that may be absent is so. -/
theorem bind_flattened_dotted_key :
    let s : Schema := ⟨"app".toList, [("hosts".toList, .list),
      ("tls".toList, .optionalGroup [("key".toList, .optional)]),
      ("pools".toList, .mapOfGroups [("size".toList, .leaf none), ("tags".toList, .list)])]⟩
    let es : List (Text × Tree) := [("hosts".toList, Tree.texts ["a".toList, "b,c".toList]),
      ("pools".toList, .table [("eu.west".toList, .table [("size".toList, .text []), ("tags".toList, .list [])])])]
    let p : Parts := { Parts.empty with
      sources := [.table (.ofProperties "map".toList (.ofPairs ((Tree.table es).properties s.root)))] }
    (Tree.table es).properties s.root = [("app.hosts[0]".toList, "a".toList), ("app.hosts[1]".toList, "b,c".toList),
        ("app.pools.\"eu.west\".size".toList, []), ("app.pools.\"eu.west\".tags".toList, [])] ∧
      Config.bind ⟨p.pipeline [], .locked⟩ s = .ok (.table es) := by
  intro s es p
  have hproperties : (Tree.table es).properties s.root = [("app.hosts[0]".toList, "a".toList),
      ("app.hosts[1]".toList, "b,c".toList), ("app.pools.\"eu.west\".size".toList, []),
      ("app.pools.\"eu.west\".tags".toList, [])] := by decide +kernel
  have hgroup : GroupFits [("size".toList, .leaf none), ("tags".toList, .list)]
      [("size".toList, Tree.text []), ("tags".toList, .list [])] :=
    ⟨by simp; decide, by simp, ⟨[], rfl⟩, ⟨_, rfl, [], rfl, by simp, by simp⟩, trivial⟩
  have hfits : GroupFits s.members es := by
    refine ⟨by simp [es]; decide, by simp [s, es], ⟨_, rfl, ["a".toList, "b,c".toList], rfl, by simp, by decide⟩,
      Or.inl rfl, ⟨_, rfl, ⟨by simp, by simp; decide⟩, fun e he => ?_⟩, trivial⟩
    rw [List.mem_singleton.mp he]
    exact ⟨by decide +kernel, _, rfl, hgroup⟩
  refine ⟨hproperties, (bind_flattened s es p "map".toList .locked ?_ hfits ?_ ?_ ?_).2⟩
  · simp only [s, MembersNamed, Shape.Named, and_true, true_and]
    decide
  · rw [hproperties]
    decide
  · rw [hproperties]
    decide
  · exact ⟨⟨rfl, rfl, rfl, rfl, rfl⟩, rfl, rfl, rfl, rfl⟩

end Config

end LayeredConfig
