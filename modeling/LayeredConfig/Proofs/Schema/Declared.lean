import LayeredConfig.Proofs.Family.Member
import LayeredConfig.Proofs.Name.Matching
import LayeredConfig.Proofs.Name.PatternIndex
import LayeredConfig.Proofs.Name.Whole
import LayeredConfig.Proofs.Pipeline.Plain
import LayeredConfig.Proofs.Schema.Reads

/-!
# `LayeredConfig.Proofs.Schema.Declared` — every name that binding reads is declared

A schema declares patterns by one recursion over its shape, and binding forms names by another, from the members that it
finds among the listed names. At each step the two paths stay in correspondence, segment by segment: the name is an
instance of the pattern.

## Contents
- **Growing names.** A segment behind a name (`Pattern.snoc`), an index group behind its last segment
  (`Pattern.addIndex`).
- **Instances.** `IsInstance`, and the three steps that keep it: a member, an element, an entry.
- **Schemas.** Every name that is read is an instance of a declared one (`memberNames_isInstance`), and so never
  undeclared (`schemaNames_declared`).
-/

namespace LayeredConfig

open Text Family

namespace Name

/-! ## Growing names -/

/-- A name with one more segment. -/
def Pattern.snoc (p : Pattern) (s : Segment) : Pattern := ⟨p.segments ++ [s], by simp⟩

theorem Base.text_ne_nil (b : Base) : b.text ≠ [] := by
  cases b with
  | plain t ne free => exact ne
  | quoted t ne free => exact List.cons_ne_nil _ _
  | star => exact List.cons_ne_nil _ _

theorem Segment.text_ne_nil (s : Segment) : s.text ≠ [] := by
  rw [Segment.text]
  exact List.append_ne_nil_of_left_ne_nil s.base.text_ne_nil _

theorem Pattern.text_ne_nil (p : Pattern) : p.text ≠ [] := by
  obtain ⟨s, r, h⟩ := List.exists_cons_of_ne_nil p.ne
  rw [Pattern.text, h, List.map_cons]
  cases r with
  | nil => exact s.text_ne_nil
  | cons t r => exact List.append_ne_nil_of_left_ne_nil s.text_ne_nil _

theorem Pattern.text_snoc (p : Pattern) (s : Segment) : (p.snoc s).text = p.text ++ '.' :: s.text := by
  rw [Pattern.text, Pattern.snoc, List.map_append]
  exact dotted_append (by simpa using p.ne) (by simp)

/-- No base starts like an index group. -/
theorem Base.head_text_ne (b : Base) (t : Text) : b.text ≠ '[' :: t := by
  intro h
  cases b with
  | plain u ne free =>
      have hmem : '[' ∈ u := by
        rw [show u = '[' :: t from h]
        exact List.mem_cons_self
      exact (not_mem_reserved.mp (free '[' hmem).2).2.1 rfl
  | quoted u ne free => exact absurd (List.cons.inj h).1 (by decide)
  | star => exact absurd (List.cons.inj h).1 (by decide)

/-- A base is put behind a name with a dot between them. -/
theorem join_text (p : Pattern) (b : Base) : join p.text b.text = (p.snoc ⟨b, []⟩).text := by
  have hbase : Segment.text ⟨b, []⟩ = b.text := List.append_nil _
  rw [Pattern.text_snoc, hbase]
  unfold join
  rw [if_neg (by simpa using p.text_ne_nil)]
  split
  · next t h => exact absurd h (b.head_text_ne t)
  · rfl

/-- A segment with one more index group. -/
def Segment.addIndex (s : Segment) (g : Index) : Segment := { s with indexes := s.indexes ++ [g] }

theorem Segment.text_addIndex (s : Segment) (g : Index) : (s.addIndex g).text = s.text ++ g.text := by
  simp [Segment.text, Segment.addIndex]

theorem Segment.IsConcrete.addIndex {s : Segment} (h : s.IsConcrete) {g : Index} (hg : g ≠ .any) :
    (s.addIndex g).IsConcrete := by
  refine ⟨h.1, fun k hk => ?_⟩
  rcases List.mem_append.mp hk with hk | hk
  · exact h.2 k hk
  · rw [List.mem_singleton.mp hk]
    exact hg

theorem Segment.Covers.addIndex {s t : Segment} (h : s.Covers t) {g k : Index} (hg : g.Covers k) :
    (s.addIndex g).Covers (t.addIndex k) :=
  ⟨h.base, List.rel_append h.indexes (.cons hg .nil)⟩

/-- A name whose last segment has one more index group. -/
def Pattern.addIndex (p : Pattern) (g : Index) : Pattern :=
  ⟨p.segments.dropLast ++ [(p.segments.getLast p.ne).addIndex g], by simp⟩

theorem Pattern.exists_last (p : Pattern) : ∃ before s, p.segments = before ++ [s] ∧
    ∀ g, (p.addIndex g).segments = before ++ [s.addIndex g] :=
  ⟨p.segments.dropLast, p.segments.getLast p.ne, (List.dropLast_concat_getLast p.ne).symm, fun _ => rfl⟩

theorem Pattern.text_addIndex (p : Pattern) (g : Index) : (p.addIndex g).text = p.text ++ g.text := by
  obtain ⟨before, s, hp, hadd⟩ := p.exists_last
  rw [Pattern.text, Pattern.text, hadd, hp, List.map_append, List.map_append, List.map_singleton, List.map_singleton,
    s.text_addIndex]
  by_cases hbefore : before = []
  · subst hbefore
    rfl
  · have hne : before.map Segment.text ≠ [] := by simpa using hbefore
    rw [dotted_append hne (by simp), dotted_append hne (by simp)]
    simp [dotted, joinWith]

/-! ## Listed names -/

/-- A segment whose base, unless it is quoted, holds no backslash. -/
def Segment.Unescaped (s : Segment) : Prop :=
  match s.base with
  | .plain t _ _ => '\\' ∉ t
  | _ => True

/-- A well-formed name without wildcards and escapes. -/
def IsListed (n : Text) : Prop := ∃ p : Pattern, p.text = n ∧ p.IsConcrete ∧ ∀ s ∈ p.segments, s.Unescaped

/-- The key of an entry is read as the base of the segment in which it is spelled. -/
theorem keySegment_base {s : Segment} {u : Text} (hs : s.base ≠ .star) (hplain : s.Unescaped) (hu : Follows u) :
    ∃ key, keySegment (s.base.text ++ u) = some (key, s.base.text, u) := by
  obtain ⟨b, gs⟩ := s
  cases b with
  | plain t ne free =>
      refine ⟨t, keySegment_plain ne (fun c hc => ?_) hu⟩
      obtain ⟨hdot, hres⟩ := free c hc
      obtain ⟨hquote, hopen, -, -⟩ := not_mem_reserved.mp hres
      exact ⟨hdot, hopen, fun h => hplain (h ▸ hc), hquote⟩
  | quoted t ne free =>
      have hquote : '"' ∉ t := fun h => (not_mem_reserved.mp (free _ h)).1 rfl
      refine ⟨t, ?_⟩
      have hread := keySegment_quoted hquote u
      simpa [Base.text] using hread
  | star => exact absurd rfl hs

/-- What stands behind the base of a segment may follow a key. -/
theorem follows_groups (gs : List Index) {u : Text} (hu : u = [] ∨ ∃ v, u = '.' :: v) :
    Follows (gs.flatMap Index.text ++ u) := by
  cases gs with
  | nil =>
      rcases hu with rfl | ⟨v, rfl⟩
      · exact follows_nil
      · exact follows_dot v
  | cons g gs => exact follows_bracket _

/-! ## Instances -/

/-- The name has one segment for each segment of the pattern, and is covered by it. -/
def IsInstance (pattern name : Text) : Prop :=
  ∃ p c : Pattern, p.text = pattern ∧ c.text = name ∧ c.IsConcrete ∧ List.Forall₂ Segment.Covers p.segments c.segments

theorem aligns_of_forall₂ {last : Bool} {ps cs : List Segment} (h : List.Forall₂ Segment.Covers ps cs) :
    Aligns last ps cs := by
  induction h generalizing last with
  | nil => rfl
  | cons hs _ ih => exact ⟨_, [], _, rfl, hs, by simp, by simp, ih⟩

theorem isInstance_self {c : Pattern} (hc : c.IsConcrete) : IsInstance c.text c.text :=
  ⟨c, c, rfl, rfl, hc, List.forall₂_same.mpr fun s _ => s.covers_refl⟩

namespace IsInstance

variable {pattern name : Text}

/-- A name equals the patterns that it is an instance of. -/
theorem alike (h : IsInstance pattern name) : Name.alike pattern name = true := by
  obtain ⟨p, c, rfl, rfl, hc, hcovers⟩ := h
  rw [alike_text_iff hc, Pattern.covers_iff_aligns]
  exact aligns_of_forall₂ (List.forall₂_reverse_iff.mpr hcovers)

theorem ne_nil (h : IsInstance pattern name) : name ≠ [] := by
  obtain ⟨p, c, rfl, rfl, -, -⟩ := h
  exact c.text_ne_nil

theorem star_not_mem (h : IsInstance pattern name) : '*' ∉ name := by
  obtain ⟨p, c, rfl, rfl, hc, -⟩ := h
  exact Pattern.star_not_mem_text.mpr hc

/-- Both are put before a base that covers the other. -/
theorem join (h : IsInstance pattern name) {b d : Base} (hb : b = .star ∨ b.text = d.text) (hd : d ≠ .star) :
    IsInstance (Name.join pattern b.text) (Name.join name d.text) := by
  obtain ⟨p, c, rfl, rfl, hc, hcovers⟩ := h
  refine ⟨p.snoc ⟨b, []⟩, c.snoc ⟨d, []⟩, (join_text p b).symm, (join_text c d).symm, ?_, ?_⟩
  · intro s hs
    rcases List.mem_append.mp hs with hs | hs
    · exact hc s hs
    · rw [List.mem_singleton.mp hs]
      exact ⟨hd, by simp⟩
  · exact List.rel_append hcovers (.cons ⟨hb, .nil⟩ .nil)

/-- An element of a list. -/
theorem element (h : IsInstance pattern name) {digits : Text} (hdigits : isNumeric digits = true) :
    IsInstance (anyElement pattern) (name ++ '[' :: digits ++ [']']) := by
  obtain ⟨p, c, rfl, rfl, hc, hcovers⟩ := h
  have hname : (c.addIndex (.digits digits hdigits)).text = c.text ++ '[' :: digits ++ [']'] := by
    rw [Pattern.text_addIndex, List.append_assoc]
    rfl
  obtain ⟨before, s, hp, hpadd⟩ := p.exists_last
  obtain ⟨before', t, hcs, hcadd⟩ := c.exists_last
  -- from the right the last segments are the first ones
  have hback : List.Forall₂ Segment.Covers (s :: before.reverse) (t :: before'.reverse) := by
    rw [hp, hcs, ← List.forall₂_reverse_iff, List.reverse_append, List.reverse_append] at hcovers
    exact hcovers
  cases hback with
  | cons hst hrest =>
      refine ⟨p.addIndex .any, c.addIndex (.digits digits hdigits), Pattern.text_addIndex p .any, hname, ?_, ?_⟩
      · intro u hu
        rw [hcadd] at hu
        rcases List.mem_append.mp hu with hu | hu
        · exact hc u (by simp [hcs, hu])
        · rw [List.mem_singleton.mp hu]
          exact (hc t (by simp [hcs])).addIndex Index.noConfusion
      · rw [hpadd, hcadd]
        exact List.rel_append (List.forall₂_reverse_iff.mp hrest) (.cons (hst.addIndex (Or.inl rfl)) .nil)

/-- An entry of a map, whose key is spelled in a name behind the root. -/
theorem entry (h : IsInstance pattern name) {n member key : Text} (hn : IsListed n)
    (hmember : groupMember? name n = some (key, member)) : IsInstance (anyEntry pattern) member := by
  obtain ⟨rest, hrest, hread⟩ := Option.bind_eq_some_iff.mp hmember
  rw [below?_eq_some_iff h.ne_nil] at hrest
  obtain ⟨q, rfl, hq, hplain⟩ := hn
  obtain ⟨p, c, rfl, rfl, hc, hcovers⟩ := h
  -- the key is the base of a segment of the listed name; what the segment holds behind its base is left out
  obtain ⟨s, hs, u, rfl, hu⟩ := Pattern.exists_segment_of_append_dot hrest
  obtain ⟨written, hwritten⟩ := keySegment_base (hq s hs).1 (hplain s hs) (follows_groups s.indexes hu)
  rw [Segment.text, List.append_assoc, hwritten, Option.map_some, Option.some.injEq, Prod.mk.injEq] at hread
  obtain ⟨-, rfl⟩ := hread
  have hjoin : memberName c.text s.base.text = Name.join c.text s.base.text := by
    rw [join_text, Pattern.text_snoc, memberName, if_neg (by simpa using c.text_ne_nil), Segment.text]
    simp
  rw [hjoin]
  exact join ⟨p, c, rfl, rfl, hc, hcovers⟩ (b := .star) (Or.inl rfl) (hq s hs).1

end IsInstance

/-- A name that a member can have: it is not empty and holds no quote, bracket and wildcard. -/
def IsMemberName (name : Text) : Prop := name ≠ [] ∧ ∀ c ∈ name, c ∉ reserved

/-- The base that spells a member, in quotes when its name holds a dot. -/
def Base.ofName (name : Text) (ne : name ≠ []) (free : ∀ c ∈ name, c ∉ reserved) : Base :=
  if h : '.' ∈ name then .quoted name ne free
  else .plain name ne fun c hc => ⟨fun e => h (e ▸ hc), free c hc⟩

theorem Base.text_ofName {name : Text} (ne : name ≠ []) (free : ∀ c ∈ name, c ∉ reserved) :
    (ofName name ne free).text = quotedIfNeeded name := by
  have hquote : '"' ∉ name := fun hm => (not_mem_reserved.mp (free '"' hm)).1 rfl
  unfold ofName
  by_cases h : '.' ∈ name
  · rw [dif_pos h, quotedIfNeeded_of_mem_dot h hquote, Base.text]
  · rw [dif_neg h, quotedIfNeeded_of_not_mem_dot h, Base.text]

theorem Base.ofName_ne_star {name : Text} (ne : name ≠ []) (free : ∀ c ∈ name, c ∉ reserved) :
    ofName name ne free ≠ .star := by
  unfold ofName
  split
  · exact Base.noConfusion
  · exact Base.noConfusion

/-- A member below a name and below its pattern. -/
theorem IsInstance.member {pattern path name : Text} (h : IsInstance pattern path) (hname : IsMemberName name) :
    IsInstance (memberPath pattern name) (memberPath path name) := by
  rw [memberPath, memberPath, ← Base.text_ofName hname.1 hname.2]
  exact h.join (Or.inr rfl) (Base.ofName_ne_star hname.1 hname.2)

/-- A member at the root. -/
theorem isInstance_member_root {name : Text} (hname : IsMemberName name) :
    IsInstance (memberPath [] name) (memberPath [] name) := by
  obtain ⟨ne, free⟩ := hname
  have htext : memberPath [] name = Pattern.text ⟨[⟨Base.ofName name ne free, []⟩], by simp⟩ := by
    show quotedIfNeeded name = Segment.text ⟨Base.ofName name ne free, []⟩
    rw [Segment.text, Base.text_ofName]
    exact (List.append_nil _).symm
  rw [htext]
  refine isInstance_self fun s hs => ?_
  rw [List.mem_singleton.mp hs]
  exact ⟨Base.ofName_ne_star ne free, by simp⟩

end Name

/-! ## Schemas -/

open Name

namespace Config

variable {c : Config} {names : List Text} {pattern path n : Text}

theorem listNames_isInstance (h : IsInstance pattern path) (hn : n ∈ c.listNames names path) :
    ∃ d ∈ [pattern, anyElement pattern], IsInstance d n := by
  unfold listNames at hn
  rcases readList_cases c.value? names path with hread | ⟨r, items, hread⟩
  · rw [hread] at hn
    obtain ⟨digits, hdigits, rfl⟩ := mem_elements hn
    exact ⟨anyElement pattern, by simp, h.element hdigits⟩
  · rw [hread] at hn
    rw [List.mem_singleton.mp hn]
    exact ⟨pattern, by simp, h⟩

/-- What is read of a map is an instance of the pattern of the map or is read of one of its entries. -/
theorem mapNames_isInstance (hlisted : ∀ n ∈ names, IsListed n) (h : IsInstance pattern path)
    (member : Text → List Text) (hn : n ∈ c.mapNames names path member) :
    IsInstance pattern n ∨ ∃ m, IsInstance (anyEntry pattern) m ∧ n ∈ member m := by
  unfold mapNames at hn
  rcases readMap_cases c.value? names path with hread | ⟨r, entries, hread⟩
  · rw [hread] at hn
    obtain ⟨⟨key, m⟩, hm, hn⟩ := List.mem_flatMap.mp hn
    obtain ⟨name, hname, hread⟩ := mem_keyedMembers hm
    exact Or.inr ⟨m, h.entry (hlisted name hname) hread, hn⟩
  · rw [hread] at hn
    rw [List.mem_singleton.mp hn]
    exact Or.inl h

mutual

/-- Every name that is read of a shape is an instance of a declared one. -/
theorem scalarNames_isInstance (hlisted : ∀ n ∈ names, IsListed n) : ∀ (s : Shape) {pattern path n : Text},
    s.Named IsMemberName → IsInstance pattern path → n ∈ c.scalarNames names path s →
      ∃ d ∈ s.declaredNames pattern, IsInstance d n
  | .leaf _, pattern, _, _, _, h, hn => ⟨pattern, List.mem_singleton_self _, List.mem_singleton.mp hn ▸ h⟩
  | .optional, pattern, _, _, _, h, hn => ⟨pattern, List.mem_singleton_self _, List.mem_singleton.mp hn ▸ h⟩
  | .group ms, _, _, _, hnamed, h, hn => memberNames_isInstance hlisted ms hnamed (Or.inl h) hn
  | .optionalGroup ms, _, _, _, hnamed, h, hn => memberNames_isInstance hlisted ms hnamed (Or.inl h) hn
  | .list, _, _, _, _, h, hn => listNames_isInstance h hn
  | .listOfGroups ms, _, _, _, hnamed, h, hn => by
      obtain ⟨e, he, hn⟩ := List.mem_flatMap.mp hn
      obtain ⟨digits, hdigits, rfl⟩ := mem_elements he
      exact memberNames_isInstance hlisted ms hnamed (Or.inl (h.element hdigits)) hn
  | .map, pattern, _, _, _, h, hn => by
      rcases mapNames_isInstance hlisted h (fun m => [m]) hn with h | ⟨m, hm, hn⟩
      · exact ⟨pattern, by simp [Shape.declaredNames], h⟩
      · rw [List.mem_singleton.mp hn]
        exact ⟨anyEntry pattern, by simp [Shape.declaredNames], hm⟩
  | .mapOfLists, pattern, _, _, _, h, hn => by
      rcases mapNames_isInstance hlisted h _ hn with h | ⟨m, hm, hn⟩
      · exact ⟨pattern, by simp [Shape.declaredNames], h⟩
      · obtain ⟨d, hd, hn⟩ := listNames_isInstance hm hn
        exact ⟨d, List.mem_cons_of_mem _ hd, hn⟩
  | .mapOfGroups ms, _, _, _, hnamed, h, hn => by
      obtain ⟨⟨key, m⟩, hm, hn⟩ := List.mem_flatMap.mp hn
      obtain ⟨name, hname, hread⟩ := mem_groupKeys hm
      exact memberNames_isInstance hlisted ms hnamed (Or.inl (h.entry (hlisted name hname) hread)) hn

/-- Every name that is read of members, below a name or at the root, is an instance of a declared one. -/
theorem memberNames_isInstance (hlisted : ∀ n ∈ names, IsListed n) :
    ∀ (ms : List (Text × Shape)) {pattern path n : Text}, MembersNamed IsMemberName ms →
      IsInstance pattern path ∨ pattern = [] ∧ path = [] → n ∈ c.memberNames names path ms →
        ∃ d ∈ declaredOf pattern ms, IsInstance d n
  | [], _, _, _, _, _, hn => absurd hn List.not_mem_nil
  | (name, s) :: ms, pattern, path, n, hnamed, h, hn => by
      obtain ⟨hname, hs, hms⟩ := hnamed
      have hmember : IsInstance (memberPath pattern name) (memberPath path name) := by
        rcases h with h | ⟨rfl, rfl⟩
        · exact h.member hname
        · exact isInstance_member_root hname
      rcases List.mem_append.mp hn with hn | hn
      · obtain ⟨d, hd, hn⟩ := scalarNames_isInstance hlisted s hs hmember hn
        exact ⟨d, List.mem_append_left _ hd, hn⟩
      · obtain ⟨d, hd, hn⟩ := memberNames_isInstance hlisted ms hms h hn
        exact ⟨d, List.mem_append_right _ hd, hn⟩

end

/-- An index accepts the names that equal one of its patterns. -/
theorem accepts_of_isInstance {ds : List Text} {d n : Text} (hd : d ∈ ds) (h : IsInstance d n) :
    (PatternIndex.ofPatterns ds).accepts n = true := by
  -- the bucket of a pattern is found under the beginning that the pattern shares with the name
  obtain ⟨k, hlen, hk, htake⟩ := exists_take_of_alike h.ne_nil h.star_not_mem h.alike
  rw [PatternIndex.accepts_iff h.ne_nil]
  refine ⟨k, hlen, Nat.le_trans hk (PatternIndex.length_literalPrefix_le hd), ?_⟩
  rw [htake]
  exact PatternIndex.bucketAccepts_ofPatterns.mpr ⟨d, hd, rfl, h.alike⟩

theorem isUndeclared_of_mem_undeclaredNames (h : n ∈ c.undeclaredNames) : c.isUndeclared n = true := by
  have hmem : n ∈ NameSet.ofList _ := h
  rw [NameSet.mem_ofList, List.mem_filter] at hmem
  exact hmem.2

/-- A declared name is never reported as undeclared. -/
theorem not_mem_undeclaredNames (h : c.pipeline.declared.accepts n = true) : n ∉ c.undeclaredNames := by
  intro hn
  have hundeclared := isUndeclared_of_mem_undeclaredNames hn
  simp [isUndeclared, h] at hundeclared

/-- **Validation never rejects what binding reads.** For a schema whose root is empty or a name and whose members have
names without quotes, brackets and wildcards, and for a configuration whose listed names are well-formed: the tree
depends on no scalars but those at the names of the schema, each of these names is accepted by the index of the declared
names, and none is reported as undeclared where the schema is declared. -/
theorem schemaNames_declared (c : Config) (s : Schema)
    (hroot : s.root = [] ∨ ∃ r : Pattern, r.text = s.root ∧ r.IsConcrete)
    (hmembers : MembersNamed IsMemberName s.members) (hlisted : ∀ n ∈ c.propertyNames, IsListed n) :
    (∀ c' : Config, SameSpellings c c' → c'.propertyNames = c.propertyNames →
      (∀ n ∈ c.schemaNames s, c'.checked n = c.checked n) → c'.bind s = c.bind s) ∧
    (∀ n ∈ c.schemaNames s, (PatternIndex.ofPatterns s.declaredNames).accepts n = true) ∧
    ∀ ss : List Schema, s ∈ ss → c.pipeline.declared = .ofPatterns (ss.flatMap Schema.declaredNames) →
      ∀ n ∈ c.schemaNames s, n ∉ c.undeclaredNames := by
  have hstart : IsInstance s.root s.root ∨ s.root = [] ∧ s.root = [] := by
    rcases hroot with hroot | ⟨r, hr, hconcrete⟩
    · exact Or.inr ⟨hroot, hroot⟩
    · exact Or.inl (hr ▸ isInstance_self hconcrete)
  have hinstance (n : Text) (hn : n ∈ c.schemaNames s) : ∃ d ∈ s.declaredNames, IsInstance d n :=
    memberNames_isInstance hlisted s.members hmembers hstart hn
  refine ⟨fun c' hsame hnames h => bind_congr hsame hnames s h, fun n hn => ?_, fun ss hs hdeclared n hn => ?_⟩
  · obtain ⟨d, hd, h⟩ := hinstance n hn
    exact accepts_of_isInstance hd h
  · obtain ⟨d, hd, h⟩ := hinstance n hn
    refine not_mem_undeclaredNames ?_
    rw [hdeclared]
    exact accepts_of_isInstance (List.mem_flatMap.mpr ⟨s, hs, hd⟩) h

/-- An element of a list of groups and an entry with a dot in its key, each read below an index or a quoted key. -/
theorem schemaNames_declared_nested :
    let s : Schema := ⟨"srv".toList, [("hosts".toList, .listOfGroups [("name".toList, .leaf none)]),
      ("tags".toList, .mapOfGroups [("on".toList, .optional)])]⟩
    let p : Parts := { Parts.empty with
      sources := [.table (.ofProperties "app".toList (.ofPairs
        [("srv.hosts[0].name".toList, "a".toList), ("srv.tags.\"x.y\".on".toList, "b".toList)]))]
      schemas := [s] }
    let c : Config := ⟨p.pipeline [], .locked⟩
    c.schemaNames s = ["srv.hosts[0].name".toList, "srv.tags.\"x.y\".on".toList] ∧
      ∀ n ∈ c.schemaNames s, (PatternIndex.ofPatterns s.declaredNames).accepts n = true ∧ n ∉ c.undeclaredNames := by
  intro s p c
  have hnames : c.propertyNames.toList = ["srv.hosts[0].name".toList, "srv.tags.\"x.y\".on".toList] := by
    have hplain (n v : Text) (hv : (Dict.ofPairs [("srv.hosts[0].name".toList, "a".toList),
        ("srv.tags.\"x.y\".on".toList, "b".toList)]).get? n = some v) : '$' ∉ v := by
      have hmem := (Dict.madeOf_ofPairs _).mem hv
      simp only [List.mem_cons, List.not_mem_nil, or_false, Prod.mk.injEq] at hmem
      rcases hmem with ⟨-, rfl⟩ | ⟨-, rfl⟩
      · decide
      · decide
    have htable : p.OnlyTable _ := ⟨⟨rfl, rfl, rfl, rfl, rfl⟩, rfl, rfl, rfl, rfl⟩
    have hkeys := (htable.reads_table rfl hplain (by decide +kernel) (by decide +kernel) .locked).2
    rw [show c.propertyNames = _ from hkeys]
    decide +kernel
  have hlisted : ∀ n ∈ c.propertyNames, IsListed n := by
    intro n hn
    have hmem : n ∈ c.propertyNames.toList := hn
    rw [hnames] at hmem
    rcases List.mem_pair.mp hmem with rfl | rfl
    · exact ⟨⟨[⟨.plain "srv".toList (by decide) (by decide), []⟩,
        ⟨.plain "hosts".toList (by decide) (by decide), [.digits "0".toList (by decide)]⟩,
        ⟨.plain "name".toList (by decide) (by decide), []⟩], by simp⟩, by decide,
        Pattern.star_not_mem_text.mp (by decide), by simp [Segment.Unescaped]⟩
    · exact ⟨⟨[⟨.plain "srv".toList (by decide) (by decide), []⟩, ⟨.plain "tags".toList (by decide) (by decide), []⟩,
        ⟨.quoted "x.y".toList (by decide) (by decide), []⟩, ⟨.plain "on".toList (by decide) (by decide), []⟩], by simp⟩,
        by decide, Pattern.star_not_mem_text.mp (by decide), by simp [Segment.Unescaped]⟩
  have hroot : ∃ r : Pattern, r.text = s.root ∧ r.IsConcrete :=
    ⟨⟨[⟨.plain "srv".toList (by decide) (by decide), []⟩], by simp⟩, by decide,
      Pattern.star_not_mem_text.mp (by decide)⟩
  have hmembers : MembersNamed IsMemberName s.members := by
    simp only [s, MembersNamed, Shape.Named, IsMemberName, and_true]
    decide
  obtain ⟨-, haccepts, hdeclared⟩ := schemaNames_declared c s (Or.inr hroot) hmembers hlisted
  refine ⟨?_, fun n hn => ⟨haccepts n hn, hdeclared [s] (by simp) rfl n hn⟩⟩
  rw [schemaNames, hnames]
  decide +kernel

end Config

end LayeredConfig
