import LayeredConfig.Proofs.Dict
import LayeredConfig.Proofs.Environment.Words
import Mathlib.Data.List.Induction

/-!
# `LayeredConfig.Proofs.Environment.Filling` — instances of declared names are recovered

A declared name with wildcards stands for all names that have a key in the place of each `*` and an index in the place
of each `[*]`. Such a name and the declared one are two writings of one tree, piece by piece: so the walk from the right,
which has the declared name and the key before it, can be followed piece by piece, and puts together the other writing.

## Contents
- **Trees.** `FilledBase`, `FilledIndex`, `FilledSegment` and `Filling`; what is `declared` of each, and its `name`.
- **Pieces.** `Restores`: the walk steps over a piece and has its name. It holds of characters (`restores_text`) and of
  indexes (`FilledIndex.restores`), and pieces can be put together (`Restores.append`).
- **Map keys.** What is read at the end of a key (`keyPart_plain`, `keyPart_quoted`); so a word and a quoted key are
  restored in the place of a `*` (`IsMapKey.restores`).
- **Segments.** `FilledSegment.restores`, and `restores_segments` from the last to the first.
- **Main statement.** `reconcile_filling`, from what the walk makes of one declared name (`Filling.nameOf?_key`).
-/

namespace LayeredConfig.Environment

open Text Name

/-! ## Trees -/

/-- A literal base: small letters, digits and hyphens, the first of them no hyphen. -/
structure Literal where
  text : Text
  starts : ∃ c r, text = c :: r ∧ isSmall c = true
  free : ∀ c ∈ text, isSmall c = true ∨ c = '-'

/-- The base of a declared segment: a literal, or a `*` with the word or quoted key that stands in its place. -/
inductive FilledBase where
  | literal (l : Literal)
  | word (w : Word)
  | quoted (k : QuotedKey)

/-- How a base is declared. -/
def FilledBase.declared : FilledBase → Text
  | .literal l => l.text
  | .word _ => ['*']
  | .quoted _ => ['*']

/-- How it is written in the name. -/
def FilledBase.name : FilledBase → Text
  | .literal l => l.text
  | .word w => w.text
  | .quoted k => k.text

/-- An index with its digits, which are declared as they are or as `[*]`. -/
structure FilledIndex where
  digits : Digits
  wildcard : Bool

/-- What is declared between the brackets. -/
def FilledIndex.inner (i : FilledIndex) : Text := if i.wildcard then ['*'] else i.digits.text

/-- How an index is declared. -/
def FilledIndex.declared (i : FilledIndex) : Text := '[' :: i.inner ++ [']']

/-- How it is written in the name. -/
def FilledIndex.name (i : FilledIndex) : Text := i.digits.group

/-- A base and its indexes, the outermost first. -/
structure FilledSegment where
  base : FilledBase
  indexes : List FilledIndex

/-- How a segment is declared. -/
def FilledSegment.declared (s : FilledSegment) : Text := s.base.declared ++ s.indexes.flatMap FilledIndex.declared

/-- How it is written in the name. -/
def FilledSegment.name (s : FilledSegment) : Text := s.base.name ++ s.indexes.flatMap FilledIndex.name

/-- A declared name with what stands in the places of its wildcards. -/
structure Filling where
  segments : List FilledSegment
  ne : segments ≠ []

namespace Filling

variable (f : Filling)

/-- The declared name. -/
def declared : Text := dotted (f.segments.map FilledSegment.declared)

/-- Its instance: the name with a key for every `*` and an index for every `[*]`. -/
def name : Text := dotted (f.segments.map FilledSegment.name)

/-- The key of the instance. -/
def key : Text := asciiUpper (keyOf f.name)

end Filling

/-! ## Pieces -/

/-- In front of what is left of a declared name and of a key, both from the right, the walk steps over a piece and puts
its name behind what it makes of them. -/
def Restores (declared name ds ks : Text) : Prop :=
  alignRev (declared.reverse ++ ds) ((capitalKey name).reverse ++ ks) = (alignRev ds ks).map fun n => n ++ name

/-- Of two pieces the walk meets the second one first. -/
theorem Restores.append {declared₁ declared₂ name₁ name₂ ds ks : Text} (h₁ : Restores declared₁ name₁ ds ks)
    (h₂ : Restores declared₂ name₂ (declared₁.reverse ++ ds) ((capitalKey name₁).reverse ++ ks)) :
    Restores (declared₁ ++ declared₂) (name₁ ++ name₂) ds ks := by
  unfold Restores at *
  rw [capitalKey_append, List.reverse_append, List.reverse_append, List.append_assoc, List.append_assoc, h₂, h₁,
    Option.map_map]
  refine congrArg (fun g => Option.map g _) (funext fun n => ?_)
  exact List.append_assoc n name₁ name₂

theorem restores_nil (ds ks : Text) : Restores [] [] ds ks := by
  unfold Restores
  simp [capitalKey, keyOf, asciiUpper]

/-- A character other than a closing bracket and a `*` is stepped over with what it is spelled by. -/
theorem restores_text {t : Text} (h : ∀ c ∈ t, c ≠ ']' ∧ c ≠ '*' ∧ unitAligns c (keyChar c).toUpper = true)
    (ds ks : Text) : Restores t t ds ks := by
  induction t generalizing ds ks with
  | nil => exact restores_nil ds ks
  | cons c t ih =>
      have hrest := ih (fun d hd => h d (List.mem_cons_of_mem c hd))
      obtain ⟨hbracket, hstar, hunit⟩ := h c List.mem_cons_self
      have hone : Restores [c] [c] ds ks := by
        show alignRev (c :: ds) ((keyChar c).toUpper :: ks) = _
        rw [alignRev, if_neg hbracket, if_neg fun hc => hstar hc.1, if_pos hunit]
      exact hone.append (hrest _ _)

/-- A dot is spelled by a `_`. -/
theorem restores_dot (ds ks : Text) : Restores ['.'] ['.'] ds ks := by
  apply restores_text
  intro c hc
  rw [List.mem_singleton.mp hc]
  decide

/-! ## Indexes -/

/-- The digits between two `_` are read as an index from the right. -/
theorem indexPart_digits (d : Digits) (ks : Text) :
    indexPart ('_' :: (d.text ++ '_' :: ks)) = some (d.text, ks) := by
  have hne : d.text.isEmpty = false := by simpa using d.ne_nil
  obtain ⟨htake, hdrop⟩ := d.takeWhile_append ks
  simp [indexPart, htake, hdrop, hne]

theorem FilledIndex.bracket_not_mem (i : FilledIndex) : '[' ∉ i.inner := by
  unfold inner
  split
  · decide
  · intro h
    exact absurd (isDigit_of_isNumeric i.digits.numeric h) (by decide)

theorem FilledIndex.restores (i : FilledIndex) (ds ks : Text) : Restores i.declared i.name ds ks := by
  have hcut : cut '[' (i.inner.reverse ++ '[' :: ds) = some (i.inner.reverse, ds) := by
    apply cut_append
    rw [List.mem_reverse]
    exact i.bracket_not_mem
  have hkey : (capitalKey i.name).reverse ++ ks = '_' :: (i.digits.back.text ++ '_' :: ks) := by
    rw [name, i.digits.capitalKey_group]
    simp [Digits.back]
  have hdeclared : i.declared.reverse ++ ds = ']' :: (i.inner.reverse ++ '[' :: ds) := by simp [declared]
  have hagrees : i.inner.reverse = ['*'] ∨ i.inner.reverse = i.digits.back.text := by
    unfold inner
    split
    · exact Or.inl rfl
    · exact Or.inr rfl
  unfold Restores
  rw [hkey, hdeclared, alignRev, if_pos rfl]
  split
  · next hnone => rw [hcut] at hnone; cases hnone
  · next index ds' hsome =>
      rw [hcut] at hsome
      obtain ⟨rfl, rfl⟩ := Prod.mk.inj (Option.some.inj hsome)
      rw [indexPart_digits]
      dsimp only
      rw [if_pos hagrees]
      simp [name, Digits.group, Digits.back]

theorem restores_indexes (is : List FilledIndex) (ds ks : Text) :
    Restores (is.flatMap FilledIndex.declared) (is.flatMap FilledIndex.name) ds ks := by
  induction is generalizing ds ks with
  | nil => exact restores_nil ds ks
  | cons i is ih => exact (i.restores ds ks).append (ih _ _)

/-! ## Map keys -/

/-- In a text without `_` there is no pair to be found. -/
theorem cutPair_append {t : Text} (h : '_' ∉ t) (s : Text) :
    cutPair (t ++ s) = (cutPair s).map fun p => (t ++ p.1, p.2) := by
  induction t with
  | nil => exact (Option.map_id' (x := cutPair s)).symm
  | cons c t ih =>
      have hc : c ≠ '_' := by
        rintro rfl
        exact h List.mem_cons_self
      rw [List.cons_append, cutPair, ih fun hm => h (List.mem_cons_of_mem c hm), Option.map_map]
      · rfl
      · rintro _ rfl
        exact absurd rfl hc

/-- The first pair stands behind all parts that have one `_` between them. -/
theorem cutPair_joined {ts : List Text} (hne : ts ≠ []) (hts : ∀ t ∈ ts, t ≠ [] ∧ '_' ∉ t) (r : Text) :
    cutPair (joinWith '_' ts ++ '_' :: '_' :: r) = some (joinWith '_' ts, r) := by
  induction ts with
  | nil => exact absurd rfl hne
  | cons t ts ih =>
      have hfree := (hts t List.mem_cons_self).2
      cases ts with
      | nil =>
          show cutPair (t ++ '_' :: '_' :: r) = some (t, r)
          rw [cutPair_append hfree, cutPair, Option.map_some, List.append_nil]
      | cons u us =>
          have hrest := ih (List.cons_ne_nil u us) fun v hv => hts v (List.mem_cons_of_mem t hv)
          obtain ⟨hu, hufree⟩ := hts u (List.mem_cons_of_mem t List.mem_cons_self)
          obtain ⟨v, hv⟩ := exists_joinWith_eq_append '_' u us
          have hsplit : joinWith '_' (t :: u :: us) = t ++ '_' :: joinWith '_' (u :: us) := rfl
          -- the `_` behind the first part is followed by the next part
          have hstep : cutPair ('_' :: (joinWith '_' (u :: us) ++ '_' :: '_' :: r)) =
              some ('_' :: joinWith '_' (u :: us), r) := by
            rw [cutPair, hrest, Option.map_some]
            intro w _ heq
            obtain ⟨c, u, rfl⟩ := List.exists_cons_of_ne_nil hu
            rw [hv] at heq
            exact hufree ((List.cons.inj heq).1 ▸ List.mem_cons_self)
          rw [hsplit, List.append_assoc, List.cons_append, cutPair_append hfree, hstep, Option.map_some]

/-- A text without `_` is read as a map key up to the `_` in front of it, or up to the start of the key. -/
theorem keyPart_plain {t : Text} (hne : t ≠ []) (hfree : '_' ∉ t) :
    keyPart true t = some (lowered t, []) ∧ ∀ r, keyPart false (t ++ '_' :: r) = some (lowered t, '_' :: r) := by
  obtain ⟨c, u, rfl⟩ := List.exists_cons_of_ne_nil hne
  have hc : c ≠ '_' := by
    rintro rfl
    exact hfree List.mem_cons_self
  constructor
  · unfold keyPart
    split
    · next heq => cases heq
    · next heq => exact absurd (List.cons.inj heq).1 hc
    · exact if_pos rfl
  · intro r
    have hall : ∀ d ∈ c :: u, (d != '_') = true := by
      intro d hd
      rw [bne_iff_ne]
      rintro rfl
      exact hfree hd
    have htake : (c :: u ++ '_' :: r).takeWhile (· != '_') = c :: u := by
      rw [List.takeWhile_append_of_pos hall]
      exact List.append_nil _
    have hdrop : (c :: u ++ '_' :: r).dropWhile (· != '_') = '_' :: r := List.dropWhile_append_of_pos hall
    unfold keyPart
    split
    · next heq => cases heq
    · next heq => exact absurd (List.cons.inj heq).1 hc
    · rw [if_neg (by decide), htake, hdrop]

/-- A text between two `_` is read as a quoted key, with the `_` in front of the pair that opens it left behind. -/
theorem keyPart_quoted {t : Text} (hne : t ≠ []) :
    keyPart true ('_' :: (t ++ ['_'])) = some (quotedKey t, []) ∧
      ∀ r, cutPair (t ++ '_' :: '_' :: r) = some (t, r) →
        keyPart false ('_' :: (t ++ '_' :: '_' :: r)) = some (quotedKey t, '_' :: r) := by
  constructor
  · rw [keyPart, if_pos rfl, List.reverse_append]
    show (if t.reverse.isEmpty then none else some (quotedKey t.reverse.reverse, [])) = _
    rw [if_neg (List.isEmpty_iff.not.mpr (List.reverse_ne_nil_iff.mpr hne)), List.reverse_reverse]
  · intro r hpair
    rw [keyPart, if_neg (by decide), hpair]
    dsimp only
    rw [if_neg (List.isEmpty_iff.not.mpr hne)]

theorem lowered_key (t : Text) : lowered (capitalKey t).reverse = asciiLower (capitalKey t) := by
  have hascii : ∀ c ∈ capitalKey t, c.toNat < 0x80 := by
    intro c hc
    exact toNat_lt_of_isKeyChar (isKeyChar_of_mem_capitalKey hc)
  rw [lowered, List.reverse_reverse, ofUnits_of_ascii hascii]

/-- A map key that is read at the end of a key as it is written, where the key starts with it and where it stands behind
a dot. -/
structure IsMapKey (part : Text) : Prop where
  ne : capitalKey part ≠ []
  first : keyPart true (capitalKey part).reverse = some (part, [])
  behind (r : Text) : keyPart false ((capitalKey part).reverse ++ '_' :: r) = some (part, '_' :: r)

theorem Word.isMapKey (w : Word) : IsMapKey w.text := by
  have hne : (capitalKey w.text).reverse ≠ [] := List.reverse_ne_nil_iff.mpr w.key_ne_nil
  have hfree : '_' ∉ (capitalKey w.text).reverse := List.mem_reverse.not.mpr w.underscore_not_mem
  have hlowered : lowered (capitalKey w.text).reverse = w.text := by rw [lowered_key, w.lower_key]
  obtain ⟨hfirst, hbehind⟩ := keyPart_plain hne hfree
  rw [hlowered] at hfirst hbehind
  exact ⟨w.key_ne_nil, hfirst, hbehind⟩

/-- Read from the right, the words between the quotes still have one `_` between them, so that the first pair is the one
that opens. -/
theorem QuotedKey.cutPair_inner (k : QuotedKey) (r : Text) :
    cutPair ((capitalKey k.inner).reverse ++ '_' :: '_' :: r) = some ((capitalKey k.inner).reverse, r) := by
  rw [inner, capitalKey_dotted, reverse_joinWith]
  apply cutPair_joined
  · simpa using k.ne
  · intro t ht
    simp only [List.mem_reverse, List.mem_map] at ht
    obtain ⟨_, ⟨_, ⟨w, -, rfl⟩, rfl⟩, rfl⟩ := ht
    rw [Ne, List.reverse_eq_nil_iff, List.mem_reverse]
    exact ⟨w.key_ne_nil, w.underscore_not_mem⟩

theorem QuotedKey.isMapKey (k : QuotedKey) : IsMapKey k.text := by
  have hne : capitalKey k.inner ≠ [] := by
    obtain ⟨c, u, hcons, -⟩ := Word.exists_keys_eq_cons k.ne []
    rw [List.append_nil] at hcons
    intro hnil
    rw [inner, hcons] at hnil
    cases hnil
  have hback : (capitalKey k.text).reverse = '_' :: ((capitalKey k.inner).reverse ++ ['_']) := by
    rw [k.capitalKey_text]
    simp
  have hquoted : quotedKey (capitalKey k.inner).reverse = k.text := by
    rw [quotedKey, lowered_key, k.restored]
    rfl
  obtain ⟨hfirst, hbehind⟩ := keyPart_quoted (List.reverse_ne_nil_iff.mpr hne)
  rw [hquoted] at hfirst hbehind
  refine ⟨?_, ?_, ?_⟩
  · rw [k.capitalKey_text]
    exact List.cons_ne_nil _ _
  · rw [hback, hfirst]
  · intro r
    rw [hback, List.cons_append, List.append_assoc, List.singleton_append]
    exact hbehind r (k.cutPair_inner r)

/-- What a map key stands behind: the start of the declared name and of the key, or a dot and its `_`. -/
inductive AtBoundary : Text → Text → Prop where
  | start : AtBoundary [] []
  | dot (ds ks : Text) : AtBoundary ('.' :: ds) ('_' :: ks)

/-- In the place of a `*` a map key is restored. -/
theorem IsMapKey.restores {part ds ks : Text} (h : IsMapKey part) (hat : AtBoundary ds ks) :
    Restores ['*'] part ds ks := by
  have hplace : ds = [] ∨ ds.head? = some '.' := by
    cases hat with
    | start => exact Or.inl rfl
    | dot ds ks => exact Or.inr rfl
  have hpart : keyPart ds.isEmpty ((capitalKey part).reverse ++ ks) = some (part, ks) := by
    cases hat with
    | start =>
        rw [List.append_nil]
        exact h.first
    | dot ds ks => exact h.behind ks
  obtain ⟨c, u, hcons⟩ := List.exists_cons_of_ne_nil (List.reverse_ne_nil_iff.mpr h.ne)
  unfold Restores
  rw [hcons] at hpart ⊢
  show alignRev ('*' :: ds) (c :: (u ++ ks)) = _
  rw [alignRev, if_neg (by decide), if_pos ⟨rfl, hplace⟩]
  rw [List.cons_append] at hpart
  rw [hpart]

/-! ## Segments -/

/-- A small letter, a digit and a hyphen stand over what they are spelled by. -/
theorem unitAligns_of_isSmall {c : Char} (h : isSmall c = true ∨ c = '-') :
    c ≠ ']' ∧ c ≠ '*' ∧ unitAligns c (keyChar c).toUpper = true := by
  rcases h with h | rfl
  · exact of_ascii
      (P := fun c => isSmall c = true → c ≠ ']' ∧ c ≠ '*' ∧ unitAligns c (keyChar c).toUpper = true) (by decide)
      (toNat_lt_of_isSmall h) h
  · decide

theorem FilledBase.restores (b : FilledBase) {ds ks : Text} (hat : AtBoundary ds ks) :
    Restores b.declared b.name ds ks := by
  cases b with
  | literal l => exact restores_text (fun c hc => unitAligns_of_isSmall (l.free c hc)) ds ks
  | word w => exact w.isMapKey.restores hat
  | quoted k => exact k.isMapKey.restores hat

theorem FilledSegment.restores (s : FilledSegment) {ds ks : Text} (hat : AtBoundary ds ks) :
    Restores s.declared s.name ds ks :=
  (s.base.restores hat).append (restores_indexes s.indexes _ _)

/-- Segments are restored one by one from the last to the first. -/
theorem restores_segments {ss : List FilledSegment} (hne : ss ≠ []) :
    Restores (dotted (ss.map FilledSegment.declared)) (dotted (ss.map FilledSegment.name)) [] [] := by
  induction ss using List.reverseRecOn with
  | nil => exact absurd rfl hne
  | append_singleton ss s ih =>
      by_cases hss : ss = []
      · rw [hss]
        exact s.restores .start
      · have hsplit (text : FilledSegment → Text) :
            dotted ((ss ++ [s]).map text) = dotted (ss.map text) ++ (['.'] ++ text s) := by
          rw [List.map_append]
          exact joinWith_append '.' (by simpa using hss) (List.cons_ne_nil _ _)
        rw [hsplit, hsplit]
        apply (ih hss).append
        apply (restores_dot _ _).append
        exact s.restores (.dot _ _)

/-! ## Declared names -/

theorem toNat_lt_of_mem_declared (s : FilledSegment) {c : Char} (hc : c ∈ s.declared) : c.toNat < 0x80 := by
  rcases List.mem_append.mp hc with hc | hc
  · cases hbase : s.base with
    | literal l =>
        rw [hbase] at hc
        rcases l.free c hc with h | rfl
        · exact toNat_lt_of_isSmall h
        · decide
    | word w =>
        rw [hbase] at hc
        rw [List.mem_singleton.mp hc]
        decide
    | quoted k =>
        rw [hbase] at hc
        rw [List.mem_singleton.mp hc]
        decide
  · obtain ⟨i, -, hc⟩ := List.mem_flatMap.mp hc
    have hinner : ∀ c ∈ i.inner, c.toNat < 0x80 := by
      intro c hc
      rw [FilledIndex.inner] at hc
      split at hc
      · rw [List.mem_singleton.mp hc]
        decide
      · exact toNat_lt_of_isDigit (isDigit_of_isNumeric i.digits.numeric hc)
    simp only [FilledIndex.declared, List.mem_append, List.mem_cons, List.not_mem_nil, or_false] at hc
    rcases hc with (rfl | hc) | rfl
    · decide
    · exact hinner c hc
    · decide

/-- A declared name is the sequence of its units. -/
theorem Filling.toUnits_declared (f : Filling) : toUnits f.declared = f.declared := by
  apply toUnits_of_ascii
  intro c hc
  by_cases hdot : c = '.'
  · rw [hdot]
    decide
  · obtain ⟨t, ht, hmem⟩ := (mem_joinWith hdot).mp hc
    obtain ⟨s, -, rfl⟩ := List.mem_map.mp ht
    exact toNat_lt_of_mem_declared s hmem

/-- Against the declared name the key of an instance spells the instance. -/
theorem Filling.nameOf?_key (f : Filling) : nameOf? f.declared f.key = some f.name := by
  have hrestores : Restores f.declared f.name [] [] := restores_segments f.ne
  unfold Restores at hrestores
  rw [List.append_nil, List.append_nil] at hrestores
  have hend : alignRev [] [] = some [] := by rw [alignRev]
  rw [nameOf?, align, f.toUnits_declared]
  show ((alignRev f.declared.reverse (toUnits (capitalKey f.name)).reverse).or _) = _
  rw [toUnits_capitalKey, hrestores, hend]
  rfl

/-! ## Main statement -/

/-- The names that keys spell are those of the first declared names. -/
theorem get?_reconcile_iff {declared keys : List Text} {k n : Text} :
    (reconcile declared keys).get? k = some n ↔ k ∈ keys ∧ declaredName? declared k = some n := by
  have hmem {k n : Text} :
      (k, n) ∈ keys.filterMap (fun k => (declaredName? declared k).map fun n => (k, n)) ↔
        k ∈ keys ∧ declaredName? declared k = some n := by
    simp only [List.mem_filterMap, Option.map_eq_some_iff, Prod.mk.injEq]
    constructor
    · rintro ⟨j, hj, m, hm, rfl, rfl⟩
      exact ⟨hj, hm⟩
    · rintro ⟨hk, hn⟩
      exact ⟨k, hk, n, hn, rfl, rfl⟩
  rw [reconcile, (Dict.madeOf_ofPairs _).get?_iff, hmem]
  intro k v w hv hw
  exact Option.some.inj ((hmem.mp hv).2.symm.trans (hmem.mp hw).2)

/-- **Every instance of a declared name is recovered.** Where no declared name before it lines up with the key of an
instance, the key is reported with the instance: with its hyphens, dots, quotes and indexes. -/
theorem reconcile_filling (f : Filling) {before after keys : List Text} (hkey : f.key ∈ keys)
    (hfirst : ∀ d ∈ before, nameOf? d f.key = none) :
    (reconcile (before ++ f.declared :: after) keys).get? (asciiUpper (keyOf f.name)) = some f.name := by
  rw [get?_reconcile_iff]
  refine ⟨hkey, ?_⟩
  have hbefore : before.findSome? (fun d => nameOf? d f.key) = none := by
    rw [List.findSome?_eq_none_iff]
    exact hfirst
  show (before ++ f.declared :: after).findSome? (fun d => nameOf? d f.key) = some f.name
  rw [List.findSome?_append, hbefore, Option.none_or, List.findSome?_cons, f.nameOf?_key]

/-- A quoted key at the start, a hyphen and a chain of indexes, between a declared name with another index and one that
lines up as well. -/
theorem reconcile_filling_mixed :
    let f : Filling :=
      { segments := [
          ⟨.quoted ⟨[⟨"a".toList, by decide, by decide⟩, ⟨"b1".toList, by decide, by decide⟩], by decide⟩, []⟩,
          ⟨.literal ⟨"top-level".toList, ⟨'t', "op-level".toList, by decide, by decide⟩, by decide⟩, []⟩,
          ⟨.word ⟨"7".toList, by decide, by decide⟩,
            [⟨⟨"12".toList, by decide⟩, true⟩, ⟨⟨"0".toList, by decide⟩, false⟩]⟩]
        ne := by decide }
    f.declared = "*.top-level.*[*][0]".toList ∧ f.name = "\"a.b1\".top-level.7[12][0]".toList ∧
      (reconcile ["*.top-level.*[*][1]".toList, f.declared, "*.top.level.*[*][*]".toList]
        ["PATH".toList, "_A_B1__TOP_LEVEL_7_12__0_".toList]).get? (asciiUpper (keyOf f.name)) = some f.name := by
  intro f
  refine ⟨by decide +kernel, by decide +kernel, ?_⟩
  have hfirst : ∀ d ∈ ["*.top-level.*[*][1]".toList], nameOf? d f.key = none := by decide +kernel
  exact reconcile_filling f (by decide +kernel) hfirst

end LayeredConfig.Environment
