import LayeredConfig.Family.Reading
import LayeredConfig.Proofs.Family.Member

/-!
# `LayeredConfig.Proofs.Family.Precedence` — one spelling of a list or map is read

A list or a map is read from one inline value or from its family of members. The inline value is compared with one
member only, the best of the family. Precedence is a preorder, in which two different members may be equally good; still
a record that is strictly above the best one is strictly above every member.

## Contents
- **Precedence.** The strict order of records: asymmetric, and its negation is transitive (`Record.not_outranks_trans`).
- **The best record.** `StandsFor` is what the search for the best member knows of the records that it has seen; kept by
  every step (`StandsFor.step`), so that it holds of the whole search (`standsFor_best?`).
- **Families.** `IsElement` and `IsMember` say which names belong to a list and to a map.
- **Main statement.** `Prevails` is the record that is read inline; `inline_iff_prevails`.
-/

namespace LayeredConfig

open Text

/-! ## Precedence -/

/-- An origin has strict precedence by a higher ordinal, or by a lower position at the same ordinal. -/
theorem Origin.outranks_iff {a b : Origin} :
    a.outranks b = true ↔ b.ordinal < a.ordinal ∨ a.ordinal = b.ordinal ∧ a.position < b.position := by
  rw [outranks, compare, beq_iff_eq, Ordering.then_eq_gt, compare_gt_iff_gt, compare_gt_iff_gt, compare_eq_iff_eq]

namespace Record

theorem outranks_iff_compare {a b : Record} : a.outranks b = true ↔ a.origin.compare b.origin = .gt := beq_iff_eq

theorem outranks_asymm {a b : Record} (h : a.outranks b = true) : b.outranks a = false := by
  rw [← Bool.not_eq_true]
  unfold outranks at h ⊢
  rw [Origin.outranks_iff] at h ⊢
  omega

theorem outranks_self (r : Record) : r.outranks r = false := by
  cases h : r.outranks r with
  | false => rfl
  | true => exact h.symm.trans (outranks_asymm h)

/-- A record that is not above another is not above those that this one is not above. -/
theorem not_outranks_trans {a b c : Record} (hab : a.outranks b = false) (hbc : b.outranks c = false) :
    a.outranks c = false := by
  rw [← Bool.not_eq_true] at hab hbc ⊢
  unfold outranks at hab hbc ⊢
  rw [Origin.outranks_iff] at hab hbc ⊢
  omega

end Record

namespace Family

/-! ## The best record -/

/-- What the search for the best record has found among the records that it has seen: nothing where there was none, else
one of them that none of them outranks. -/
inductive StandsFor : Option Record → List Record → Prop where
  | nothing : StandsFor none []
  | best {b : Record} {seen : List Record} (mem : b ∈ seen) (top : ∀ r ∈ seen, r.outranks b = false) :
      StandsFor (some b) seen

/-- One more record is kept unless the best one so far is strictly above it. -/
theorem StandsFor.step {found : Option Record} {seen : List Record} (r : Record) : StandsFor found seen →
    StandsFor
      (match found with
        | some b => if b.outranks r then some b else some r
        | none => some r)
      (seen ++ [r]) := by
  intro h
  cases h with
  | nothing =>
      apply StandsFor.best List.mem_cons_self
      intro s hs
      rw [List.mem_singleton.mp hs]
      exact r.outranks_self
  | @best b seen mem top =>
      dsimp only
      split
      · next habove =>
          apply StandsFor.best (List.mem_append_left _ mem)
          intro s hs
          rcases List.mem_append.mp hs with hs | hs
          · exact top s hs
          · rw [List.mem_singleton.mp hs]
            exact Record.outranks_asymm habove
      · next hnot =>
          apply StandsFor.best (List.mem_append_right _ List.mem_cons_self)
          intro s hs
          rcases List.mem_append.mp hs with hs | hs
          · exact Record.not_outranks_trans (top s hs) (Bool.not_eq_true _ ▸ hnot)
          · rw [List.mem_singleton.mp hs]
            exact r.outranks_self

/-- The best of the records of names stands for all of them. -/
theorem standsFor_best? (lookup : Text → Option Record) (names : List Text) :
    StandsFor (best? lookup names) (names.filterMap lookup) := by
  have hrun (records seen : List Record) (found : Option Record) (h : StandsFor found seen) :
      StandsFor
        (records.foldl
          (fun best r => match best with
            | some b => if b.outranks r then some b else some r
            | none => some r)
          found)
        (seen ++ records) := by
    induction records generalizing seen found with
    | nil => rwa [List.append_nil]
    | cons r records ih =>
        rw [List.foldl_cons, List.append_cons]
        exact ih _ _ (StandsFor.step r h)
  exact hrun _ [] none .nothing

/-- To be strictly above the record that stands for others is to be strictly above each of them. -/
theorem StandsFor.outranks_iff {found : Option Record} {seen : List Record} (h : StandsFor found seen) (r : Record) :
    (∀ b, found = some b → r.outranks b = true) ↔ ∀ m ∈ seen, r.outranks m = true := by
  cases h with
  | nothing => simp
  | @best b seen mem top =>
      constructor
      · intro habove m hm
        -- were it not above a member, it would not be above the best one either
        cases hrm : r.outranks m with
        | true => rfl
        | false =>
            have hrb := Record.not_outranks_trans hrm (top m hm)
            rw [habove b rfl] at hrb
            cases hrb
      · intro hall c hc
        rw [← Option.some.inj hc]
        exact hall b mem

theorem preferInline_eq_some_iff {family inline : Option Record} {r : Record} :
    preferInline family inline = some r ↔
      inline = some r ∧ r.value ≠ none ∧ ∀ b, family = some b → r.outranks b = true := by
  unfold preferInline
  cases inline with
  | none => simp
  | some s =>
      dsimp only
      rw [Option.some.injEq]
      constructor
      · intro h
        split at h
        · cases h
        · next hvalue =>
            rw [Option.isNone_iff_eq_none] at hvalue
            cases family with
            | none =>
                obtain rfl := Option.some.inj h
                exact ⟨rfl, hvalue, fun b hb => absurd hb (Option.some_ne_none b).symm⟩
            | some f =>
                obtain ⟨habove, hs⟩ := Option.ite_none_right_eq_some.mp h
                obtain rfl := Option.some.inj hs
                exact ⟨rfl, hvalue, fun b hb => Option.some.inj hb ▸ habove⟩
      · rintro ⟨rfl, hvalue, habove⟩
        rw [if_neg (Option.isNone_iff_eq_none.not.mpr hvalue)]
        cases family with
        | none => rfl
        | some f => exact if_pos (habove f rfl)

/-! ## Families -/

/-- A name of the form `root[N]` with an index `N`, alone or continued by a dot or a bracket. -/
def IsElement (root name : Text) : Prop :=
  ∃ digits u, name = root ++ '[' :: digits ++ ']' :: u ∧ isNumeric digits = true ∧ digitsValue digits ≤ maxIndex ∧
    Follows u

theorem isSome_element?_iff (root name : Text) : (element? root name).isSome = true ↔ IsElement root name := by
  simp only [Option.isSome_iff_exists, Prod.exists, element?_eq_some_iff]
  constructor
  · rintro ⟨i, e, digits, u, hname, hnumeric, rfl, hle, hu, -⟩
    exact ⟨digits, u, hname, hnumeric, hle, hu⟩
  · rintro ⟨digits, u, hname, hnumeric, hle, hu⟩
    exact ⟨_, _, digits, u, hname, hnumeric, rfl, hle, hu, rfl⟩

/-- A text that spells an unquoted key, with no bracket, and with a dot only directly behind a backslash. -/
inductive Unquoted : Text → Prop where
  | nil : Unquoted []
  | dot {t : Text} (rest : Unquoted t) : Unquoted ('\\' :: '.' :: t)
  | cons {c : Char} {t : Text} (hdot : c ≠ '.') (hbracket : c ≠ '[') (rest : Unquoted t) : Unquoted (c :: t)

/-- A text that spells a key: one in quotes, or an unquoted one that is not empty. -/
inductive SpellsKey : Text → Prop where
  | quoted {t : Text} (free : '"' ∉ t) : SpellsKey ('"' :: t ++ ['"'])
  | unquoted {c : Char} {t : Text} (hquote : c ≠ '"') (key : Unquoted (c :: t)) : SpellsKey (c :: t)

/-- A name that is a member `root.<key>` of a map, or belongs to an element of one. -/
def IsMember (root name : Text) : Prop :=
  ∃ written, SpellsKey written ∧ (name = memberName root written ∨ IsElement (memberName root written) name)

/-- No dot starts the text of an unquoted key, nor what follows it. -/
theorem Unquoted.append_ne_dot {t tail r : Text} (h : Unquoted t) (htail : tail = [] ∨ tail.head? = some '[') :
    t ++ tail ≠ '.' :: r := by
  intro heq
  cases h with
  | nil =>
      rw [List.nil_append] at heq
      rw [heq] at htail
      rcases htail with hnil | hhead
      · cases hnil
      · exact absurd (Option.some.inj hhead) (by decide)
  | dot rest => exact absurd (List.cons.inj heq).1 (by decide)
  | cons hdot hbracket rest => exact hdot (List.cons.inj heq).1

/-- The text of an unquoted key is read up to a bracket or the end, and only an empty text spells an empty key. -/
theorem Unquoted.plainKey_append {written tail : Text} (h : Unquoted written)
    (htail : tail = [] ∨ tail.head? = some '[') :
    ∃ key, plainKey (written ++ tail) = (key, written, tail) ∧ (key = [] → written = []) := by
  induction h with
  | nil =>
      refine ⟨[], ?_, fun _ => rfl⟩
      rcases htail with rfl | htail
      · rfl
      · obtain ⟨r, rfl⟩ := List.head?_eq_some_iff.mp htail
        rfl
  | dot rest ih =>
      obtain ⟨key, hkey, -⟩ := ih
      refine ⟨'.' :: key, ?_, fun h => absurd h (List.cons_ne_nil _ _)⟩
      rw [List.cons_append, List.cons_append, plainKey, hkey]
  | @cons c t hdot hbracket rest ih =>
      obtain ⟨key, hkey, -⟩ := ih
      refine ⟨c :: key, ?_, fun h => absurd h (List.cons_ne_nil _ _)⟩
      rw [List.cons_append, plainKey]
      · rw [if_neg (not_or.mpr ⟨hdot, hbracket⟩), hkey]
      · intro r _ hdot
        exact rest.append_ne_dot htail hdot

/-- What is read of an unquoted key is the text of one, and stands in front of the rest. -/
theorem unquoted_of_plainKey (t : Text) :
    t = (plainKey t).2.1 ++ (plainKey t).2.2 ∧ Unquoted (plainKey t).2.1 ∧
      ((plainKey t).2.1 = [] → (plainKey t).1 = []) := by
  fun_induction plainKey t with
  | case1 => exact ⟨rfl, .nil, fun _ => rfl⟩
  | case2 r key written rest hread ih =>
      rw [hread] at ih
      obtain ⟨hsplit, hwritten, -⟩ := ih
      exact ⟨congrArg ('\\' :: '.' :: ·) hsplit, .dot hwritten, fun h => absurd h (List.cons_ne_nil _ _)⟩
  | case3 => exact ⟨rfl, .nil, fun _ => rfl⟩
  | case4 c r _ hc key written rest hread ih =>
      rw [hread] at ih
      obtain ⟨hsplit, hwritten, -⟩ := ih
      rw [not_or] at hc
      exact ⟨congrArg (c :: ·) hsplit, .cons hc.1 hc.2 hwritten, fun h => absurd h (List.cons_ne_nil _ _)⟩

/-- A key text is read up to a bracket or the end. -/
theorem SpellsKey.keySegment_append {written tail : Text} (h : SpellsKey written)
    (htail : tail = [] ∨ tail.head? = some '[') : ∃ key, keySegment (written ++ tail) = some (key, written, tail) := by
  cases h with
  | @quoted t free =>
      refine ⟨t, ?_⟩
      rw [List.append_assoc]
      exact keySegment_quoted free tail
  | @unquoted c t hquote hkey =>
      obtain ⟨key, hread, hne⟩ := hkey.plainKey_append htail
      refine ⟨key, ?_⟩
      unfold keySegment
      split
      · next heq => exact absurd (List.cons.inj heq).1 hquote
      · rw [hread]
        cases key with
        | nil => exact absurd (hne rfl) (List.cons_ne_nil c t)
        | cons d key => rfl

/-- What is read of a key is a key text, and stands in front of the rest. -/
theorem spellsKey_of_keySegment {t key written rest : Text} (h : keySegment t = some (key, written, rest)) :
    t = written ++ rest ∧ SpellsKey written := by
  unfold keySegment at h
  split at h
  · next r =>
      obtain ⟨⟨inner, behind⟩, hcut, heq⟩ := Option.map_eq_some_iff.mp h
      cases heq
      refine ⟨?_, .quoted (not_mem_of_cut hcut)⟩
      rw [eq_of_cut hcut, List.append_assoc]
      rfl
  · next hquote =>
      obtain ⟨hsplit, hwritten, hempty⟩ := unquoted_of_plainKey t
      split at h
      · cases h
      · next found hne =>
          rw [Option.some.injEq] at h
          rw [h] at hsplit hwritten hempty
          refine ⟨hsplit, ?_⟩
          cases written with
          | nil =>
              obtain rfl : key = [] := hempty rfl
              exact absurd h (hne [] rest)
          | cons c written =>
              refine .unquoted ?_ hwritten
              rintro rfl
              exact hquote _ hsplit

theorem below?_eq_some_iff_memberName {root name rest : Text} :
    below? root name = some rest ↔ name = memberName root rest := by
  cases root with
  | nil =>
      show some name = some rest ↔ name = rest
      rw [Option.some.injEq]
  | cons c root => exact below?_eq_some_iff (List.cons_ne_nil c root)

theorem memberName_append (root a b : Text) : memberName root (a ++ b) = memberName root a ++ b := by
  unfold memberName
  split
  · rfl
  · rw [List.append_assoc, List.cons_append]

/-- Whether a name belongs to an element of a list is decided behind the root. -/
theorem isElement_append_iff {root tail : Text} : IsElement root (root ++ tail) ↔ (indexGroup tail).isSome = true := by
  have hrest : afterPrefix? root (root ++ tail) = some tail := afterPrefix?_eq_some_iff.mpr rfl
  rw [← isSome_element?_iff, element?, hrest, Option.bind_some, Option.isSome_map]

theorem isSome_keyedMember?_iff (root name : Text) : (keyedMember? root name).isSome = true ↔ IsMember root name := by
  unfold keyedMember?
  simp only [Option.isSome_iff_exists, Option.bind_eq_some_iff, below?_eq_some_iff_memberName]
  constructor
  · rintro ⟨p, rest, rfl, ⟨key, written, tail⟩, hkey, hmember⟩
    obtain ⟨rfl, hwritten⟩ := spellsKey_of_keySegment hkey
    have htail : (tail.isEmpty || (indexGroup tail).isSome) = true := (Option.ite_none_right_eq_some.mp hmember).1
    refine ⟨written, hwritten, ?_⟩
    rw [memberName_append, isElement_append_iff]
    rcases Bool.or_eq_true_iff.mp htail with hnil | hgroup
    · rw [List.isEmpty_iff.mp hnil, List.append_nil]
      exact Or.inl rfl
    · exact Or.inr hgroup
  · rintro ⟨written, hwritten, hname⟩
    obtain ⟨tail, htail, rfl⟩ : ∃ tail, (tail = [] ∨ (indexGroup tail).isSome = true) ∧
        name = memberName root written ++ tail := by
      rcases hname with rfl | helement
      · exact ⟨[], Or.inl rfl, (List.append_nil _).symm⟩
      · obtain ⟨digits, u, rfl, -⟩ := id helement
        rw [List.append_assoc] at helement ⊢
        exact ⟨_, Or.inr (isElement_append_iff.mp helement), rfl⟩
    have hstarts : tail = [] ∨ tail.head? = some '[' := by
      rcases htail with rfl | hgroup
      · exact Or.inl rfl
      · obtain ⟨⟨i, digits⟩, hgroup⟩ := Option.isSome_iff_exists.mp hgroup
        obtain ⟨u, rfl, -⟩ := indexGroup_eq_some_iff.mp hgroup
        exact Or.inr rfl
    obtain ⟨key, hkey⟩ := hwritten.keySegment_append hstarts
    refine ⟨(key, memberName root written), written ++ tail, (memberName_append _ _ _).symm, _, hkey, ?_⟩
    refine if_pos (Bool.or_eq_true_iff.mpr ?_)
    rwa [List.isEmpty_iff]

/-! ## Main statement -/

/-- A record of the root that has a value, and strict precedence over every record of a name in the family. -/
structure Prevails (lookup : Text → Option Record) (names : List Text) (root : Text) (InFamily : Text → Prop)
    (r : Record) (v : Text) : Prop where
  found : lookup root = some r
  value : r.value = some v
  above : ∀ n ∈ names, InFamily n → ∀ m, lookup n = some m → r.origin.compare m.origin = .gt

/-- One record of the root prevails at most, with one value. -/
theorem Prevails.unique {lookup : Text → Option Record} {names : List Text} {root : Text} {InFamily : Text → Prop}
    {r s : Record} {v w : Text} (hr : Prevails lookup names root InFamily r v)
    (hs : Prevails lookup names root InFamily s w) : r = s ∧ v = w := by
  obtain rfl : r = s := Option.some.inj (hr.found.symm.trans hs.found)
  exact ⟨rfl, Option.some.inj (hr.value.symm.trans hs.value)⟩

/-- The record that is preferred to the best member is the one that prevails. -/
theorem preferInline_best?_iff (lookup : Text → Option Record) (names : List Text) (root : Text)
    {InFamily : Text → Prop} {test : Text → Bool} (htest : ∀ n, test n = true ↔ InFamily n) (r : Record) :
    preferInline (best? lookup (names.filter test)) (lookup root) = some r ↔
      ∃ v, Prevails lookup names root InFamily r v := by
  rw [preferInline_eq_some_iff, (standsFor_best? lookup _).outranks_iff]
  constructor
  · rintro ⟨hfound, hvalue, habove⟩
    obtain ⟨v, hv⟩ := Option.ne_none_iff_exists'.mp hvalue
    refine ⟨v, hfound, hv, fun n hn hfamily m hm => ?_⟩
    apply Record.outranks_iff_compare.mp
    apply habove
    exact List.mem_filterMap.mpr ⟨n, List.mem_filter.mpr ⟨hn, (htest n).mpr hfamily⟩, hm⟩
  · rintro ⟨v, hfound, hv, habove⟩
    refine ⟨hfound, fun hnone => ?_, fun m hm => ?_⟩
    · rw [hv] at hnone
      cases hnone
    · obtain ⟨n, hn, hlookup⟩ := List.mem_filterMap.mp hm
      obtain ⟨hn, hfamily⟩ := List.mem_filter.mp hn
      exact Record.outranks_iff_compare.mpr (habove n hn ((htest n).mp hfamily) m hlookup)

/-- So there is a record that prevails and is preferred, or none. -/
theorem prevails_or_none (lookup : Text → Option Record) (names : List Text) (root : Text) {InFamily : Text → Prop}
    {test : Text → Bool} (htest : ∀ n, test n = true ↔ InFamily n) :
    (∃ r v, Prevails lookup names root InFamily r v ∧
      preferInline (best? lookup (names.filter test)) (lookup root) = some r) ∨
    (¬ ∃ r v, Prevails lookup names root InFamily r v) ∧
      preferInline (best? lookup (names.filter test)) (lookup root) = none := by
  have hprefer := preferInline_best?_iff lookup names root htest
  cases hinline : preferInline (best? lookup (names.filter test)) (lookup root) with
  | some r =>
      obtain ⟨v, hv⟩ := (hprefer r).mp hinline
      exact Or.inl ⟨r, v, hv, rfl⟩
  | none =>
      refine Or.inr ⟨?_, rfl⟩
      rintro ⟨r, v, hv⟩
      have hsome := (hprefer r).mpr ⟨v, hv⟩
      rw [hinline] at hsome
      cases hsome

theorem readList_prevails (lookup : Text → Option Record) (names : List Text) (root : Text) :
    (∃ r v, Prevails lookup names root (IsElement root) r v ∧
      readList lookup names root = .inline r (splitList v)) ∨
    (¬ ∃ r v, Prevails lookup names root (IsElement root) r v) ∧
      readList lookup names root = .indexed (elements root names) := by
  unfold readList
  dsimp only
  rcases prevails_or_none lookup names root (isSome_element?_iff root) with
    ⟨r, v, hv, hinline⟩ | ⟨hnone, hinline⟩
  · refine Or.inl ⟨r, v, hv, ?_⟩
    rw [hinline]
    dsimp only
    rw [hv.value, Option.getD_some]
  · refine Or.inr ⟨hnone, ?_⟩
    rw [hinline]

theorem readMap_prevails (lookup : Text → Option Record) (names : List Text) (root : Text) :
    (∃ r v, Prevails lookup names root (IsMember root) r v ∧ readMap lookup names root = .inline r (splitMap v)) ∨
    (¬ ∃ r v, Prevails lookup names root (IsMember root) r v) ∧
      readMap lookup names root = .keyed (keyedMembers root names) := by
  unfold readMap
  dsimp only
  rcases prevails_or_none lookup names root (isSome_keyedMember?_iff root) with
    ⟨r, v, hv, hinline⟩ | ⟨hnone, hinline⟩
  · refine Or.inl ⟨r, v, hv, ?_⟩
    rw [hinline]
    dsimp only
    rw [hv.value, Option.getD_some]
  · refine Or.inr ⟨hnone, ?_⟩
    rw [hinline]

/-- The two forms that a reading may have are told apart by whether a record prevails. -/
theorem reading_iff {α β : Type} {inline : Record → β → α} {family reading : α} {split : Text → β}
    {P : Record → Text → Prop} (hinline : ∀ r s b c, inline r b = inline s c → r = s ∧ b = c)
    (hfamily : ∀ r b, family ≠ inline r b) (hunique : ∀ r s v w, P r v → P s w → r = s ∧ v = w)
    (h : (∃ r v, P r v ∧ reading = inline r (split v)) ∨ (¬ ∃ r v, P r v) ∧ reading = family) :
    (∀ r b, reading = inline r b ↔ ∃ v, P r v ∧ b = split v) ∧ (reading = family ↔ ¬ ∃ r v, P r v) := by
  rcases h with ⟨s, w, hs, rfl⟩ | ⟨hnone, rfl⟩
  · refine ⟨fun r b => ⟨fun heq => ?_, ?_⟩, fun heq => absurd heq.symm (hfamily s _), fun hnone => ?_⟩
    · obtain ⟨rfl, rfl⟩ := hinline _ _ _ _ heq
      exact ⟨w, hs, rfl⟩
    · rintro ⟨v, hv, rfl⟩
      obtain ⟨rfl, rfl⟩ := hunique _ _ _ _ hs hv
      rfl
    · exact absurd ⟨s, w, hs⟩ hnone
  · refine ⟨fun r b => ⟨fun heq => absurd heq (hfamily r b), ?_⟩, fun _ => hnone, fun _ => rfl⟩
    rintro ⟨v, hv, -⟩
    exact absurd ⟨r, v, hv⟩ hnone

/-- **One spelling of a list or map is read, by precedence.** A root is read inline exactly where it has a record with a
value and with strict precedence over all records of its family; the value is then split. Otherwise all elements or
members are read, and nothing of the root. -/
theorem inline_iff_prevails (lookup : Text → Option Record) (names : List Text) (root : Text) :
    (∀ r items, readList lookup names root = .inline r items ↔
      ∃ v, Prevails lookup names root (IsElement root) r v ∧ items = splitList v) ∧
    (readList lookup names root = .indexed (elements root names) ↔
      ¬ ∃ r v, Prevails lookup names root (IsElement root) r v) ∧
    (∀ r entries, readMap lookup names root = .inline r entries ↔
      ∃ v, Prevails lookup names root (IsMember root) r v ∧ entries = splitMap v) ∧
    (readMap lookup names root = .keyed (keyedMembers root names) ↔
      ¬ ∃ r v, Prevails lookup names root (IsMember root) r v) := by
  obtain ⟨hlist, helements⟩ := reading_iff (fun _ _ _ _ => ListReading.inline.inj) (fun _ _ => ListReading.noConfusion)
    (fun _ _ _ _ => Prevails.unique) (readList_prevails lookup names root)
  obtain ⟨hmap, hmembers⟩ := reading_iff (fun _ _ _ _ => MapReading.inline.inj) (fun _ _ => MapReading.noConfusion)
    (fun _ _ _ _ => Prevails.unique) (readMap_prevails lookup names root)
  exact ⟨hlist, helements, hmap, hmembers⟩

/-- A member of the same source is enough to keep the inline value off, even one whose value is withheld. -/
example :
    let lookup : Text → Option Record := fun n =>
      if n = "a".toList then some (.ofSource n "x,y".toList ⟨"s".toList, 100, 1, none⟩)
      else some (Record.redacted (.ofSource n "z".toList ⟨"s".toList, 100, 1, none⟩))
    readList lookup ["a".toList, "a[0].b".toList] "a".toList = .indexed ["a[0]".toList] := by decide

end Family

end LayeredConfig
