import LayeredConfig.Text.Basic

/-!
# `LayeredConfig.Dict` — finite maps and sets in key order

A dictionary is the list of its entries in strictly ascending order of keys, so two dictionaries with the
same entries are equal and every listing of one is sorted. A set of names is handled the same way.

## Contents
- **`KeyOrder`.** The strict orders that keys may have.
- **Ordered insertion.** `insertEntry` and `insertName` keep a list strictly ascending.
- **`Dict`.** `get?`, `insert`, `ofPairs` (a later pair replaces) and `ofPairsFirst` (the first pair stays),
  with the read-over-write equation `get?_insert`.
- **`NameSet`.** `insert`, `ofList`, `union`, the `keySet` of a dictionary; membership of each (`mem_insert`,
  `mem_ofList`, `mem_union`).
-/

namespace LayeredConfig

/-! ## Orders of keys -/

/-- A strict order in which any two different keys can be compared. -/
class KeyOrder (κ : Type) [LT κ] : Prop where
  irrefl (a : κ) : ¬ a < a
  trans {a b c : κ} : a < b → b < c → a < c
  connected {a b : κ} : ¬ a < b → a ≠ b → b < a

instance : KeyOrder Nat where
  irrefl := Nat.lt_irrefl
  trans := Nat.lt_trans
  connected h1 h2 := Nat.lt_of_le_of_ne (Nat.not_lt.mp h1) (Ne.symm h2)

instance : KeyOrder Int where
  irrefl := Int.lt_irrefl
  trans := Int.lt_trans
  connected h1 h2 := Int.lt_iff_le_and_ne.mpr ⟨Int.not_lt.mp h1, Ne.symm h2⟩

/-- Texts are ordered by their first different character. -/
instance : KeyOrder Text where
  irrefl := List.lt_irrefl
  trans := List.lt_trans
  connected {a b} h1 h2 :=
    Classical.byContradiction fun h3 => h2 (Std.Trichotomous.trichotomous a b h1 h3)

/-! ## Ordered insertion -/

section Ordered

variable {κ α : Type} [LT κ] [DecidableLT κ] [DecidableEq κ]

/-- Puts an entry at its place in a list ascending by key, replacing one of the same key. -/
def insertEntry (k : κ) (v : α) : List (κ × α) → List (κ × α)
  | [] => [(k, v)]
  | e :: r => if k < e.1 then (k, v) :: e :: r else if k = e.1 then (k, v) :: r else e :: insertEntry k v r

/-- The value of the first entry under a key. -/
def lookupKey (k : κ) : List (κ × α) → Option α
  | [] => none
  | e :: r => if k = e.1 then some e.2 else lookupKey k r

omit [DecidableLT κ] [LT κ] in
/-- A value found stands in the list under its key. -/
theorem mem_of_lookupKey {k : κ} {v : α} {l : List (κ × α)} (h : lookupKey k l = some v) :
    (k, v) ∈ l := by
  induction l with
  | nil => simp [lookupKey] at h
  | cons a r ih =>
      by_cases h1 : k = a.1
      · simp only [lookupKey, h1, if_true, Option.some.injEq] at h
        simp [← h, h1]
      · simp only [lookupKey, h1, if_false] at h
        exact List.mem_cons_of_mem _ (ih h)

/-- The entries after an insertion are the new one and old ones. -/
theorem key_of_mem_insertEntry {k : κ} {v : α} {l : List (κ × α)} {e : κ × α}
    (h : e ∈ insertEntry k v l) : e = (k, v) ∨ e ∈ l := by
  induction l with
  | nil => simpa [insertEntry] using h
  | cons a r ih =>
      unfold insertEntry at h
      split at h
      · simpa using h
      · split at h
        · rcases List.mem_cons.mp h with h | h
          · exact Or.inl h
          · exact Or.inr (List.mem_cons_of_mem _ h)
        · rcases List.mem_cons.mp h with h | h
          · exact Or.inr (by simp [h])
          · rcases ih h with h | h
            · exact Or.inl h
            · exact Or.inr (List.mem_cons_of_mem _ h)

/-- Looking up after an insertion: the new key gives its value, any other what it gave before. -/
theorem lookupKey_insertEntry {k j : κ} {v : α} {l : List (κ × α)} :
    lookupKey j (insertEntry k v l) = if j = k then some v else lookupKey j l := by
  induction l with
  | nil => rfl
  | cons a r ih =>
      unfold insertEntry
      split
      · rfl
      · split
        · next h =>
            by_cases hj : j = k
            · simp [lookupKey, hj]
            · simp [lookupKey, hj, ← h]
        · next h =>
            by_cases hj : j = a.1
            · have hk : j ≠ k := fun e => h (e ▸ hj)
              simp only [lookupKey, hj, if_true]
              rw [if_neg (hj ▸ hk)]
            · simp [lookupKey, hj, ih]

/-- Puts a name at its place in an ascending list unless it stands there already. -/
def insertName (k : κ) : List κ → List κ
  | [] => [k]
  | e :: r => if k < e then k :: e :: r else if k = e then e :: r else e :: insertName k r

/-- The members after an insertion are the new name and the old ones. -/
theorem mem_insertName {k x : κ} {l : List κ} : x ∈ insertName k l ↔ x = k ∨ x ∈ l := by
  induction l with
  | nil => simp [insertName]
  | cons a r ih =>
      unfold insertName
      split
      · simp
      · split
        · next h => simp [h]
        · simp only [List.mem_cons, ih]
          exact ⟨fun h => by rcases h with h | h | h <;> simp [h],
            fun h => by rcases h with h | h | h <;> simp [h]⟩

variable [KeyOrder κ]

/-- Insertion keeps a list strictly ascending by key. -/
theorem ascending_insertEntry {k : κ} {v : α} {l : List (κ × α)}
    (h : l.Pairwise fun a b => a.1 < b.1) : (insertEntry k v l).Pairwise fun a b => a.1 < b.1 := by
  induction l with
  | nil => simp [insertEntry]
  | cons a r ih =>
      have ha := List.pairwise_cons.mp h
      unfold insertEntry
      split
      · next h1 =>
          refine List.pairwise_cons.mpr ⟨fun b hb => ?_, h⟩
          rcases List.mem_cons.mp hb with hb | hb
          · simpa [hb] using h1
          · exact KeyOrder.trans h1 (ha.1 b hb)
      · next h1 =>
          split
          · next h2 => exact List.pairwise_cons.mpr ⟨h2 ▸ ha.1, ha.2⟩
          · next h2 =>
              refine List.pairwise_cons.mpr ⟨fun b hb => ?_, ih ha.2⟩
              rcases key_of_mem_insertEntry hb with hb | hb
              · simpa [hb] using KeyOrder.connected h1 h2
              · exact ha.1 b hb

/-- Insertion keeps a list of names strictly ascending. -/
theorem ascending_insertName {k : κ} {l : List κ} (h : l.Pairwise (· < ·)) :
    (insertName k l).Pairwise (· < ·) := by
  induction l with
  | nil => simp [insertName]
  | cons a r ih =>
      have ha := List.pairwise_cons.mp h
      unfold insertName
      split
      · next h1 =>
          refine List.pairwise_cons.mpr ⟨fun b hb => ?_, h⟩
          rcases List.mem_cons.mp hb with hb | hb
          · simpa [hb] using h1
          · exact KeyOrder.trans h1 (ha.1 b hb)
      · next h1 =>
          split
          · exact h
          · next h2 =>
              refine List.pairwise_cons.mpr ⟨fun b hb => ?_, ih ha.2⟩
              rcases mem_insertName.mp hb with hb | hb
              · simpa [hb] using KeyOrder.connected h1 h2
              · exact ha.1 b hb

end Ordered

/-! ## Dictionaries -/

/-- A finite map: its entries in strictly ascending order of keys. -/
structure Dict (κ α : Type) [LT κ] where
  /-- The entries in order. -/
  entries : List (κ × α)
  ascending : entries.Pairwise fun a b => a.1 < b.1

namespace Dict

variable {κ α β : Type} [LT κ] [DecidableLT κ] [DecidableEq κ] [KeyOrder κ]

/-- The dictionary without entries. -/
def empty : Dict κ α := ⟨[], List.Pairwise.nil⟩

instance : EmptyCollection (Dict κ α) := ⟨empty⟩

instance : Inhabited (Dict κ α) := ⟨empty⟩

/-- The value under a key. -/
def get? (d : Dict κ α) (k : κ) : Option α := lookupKey k d.entries

/-- The keys in ascending order. -/
def keys (d : Dict κ α) : List κ := d.entries.map Prod.fst

/-- The number of entries. -/
def size (d : Dict κ α) : Nat := d.entries.length

/-- Stores a value under a key, replacing the one that stood there. -/
def insert (d : Dict κ α) (k : κ) (v : α) : Dict κ α :=
  ⟨insertEntry k v d.entries, ascending_insertEntry d.ascending⟩

/-- Stores a value under a key that has none yet. -/
def insertNew (d : Dict κ α) (k : κ) (v : α) : Dict κ α :=
  match d.get? k with
  | some _ => d
  | none => d.insert k v

/-- The dictionary of a pair list, in which a later pair replaces an earlier one of the same key. -/
def ofPairs (ps : List (κ × α)) : Dict κ α := ps.foldl (fun d p => d.insert p.1 p.2) empty

/-- The dictionary of a pair list, in which the first pair of a key stays. -/
def ofPairsFirst (ps : List (κ × α)) : Dict κ α := ps.foldl (fun d p => d.insertNew p.1 p.2) empty

/-- Applies a function to every value. -/
def mapValues (f : α → β) (d : Dict κ α) : Dict κ β :=
  ⟨d.entries.map fun e => (e.1, f e.2), by
    rw [List.pairwise_map]
    exact d.ascending⟩

omit [DecidableLT κ] [KeyOrder κ] in
@[simp] theorem get?_empty (k : κ) : (empty : Dict κ α).get? k = none := rfl

/-- Reading after a write: the key written gives its value, every other key what it gave before. -/
theorem get?_insert (d : Dict κ α) (k j : κ) (v : α) :
    (d.insert k v).get? j = if j = k then some v else d.get? j :=
  lookupKey_insertEntry

end Dict

/-! ## Sets of names -/

/-- A finite set of names: its members in strictly ascending order. -/
structure NameSet where
  /-- The members in order. -/
  toList : List Text
  ascending : toList.Pairwise (· < ·)

namespace NameSet

/-- The set without members. -/
def empty : NameSet := ⟨[], List.Pairwise.nil⟩

instance : EmptyCollection NameSet := ⟨empty⟩

instance : Inhabited NameSet := ⟨empty⟩

instance : Membership Text NameSet := ⟨fun s n => n ∈ s.toList⟩

/-- Adds a name. -/
def insert (s : NameSet) (n : Text) : NameSet :=
  ⟨insertName n s.toList, ascending_insertName s.ascending⟩

/-- Adds every name of a list. -/
def insertAll (s : NameSet) (ns : List Text) : NameSet := ns.foldl insert s

/-- The set of the names of a list. -/
def ofList (ns : List Text) : NameSet := insertAll empty ns

/-- The names of either set. -/
def union (s t : NameSet) : NameSet := insertAll s t.toList

/-- The members that satisfy a test. -/
def filter (p : Text → Bool) (s : NameSet) : NameSet :=
  ⟨s.toList.filter p, s.ascending.filter p⟩

/-- Whether a name is a member. -/
def contains (s : NameSet) (n : Text) : Bool := s.toList.contains n

theorem mem_insert {s : NameSet} {n m : Text} : m ∈ s.insert n ↔ m = n ∨ m ∈ s :=
  mem_insertName

theorem mem_insertAll {s : NameSet} {ns : List Text} {m : Text} :
    m ∈ s.insertAll ns ↔ m ∈ s ∨ m ∈ ns := by
  induction ns generalizing s with
  | nil => simp [insertAll]
  | cons n r ih =>
      have h := @ih (s.insert n)
      simp only [insertAll, List.foldl_cons] at h ⊢
      rw [h, mem_insert, List.mem_cons]
      exact ⟨fun e => by rcases e with (e | e) | e <;> simp [e],
        fun e => by rcases e with e | e | e <;> simp [e]⟩

theorem mem_ofList {ns : List Text} {m : Text} : m ∈ ofList ns ↔ m ∈ ns := by
  rw [ofList, mem_insertAll]
  exact ⟨fun e => by rcases e with e | e; exact absurd e List.not_mem_nil; exact e, Or.inr⟩

theorem mem_union {s t : NameSet} {m : Text} : m ∈ s.union t ↔ m ∈ s ∨ m ∈ t :=
  mem_insertAll

end NameSet

/-- The keys of a dictionary of names. -/
def Dict.keySet {α : Type} (d : Dict Text α) : NameSet :=
  ⟨d.keys, by
    rw [Dict.keys, List.pairwise_map]
    exact d.ascending⟩

end LayeredConfig
