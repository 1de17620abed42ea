import LayeredConfig.Proofs.Document.Value

/-!
# `LayeredConfig.Proofs.Document.Path` — names spell paths

A path leads into a value by keys of tables and indexes of lists. Its name writes the first key, every further key
behind a dot and every index in brackets; a key with a dot stands in quotes. So the path can be read from its name.

## Contents
- **Paths.** `Branch.text` writes one step, `pathName` is the name of a path that starts at a table.
- **Reading.** What lies behind a name spells the branches below it (`eq_of_flatMap_text`), and a name spells one path
  only (`pathName_inj`).
-/

namespace LayeredConfig.Document

open Text Name Family Value

/-! ## Paths -/

namespace Branch

/-- How a branch is written behind the name of the value to which it belongs. -/
def text : Branch → Text
  | key k => '.' :: quotedIfNeeded k
  | index i => itemName [] i

/-- Whether a name can spell the branch: every index, and a key that can be a segment. -/
def IsSpellable : Branch → Prop
  | key k => LayeredConfig.IsSpellable k
  | index _ => True

theorem follows_text (b : Branch) (u : Text) : Follows (b.text ++ u) := by
  cases b with
  | key k => exact follows_dot _
  | index i => exact follows_bracket _

theorem nameBelow_eq {b : Branch} (hb : b.IsSpellable) {name : Text} (hname : name ≠ []) :
    nameBelow name b = name ++ b.text := by
  cases b with
  | key k =>
      rw [nameBelow, join_eq hb.head?_spelled, stem, if_neg (by simpa using hname), List.append_assoc]
      rfl
  | index i => rw [nameBelow, itemName_eq, text, itemName_eq, List.nil_append]

/-- The branch that is written first can be told from what follows it. -/
theorem text_append_inj {b c : Branch} {u v : Text} (hb : b.IsSpellable) (hc : c.IsSpellable) (hu : Follows u)
    (hv : Follows v) (h : b.text ++ u = c.text ++ v) : b = c ∧ u = v := by
  cases b with
  | key k =>
      cases c with
      | key l =>
          have hspelled : quotedIfNeeded k ++ u = quotedIfNeeded l ++ v := (List.cons.inj h).2
          obtain ⟨rfl, hrest⟩ := hb.spelled_append_inj hc hu hv hspelled
          exact ⟨rfl, hrest⟩
      | index j => exact absurd (List.cons.inj h).1 (by decide)
  | index i =>
      cases c with
      | key l => exact absurd (List.cons.inj h).1 (by decide)
      | index j =>
          obtain ⟨rfl, hrest⟩ := itemName_append_inj h
          exact ⟨rfl, hrest⟩

end Branch

/-- The name of a path: the first key as it is spelled, and the other branches behind it. -/
def pathName : List Branch → Text
  | .key k :: path => quotedIfNeeded k ++ path.flatMap Branch.text
  | path => path.flatMap Branch.text

/-- A path into a table that a name can spell. -/
def IsTablePath (path : List Branch) : Prop :=
  ∃ k rest, path = .key k :: rest ∧ ∀ b ∈ path, b.IsSpellable

/-! ## Reading -/

theorem follows_flatMap_text (path : List Branch) : Follows (path.flatMap Branch.text) := by
  cases path with
  | nil => exact follows_nil
  | cons b path => exact b.follows_text _

/-- What lies behind a name spells the branches below it. -/
theorem eq_of_flatMap_text {p q : List Branch} (hp : ∀ b ∈ p, b.IsSpellable) (hq : ∀ b ∈ q, b.IsSpellable)
    (h : p.flatMap Branch.text = q.flatMap Branch.text) : p = q := by
  have hne (b : Branch) (path : List Branch) : (b :: path).flatMap Branch.text ≠ [] := by
    cases b with
    | key k => exact List.cons_ne_nil _ _
    | index i => exact List.cons_ne_nil _ _
  induction p generalizing q with
  | nil =>
      cases q with
      | nil => rfl
      | cons c q => exact absurd h.symm (hne c q)
  | cons b p ih =>
      cases q with
      | nil => exact absurd h (hne b p)
      | cons c q =>
          obtain ⟨rfl, hrest⟩ := Branch.text_append_inj (hp b List.mem_cons_self) (hq c List.mem_cons_self)
            (follows_flatMap_text p) (follows_flatMap_text q) h
          rw [ih (fun d hd => hp d (List.mem_cons_of_mem b hd)) (fun d hd => hq d (List.mem_cons_of_mem b hd)) hrest]

/-- A name spells one path only. -/
theorem pathName_inj {p q : List Branch} (hp : IsTablePath p) (hq : IsTablePath q) (h : pathName p = pathName q) :
    p = q := by
  obtain ⟨k, p, rfl, hp⟩ := hp
  obtain ⟨l, q, rfl, hq⟩ := hq
  have hk : IsSpellable k := hp (.key k) List.mem_cons_self
  have hl : IsSpellable l := hq (.key l) List.mem_cons_self
  obtain ⟨rfl, hrest⟩ := hk.spelled_append_inj hl (follows_flatMap_text p) (follows_flatMap_text q) h
  have hpaths : p = q := eq_of_flatMap_text (fun b hb => hp b (List.mem_cons_of_mem _ hb))
    (fun b hb => hq b (List.mem_cons_of_mem _ hb)) hrest
  rw [hpaths]

end LayeredConfig.Document
