import LayeredConfig.Chain
import LayeredConfig.Proofs.Template.Evaluation

/-!
# `LayeredConfig.Proofs.Template.Escaping` — a text is escaped so that its expansion is the text

A dollar behind a backslash is a plain dollar. A backslash in front of anything else is a character like others, another
backslash included; so only the dollars of a text need a backslash, and an escaped text has no dollar that could open a
reference.

## Contents
- **Writing.** `escaped` puts a backslash in front of every dollar.
- **Pieces.** The pieces of an escaped text are the characters of the text (`pieces_escaped`).
- **Expansion.** An escaped text expands to the text (`expand_escaped`), and a record with an escaped value is changed in
  nothing but its value (`Record.expanded_of_escaped`).
- **Values.** `Chain.escaped_read_back`.
-/

namespace LayeredConfig

namespace Template

/-! ## Writing -/

/-- A text with a backslash in front of every dollar. -/
def escaped (t : Text) : Text := t.flatMap fun c => if c = '$' then ['\\', '$'] else [c]

theorem escaped_dollar (t : Text) : escaped ('$' :: t) = '\\' :: '$' :: escaped t := rfl

theorem escaped_cons {c : Char} (hc : c ≠ '$') (t : Text) : escaped (c :: t) = c :: escaped t := by
  rw [escaped, List.flatMap_cons, if_neg hc]
  rfl

/-- An escaped text does not start with a dollar, so that a backslash in front of it escapes nothing. -/
theorem escaped_ne_dollar (t r : Text) : escaped t ≠ '$' :: r := by
  intro h
  cases t with
  | nil => cases h
  | cons c t =>
      by_cases hc : c = '$'
      · subst hc
        exact absurd (List.cons.inj h).1 (by decide)
      · rw [escaped_cons hc] at h
        exact hc (List.cons.inj h).1

/-- A text without a dollar is escaped as it is. -/
theorem escaped_of_not_mem {t : Text} (h : '$' ∉ t) : escaped t = t := by
  induction t with
  | nil => rfl
  | cons c t ih =>
      rw [escaped_cons fun hc => h (hc ▸ List.mem_cons_self), ih fun hm => h (List.mem_cons_of_mem c hm)]

theorem dollar_mem_escaped {t : Text} : '$' ∈ escaped t ↔ '$' ∈ t := by
  rw [escaped, List.mem_flatMap]
  constructor
  · rintro ⟨c, hc, hm⟩
    split at hm
    · next heq => exact heq ▸ hc
    · exact List.mem_singleton.mp hm ▸ hc
  · intro h
    exact ⟨'$', h, by decide⟩

/-! ## Pieces -/

/-- The pieces of an escaped text are the characters of the text. -/
theorem pieces_escaped (t : Text) : pieces (escaped t) = literalPieces t := by
  induction t with
  | nil =>
      show pieces [] = []
      rw [pieces]
  | cons c t ih =>
      by_cases hc : c = '$'
      · subst hc
        rw [escaped_dollar, pieces, ih]
        rfl
      · rw [escaped_cons hc, pieces, ih]
        · rfl
        · exact fun r _ h => escaped_ne_dollar t r h
        · exact fun r h _ => hc h

/-! ## Expansion -/

variable (lookup : Text → Option Record)

theorem expandPieces_literalPieces (reference : Expander) (t : Text) (s : Trace) :
    expandPieces reference (literalPieces t) s = (t, s) := by
  have h := congrFun (expandPieces_literal reference t []) s
  rw [List.append_nil] at h
  rw [h, Evaluation.andThen, Evaluation.pure, expandPieces, List.append_nil]

/-- On every level an escaped text expands to the text, and leaves the trace as it was. -/
theorem expand_escaped (levels : Nat) (t : Text) (s : Trace) : expand lookup levels (escaped t) s = (t, s) := by
  cases levels with
  | zero => rw [expand, pieces_escaped, expandPieces_literalPieces]
  | succ levels => rw [expand, pieces_escaped, expandPieces_literalPieces]

end Template

open Template

namespace Record

variable {lookup : Text → Option Record} {r : Record} {t : Text}

theorem expansion_of_escaped (h : r.value = some (escaped t)) :
    r.expansion lookup = if '$' ∈ t then some (t, .start) else none := by
  rw [expansion, h]
  dsimp only
  rw [expand_escaped]
  simp only [List.contains_iff_mem, dollar_mem_escaped]

/-- A record with an escaped value gets the text for its value, and nothing else in it changes. -/
theorem expanded_of_escaped (h : r.value = some (escaped t)) : r.expanded lookup = r.withValue (some t) := by
  rw [expanded, expansion_of_escaped h]
  by_cases ht : '$' ∈ t
  · rw [if_pos ht]
    rfl
  · -- without a dollar nothing is expanded, and the value is the text already
    rw [if_neg ht]
    rw [escaped_of_not_mem ht] at h
    show r = r.withValue (some t)
    rw [withValue, ← h]

theorem asked_of_escaped (h : r.value = some (escaped t)) : r.askedForExpansion lookup = [] := by
  rw [askedForExpansion, expansion_of_escaped h]
  by_cases ht : '$' ∈ t
  · rw [if_pos ht]
    rfl
  · rw [if_neg ht]
    rfl

end Record

/-! ## Values -/

/-- **An escaped text is read as the text.** Whatever backslashes, braces and dollars a text holds, its escaped form
expands to it on every level, with nothing asked and nothing reported. So an expression stage answers for a name whose
value inside it is the escaped text with the same record and the text as its value, and asks inward for this name only;
listed records are changed in the same way. With no stage inside it the value is that of a source. -/
theorem Chain.escaped_read_back (t : Text) :
    (∀ lookup levels s, expand lookup levels (escaped t) s = (t, s)) ∧
    ∀ (registry : Registry) (access : Access) (inner : List Stage),
      (∀ name r, lookupIn registry access inner name = some r → r.value = some (escaped t) →
        lookupIn registry access (.expression :: inner) name = some (r.withValue (some t)) ∧
          Stage.asked (lookupIn registry access inner) name .expression = [name]) ∧
      ∀ (i : Nat) r, (valuesIn registry access inner)[i]? = some r → r.value = some (escaped t) →
        (valuesIn registry access (.expression :: inner))[i]? = some (r.withValue (some t)) := by
  refine ⟨fun lookup levels s => expand_escaped lookup levels t s, fun registry access inner => ⟨?_, ?_⟩⟩
  · intro name r hr hvalue
    constructor
    · rw [lookupIn, Stage.get, hr, Option.map_some, Record.expanded_of_escaped hvalue]
    · rw [Stage.asked, hr, Option.map_some, Option.getD_some, Record.asked_of_escaped hvalue]
  · intro i r hr hvalue
    rw [valuesIn, Stage.values, List.getElem?_map, hr, Option.map_some, Record.expanded_of_escaped hvalue]

/-- A backslash in front of a dollar, a reference to a name that is defined, and a backslash at the end. -/
theorem Chain.escaped_read_back_backslashes :
    let t := "\\$\x7bb\x7d\\".toList
    let table : TableSource := .ofProperties "app".toList
      (.ofPairs [("a".toList, "\\\\$\x7bb\x7d\\".toList), ("b".toList, "1".toList)])
    let registry : Registry := ⟨[⟨.table table, 100, 0⟩]⟩
    let r : Record := .ofSource "a".toList (escaped t) ⟨"app".toList, 100, 0, none⟩
    registry.resolve "a".toList = some r ∧ registry.values[0]? = some r ∧
      (Chain.mk [.expression]).lookup registry .locked "a".toList = some (r.withValue (some t)) ∧
      ((Chain.mk [.expression]).values registry .locked)[0]? = some (r.withValue (some t)) := by
  intro t table registry r
  have hresolve : registry.resolve "a".toList = some r := by decide +kernel
  have hvalues : registry.values[0]? = some r := by decide +kernel
  obtain ⟨hlookup, hlisted⟩ := (Chain.escaped_read_back t).2 registry .locked []
  exact ⟨hresolve, hvalues, (hlookup _ r hresolve rfl).1, hlisted 0 r hvalues rfl⟩

end LayeredConfig
