import LayeredConfig.Expansion

/-!
# `LayeredConfig.Proofs.Template.Questions` — an expansion knows only what it asks for

An expansion looks at no name beside those that its trace records. Two look-ups that agree on these give the same text
and the same trace, whatever they answer elsewhere.

## Contents
- **References.** `expandReference_eq` takes a reference apart: its name, the question, and what `afterName` does with
  what was found.
- **Traces.** `Remembers`: what was asked stays asked.
- **Agreement.** `Agrees` compares two expanders on what the first one asks for; it goes from the bodies of references to
  the pieces of a text (`Agrees.pieces`) and from one level to the next (`Agrees.reference`), and so to whole expansions
  (`agrees_expand`) and records (`Record.expansion_congr`).
-/

namespace LayeredConfig.Template

variable {lookup lookup' : Text → Option Record} {e e' : Expander} {body : Text} {s : Trace}

/-! ## References -/

/-- The name of a reference, as it is expanded behind a trace. -/
def nameOf (e : Expander) (body : Text) (s : Trace) : Text × Trace := e (splitDefault body).1 s

/-- What a reference does once its name has been asked for. -/
def afterName (e : Expander) (body : Text) (found : Option Record) (s : Trace) : Text × Trace :=
  let carried := (found.map Record.problems).getD []
  match found.bind Record.value, (splitDefault body).2 with
  | some value, _ => e value s
  | none, some default => e default (s.report carried)
  | none, none =>
      ([], if carried.isEmpty then (s.report carried).report [.expressionNotFound body] else s.report carried)

theorem expandReference_eq (lookup : Text → Option Record) (e : Expander) (body : Text) (s : Trace) :
    expandReference lookup e body s =
      afterName e body (lookup (nameOf e body s).1) ((nameOf e body s).2.ask (nameOf e body s).1) := by
  unfold expandReference afterName nameOf
  dsimp only
  cases ((lookup (e (splitDefault body).1 s).1).bind Record.value) with
  | some value => rfl
  | none =>
      cases (splitDefault body).2 with
      | some default => rfl
      | none =>
          dsimp only
          split
          · rfl
          · rfl

/-! ## Traces -/

/-- What was asked before is still recorded behind the expander. -/
def Remembers (e : Expander) : Prop := ∀ t s, ∀ n ∈ s.asked, n ∈ (e t s).2.asked

theorem remembers_expandPieces (he : Remembers e) (ps : List Piece) (s : Trace) :
    ∀ n ∈ s.asked, n ∈ (expandPieces e ps s).2.asked := by
  induction ps generalizing s with
  | nil => exact fun n hn => hn
  | cons p ps ih =>
      intro n hn
      cases p with
      | plain t => exact ih s n hn
      | reference body => exact ih _ n (he body s n hn)

theorem remembers_afterName (he : Remembers e) (body : Text) (found : Option Record) (s : Trace) :
    ∀ n ∈ s.asked, n ∈ (afterName e body found s).2.asked := by
  intro n hn
  unfold afterName
  dsimp only
  split
  · exact he _ _ n hn
  · exact he _ _ n hn
  · split
    · exact hn
    · exact hn

/-- A reference records its name, beside all that its name asked for. -/
theorem remembers_question (he : Remembers e) (body : Text) (s : Trace) (found : Option Record) :
    (nameOf e body s).1 ∈ (afterName e body found ((nameOf e body s).2.ask (nameOf e body s).1)).2.asked ∧
      ∀ n ∈ (nameOf e body s).2.asked,
        n ∈ (afterName e body found ((nameOf e body s).2.ask (nameOf e body s).1)).2.asked := by
  constructor
  · exact remembers_afterName he body found _ _ (List.mem_append_right _ List.mem_cons_self)
  · intro n hn
    exact remembers_afterName he body found _ n (List.mem_append_left _ hn)

theorem remembers_expandReference (he : Remembers e) : Remembers (expandReference lookup e) := by
  intro body s n hn
  rw [expandReference_eq]
  exact (remembers_question he body s _).2 n (he _ s n hn)

theorem remembers_expand (lookup : Text → Option Record) (levels : Nat) : Remembers (expand lookup levels) := by
  induction levels with
  | zero =>
      intro t s
      rw [expand]
      refine remembers_expandPieces ?_ (pieces t) s
      intro body s n hn
      unfold Trace.reportDepth
      dsimp only
      split
      · exact hn
      · exact hn
  | succ levels ih =>
      intro t s
      rw [expand]
      exact remembers_expandPieces (remembers_expandReference ih) (pieces t) s

/-! ## Agreement -/

/-- The second expander does what the first does wherever the two look-ups agree on what the first asks for. -/
def Agrees (lookup lookup' : Text → Option Record) (e e' : Expander) : Prop :=
  ∀ t s, (∀ n ∈ (e t s).2.asked, lookup' n = lookup n) → e' t s = e t s

theorem Agrees.pieces (h : Agrees lookup lookup' e e') (he : Remembers e) (ps : List Piece) (s : Trace)
    (hasked : ∀ n ∈ (expandPieces e ps s).2.asked, lookup' n = lookup n) :
    expandPieces e' ps s = expandPieces e ps s := by
  induction ps generalizing s with
  | nil => rfl
  | cons p ps ih =>
      cases p with
      | plain t =>
          unfold expandPieces
          rw [ih s hasked]
      | reference body =>
          -- what the reference asks for stands in the trace of all pieces
          have hhere : e' body s = e body s :=
            h body s fun n hn => hasked n (remembers_expandPieces he ps _ n hn)
          unfold expandPieces
          dsimp only
          rw [hhere, ih _ hasked]

theorem Agrees.afterName (h : Agrees lookup lookup' e e') (body : Text) (found : Option Record) (s : Trace)
    (hasked : ∀ n ∈ (afterName e body found s).2.asked, lookup' n = lookup n) :
    afterName e' body found s = afterName e body found s := by
  unfold Template.afterName at hasked ⊢
  dsimp only at hasked ⊢
  cases hvalue : found.bind Record.value with
  | some value =>
      rw [hvalue] at hasked
      exact h _ _ hasked
  | none =>
      rw [hvalue] at hasked
      cases hdefault : (splitDefault body).2 with
      | some default =>
          rw [hdefault] at hasked
          exact h _ _ hasked
      | none => rfl

theorem Agrees.reference (h : Agrees lookup lookup' e e') (he : Remembers e) :
    Agrees lookup lookup' (expandReference lookup e) (expandReference lookup' e') := by
  intro body s hasked
  rw [expandReference_eq] at hasked
  obtain ⟨hquestion, hbefore⟩ := remembers_question he body s (lookup (nameOf e body s).1)
  have hname : nameOf e' body s = nameOf e body s := h _ s fun n hn => hasked n (hbefore n hn)
  rw [expandReference_eq, expandReference_eq, hname, hasked _ hquestion]
  exact h.afterName body _ _ hasked

/-- **An expansion knows only what it asks for.** -/
theorem agrees_expand (lookup lookup' : Text → Option Record) (levels : Nat) :
    Agrees lookup lookup' (expand lookup levels) (expand lookup' levels) := by
  induction levels with
  | zero =>
      intro t s _
      rw [expand, expand]
  | succ levels ih =>
      intro t s hasked
      have hremembers := remembers_expand lookup levels
      rw [expand] at hasked ⊢
      rw [expand]
      exact (ih.reference hremembers).pieces (remembers_expandReference hremembers) (pieces t) s hasked

end LayeredConfig.Template

namespace LayeredConfig.Record

open Template

variable {lookup lookup' : Text → Option Record} {r : Record}

theorem expansion_of_dollar {t : Text} (hr : r.value = some t) (ht : t.contains '$' = true) :
    r.expansion lookup = some (expand lookup maxLevels t .start) := by
  unfold expansion
  rw [hr]
  exact if_pos ht

theorem expansion_of_dollarless (hr : ∀ t, r.value = some t → t.contains '$' = false) : r.expansion lookup = none := by
  unfold expansion
  cases hvalue : r.value with
  | none => rfl
  | some t =>
      dsimp only
      rw [hr t hvalue]
      rfl

theorem expansion_congr (h : ∀ n ∈ r.askedForExpansion lookup, lookup' n = lookup n) :
    r.expansion lookup' = r.expansion lookup := by
  by_cases hdollar : ∃ t, r.value = some t ∧ t.contains '$' = true
  · obtain ⟨t, hr, ht⟩ := hdollar
    rw [expansion_of_dollar hr ht, expansion_of_dollar hr ht, agrees_expand lookup lookup' maxLevels t .start]
    intro n hn
    apply h
    rw [askedForExpansion, expansion_of_dollar hr ht]
    exact hn
  · have hnone : ∀ t, r.value = some t → t.contains '$' = false := by
      intro t hr
      rw [← Bool.not_eq_true]
      exact fun ht => hdollar ⟨t, hr, ht⟩
    rw [expansion_of_dollarless hnone, expansion_of_dollarless hnone]

theorem expanded_congr (h : ∀ n ∈ r.askedForExpansion lookup, lookup' n = lookup n) :
    r.expanded lookup' = r.expanded lookup := by
  unfold expanded
  rw [expansion_congr h]

end LayeredConfig.Record
