import LayeredConfig.Expansion
import LayeredConfig.Proofs.Template.Grammar

/-!
# `LayeredConfig.Proofs.Template.Evaluation` — a template is expanded by its structure

The expander knows nothing of templates: it scans a text, counts braces and looks for a colon. On the text of a
template it does what the recursive evaluation of the template says, with the same text and the same trace, so that
problems are met and names are asked for in the same order.

## Contents
- **Evaluation.** `Evaluation` is a step that contributes a text and leaves a trace; `evalReference` says what one
  reference does at a depth, `Tree.eval` is the recursion over the template.
- **Depth.** `expandAt` expands at a depth of nesting; `expandAt_eq` takes it apart into pieces and references.
- **Agreement.** `referenceAt_eq` for one reference, `expandAt_text` for whole templates.
-/

namespace LayeredConfig.Template

/-! ## Evaluation -/

/-- A step of an evaluation: the text that it contributes and the trace that it leaves. -/
abbrev Evaluation := Trace → Text × Trace

namespace Evaluation

/-- Contributes a text and leaves the trace as it is. -/
def pure (t : Text) : Evaluation := fun s => (t, s)

/-- One step behind another. -/
def andThen (f g : Evaluation) : Evaluation := fun s => ((f s).1 ++ (g (f s).2).1, (g (f s).2).2)

end Evaluation

section

variable (lookup : Text → Option Record)

/-- Expands a text at a depth of nesting. -/
def expandAt (depth : Nat) : Expander := expand lookup (maxLevels - depth)

/-- The problems of a record without value that are carried over; none when there is no record. -/
def carried (found : Option Record) : List Problem := (found.map Record.problems).getD []

/-- What a reference does at a depth, given its written body and what its name and its default do one level deeper.
Below the last level it contributes nothing and reports the depth. Otherwise the name is evaluated and asked for: its
value is expanded one level deeper; without a value the problems that were found are carried over, and the default is
evaluated, or, where neither is there, the reference is reported by its body. -/
def evalReference (depth : Nat) (body : Text) (name : Evaluation) (fallback : Option Evaluation) : Evaluation := fun s =>
  if maxLevels ≤ depth then ([], s.reportDepth)
  else
    let asked := (name s).2.ask (name s).1
    let found := lookup (name s).1
    match found.bind Record.value, fallback with
    | some value, _ => expandAt lookup (depth + 1) value asked
    | none, some evaluation => evaluation (asked.report (carried found))
    | none, none =>
        ([], asked.report (if carried found = [] then [.expressionNotFound body] else carried found))

/-- The evaluation of a template at a depth: a literal stands for itself, and what is in a reference is evaluated one
level deeper. -/
def Tree.eval {p : Place} : Tree p → Nat → Evaluation
  | nil, _ => Evaluation.pure []
  | literal t _ rest, depth => (Evaluation.pure t).andThen (rest.eval depth)
  | reference name rest, depth =>
      (evalReference lookup depth (bodyText name.text none) (name.eval (depth + 1)) none).andThen (rest.eval depth)
  | defaulted name fallback rest, depth =>
      (evalReference lookup depth (bodyText name.text (some fallback.text)) (name.eval (depth + 1))
        (some (fallback.eval (depth + 1)))).andThen (rest.eval depth)

/-! ## Depth -/

/-- How the body of a reference is expanded at a depth. -/
def referenceAt (depth : Nat) : Expander :=
  if maxLevels ≤ depth then fun _ s => ([], s.reportDepth)
  else expandReference lookup (expandAt lookup (depth + 1))

/-- At every depth a text is expanded piece by piece. -/
theorem expandAt_eq (depth : Nat) (t : Text) (s : Trace) :
    expandAt lookup depth t s = expandPieces (referenceAt lookup depth) (pieces t) s := by
  unfold expandAt referenceAt
  by_cases h : maxLevels ≤ depth
  · rw [if_pos h, Nat.sub_eq_zero_of_le h, expand]
  · have hlevels : maxLevels - depth = maxLevels - (depth + 1) + 1 := by omega
    rw [if_neg h, hlevels, expand]
    rfl

theorem expandPieces_literal (reference : Expander) (t : Text) (ps : List Piece) :
    expandPieces reference (literalPieces t ++ ps) = (Evaluation.pure t).andThen (expandPieces reference ps) := by
  funext s
  induction t with
  | nil => rfl
  | cons c t ih =>
      have hstep : expandPieces reference (literalPieces (c :: t) ++ ps) s =
          (c :: (expandPieces reference (literalPieces t ++ ps) s).1,
            (expandPieces reference (literalPieces t ++ ps) s).2) := rfl
      rw [hstep, ih]
      rfl

theorem expandPieces_reference (reference : Expander) (body : Text) (ps : List Piece) :
    expandPieces reference (.reference body :: ps) =
      Evaluation.andThen (reference body) (expandPieces reference ps) := rfl

/-! ## Agreement -/

theorem report_nil (s : Trace) : s.report [] = s := by
  simp [Trace.report]

/-- A reference whose body is cut into a name and a default does what `evalReference` says. -/
theorem referenceAt_eq {body name : Text} {fallback : Option Text} (h : splitDefault body = (name, fallback))
    (depth : Nat) :
    referenceAt lookup depth body =
      evalReference lookup depth body (expandAt lookup (depth + 1) name)
        (fallback.map (expandAt lookup (depth + 1))) := by
  funext s
  unfold referenceAt evalReference
  by_cases hdepth : maxLevels ≤ depth
  · rw [if_pos hdepth, if_pos hdepth]
  · rw [if_neg hdepth, if_neg hdepth, expandReference, h]
    dsimp only
    generalize expandAt lookup (depth + 1) name s = n
    cases hvalue : (lookup n.1).bind Record.value with
    | some value => rfl
    | none =>
        cases fallback with
        | some f => rfl
        | none =>
            -- with no problem carried over, only the reference itself is reported
            by_cases hcarried : carried (lookup n.1) = []
            · have hempty : ((lookup n.1).map Record.problems).getD [] = [] := hcarried
              simp only [hempty, hcarried, List.isEmpty_nil, if_true, report_nil, Option.map_none]
            · have hne : (((lookup n.1).map Record.problems).getD []).isEmpty = false := by
                rw [List.isEmpty_eq_false_iff]
                exact hcarried
              simp only [hne, hcarried, if_false, Bool.false_eq_true, Option.map_none]
              rfl

theorem expandAt_text_eq {p : Place} (t : Tree p) (depth : Nat) :
    expandAt lookup depth t.text = expandPieces (referenceAt lookup depth) t.pieces := by
  funext s
  rw [expandAt_eq, Tree.pieces_text]

/-- Piece by piece the expansion follows the template: the name and the default of a reference are templates
themselves, expanded one level deeper. -/
theorem expandPieces_pieces {p : Place} (t : Tree p) (depth : Nat) :
    expandPieces (referenceAt lookup depth) t.pieces = t.eval lookup depth := by
  induction t generalizing depth with
  | nil => rfl
  | literal t free rest ih => rw [Tree.pieces, expandPieces_literal, ih, Tree.eval]
  | reference name rest ihname ihrest =>
      -- the name is the whole body: no colon in it counts
      have hcut := splitDefault_bodyText (name.colonless_text (by decide) (Or.inl rfl)) none
      rw [Tree.pieces, expandPieces_reference, ihrest, referenceAt_eq lookup hcut, expandAt_text_eq, ihname, Tree.eval]
      rfl
  | defaulted name fallback rest ihname ihfallback ihrest =>
      have hcut := splitDefault_bodyText (name.colonless_text (by decide) (Or.inl rfl)) (some fallback.text)
      rw [Tree.pieces, expandPieces_reference, ihrest, referenceAt_eq lookup hcut, expandAt_text_eq, ihname,
        Option.map_some, expandAt_text_eq, ihfallback, Tree.eval]

/-- **A template is expanded by its structure.** At every depth and from every trace, expanding the text of a template
contributes the text of its evaluation and leaves the same trace. -/
theorem expandAt_text {p : Place} (t : Tree p) (depth : Nat) (s : Trace) :
    expandAt lookup depth t.text s = t.eval lookup depth s := by
  rw [expandAt_text_eq, expandPieces_pieces]

end

end LayeredConfig.Template
