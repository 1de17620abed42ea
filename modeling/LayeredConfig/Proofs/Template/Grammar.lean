import LayeredConfig.Template

/-!
# `LayeredConfig.Proofs.Template.Grammar` — templates as trees

A template is a sequence of literals and references; the name of a reference is a template, and so is its default.
The trees of this file carry what makes a literal readable at its place, so that each of them is read back from its
text: the brace that closes a reference is found behind any nesting, and so is the colon before its default.

## Contents
- **Trees.** `Place` says which characters a literal does not hold, `Tree` is a template at a place, `Tree.text` its
  written form.
- **One reference.** `closeBrace_text` steps over a template inside a reference, `splitDefaultAt_text` over one in
  which no colon counts.
- **Pieces.** `pieces_text`: the pieces of the text are those of the tree, with the written bodies of its references.
-/

namespace LayeredConfig.Template

/-! ## Trees -/

/-- Where a literal stands: outside all references, directly in the name of one, or directly in a default. -/
inductive Place where
  | outside
  | inName
  | inDefault
  deriving DecidableEq

/-- The characters that a literal does not hold: nowhere a dollar or a backslash, inside a reference no brace, and
directly in a name no colon. -/
def Place.excluded : Place → List Char
  | outside => ['$', '\\']
  | inName => ['$', '\\', '\x7b', '\x7d', ':']
  | inDefault => ['$', '\\', '\x7b', '\x7d']

/-- A template at a place: literals and references in order. -/
inductive Tree : Place → Type where
  | nil {p : Place} : Tree p
  | literal {p : Place} (text : Text) (free : ∀ c ∈ text, c ∉ p.excluded) (rest : Tree p) : Tree p
  | reference {p : Place} (name : Tree .inName) (rest : Tree p) : Tree p
  | defaulted {p : Place} (name : Tree .inName) (fallback : Tree .inDefault) (rest : Tree p) : Tree p

/-- How the body of a reference is written, from the text of its name and that of its default. -/
def bodyText (name : Text) : Option Text → Text
  | none => name
  | some fallback => name ++ ':' :: fallback

/-- How a reference with a written body is written. -/
def referenceText (body : Text) : Text := '$' :: '\x7b' :: body ++ ['\x7d']

namespace Tree

/-- How a template is written. -/
def text {p : Place} : Tree p → Text
  | nil => []
  | literal t _ rest => t ++ rest.text
  | reference name rest => referenceText (bodyText name.text none) ++ rest.text
  | defaulted name fallback rest => referenceText (bodyText name.text (some fallback.text)) ++ rest.text

end Tree

/-! ## The end of a reference -/

/-- Puts a text in front of what a reader has taken. -/
def prepend (u : Text) (o : Option (Text × Text)) : Option (Text × Text) := o.map fun p => (u ++ p.1, p.2)

theorem prepend_nil (o : Option (Text × Text)) : prepend [] o = o := by
  cases o <;> rfl

theorem prepend_prepend (u v : Text) (o : Option (Text × Text)) : prepend u (prepend v o) = prepend (u ++ v) o := by
  cases o with
  | none => rfl
  | some p => simp [prepend]

/-- A text that the search for a closing brace steps over, however many braces are open. -/
def Balanced (u : Text) : Prop := ∀ depth r, closeBrace depth (u ++ r) = prepend u (closeBrace depth r)

theorem Balanced.append {u v : Text} (hu : Balanced u) (hv : Balanced v) : Balanced (u ++ v) := by
  intro depth r
  rw [List.append_assoc, hu, hv, prepend_prepend]

theorem balanced_nil : Balanced [] := by
  intro depth r
  rw [List.nil_append, prepend_nil]

theorem balanced_singleton {c : Char} (hb : c ≠ '\\') (ho : c ≠ '\x7b') (hc : c ≠ '\x7d') : Balanced [c] := by
  intro depth r
  -- the reader looks at the depth only once it has met a brace
  cases depth with
  | zero =>
      rw [List.singleton_append, closeBrace, if_neg ho, if_neg hc]
      · rfl
      · exact fun _ _ h _ => hb h
  | succ d =>
      rw [List.singleton_append, closeBrace, if_neg ho, if_neg hc]
      · rfl
      · exact fun _ _ h _ => hb h

theorem balanced_of_free {u : Text} (free : ∀ c ∈ u, c ≠ '\\' ∧ c ≠ '\x7b' ∧ c ≠ '\x7d') : Balanced u := by
  induction u with
  | nil => exact balanced_nil
  | cons c u ih =>
      obtain ⟨hb, ho, hc⟩ := free c List.mem_cons_self
      exact (balanced_singleton hb ho hc).append (ih fun d hd => free d (List.mem_cons_of_mem c hd))

theorem closeBrace_open (depth : Nat) (r : Text) :
    closeBrace depth ('\x7b' :: r) = prepend ['\x7b'] (closeBrace (depth + 1) r) := by
  cases depth with
  | zero => simp [closeBrace, prepend]
  | succ d => simp [closeBrace, prepend]

theorem closeBrace_close (depth : Nat) (r : Text) :
    closeBrace (depth + 1) ('\x7d' :: r) = prepend ['\x7d'] (closeBrace depth r) := by
  simp [closeBrace, prepend]

theorem closeBrace_end (r : Text) : closeBrace 0 ('\x7d' :: r) = some ([], r) := by
  simp [closeBrace]

/-- The braces of a reference are stepped over as a pair. -/
theorem Balanced.reference {body : Text} (h : Balanced body) : Balanced (referenceText body) := by
  intro depth r
  have hsplit : referenceText body ++ r = ['$'] ++ '\x7b' :: (body ++ '\x7d' :: r) := by simp [referenceText]
  have hdollar : Balanced ['$'] := balanced_singleton (by decide) (by decide) (by decide)
  -- one brace more is open inside the body, and its end closes this one
  rw [hsplit, hdollar, closeBrace_open, h, closeBrace_close, prepend_prepend, prepend_prepend, prepend_prepend]
  simp [referenceText]

theorem Balanced.body {name fallback : Text} (hn : Balanced name) (hf : Balanced fallback) :
    Balanced (bodyText name (some fallback)) := by
  have hcolon : Balanced [':'] := balanced_singleton (by decide) (by decide) (by decide)
  exact hn.append (hcolon.append hf)

/-- Inside a reference a literal holds nothing that the search for the closing brace looks at. -/
theorem Place.not_brace_of_inside {p : Place} (hp : p ≠ .outside) {c : Char} (hc : c ∉ p.excluded) :
    c ≠ '\\' ∧ c ≠ '\x7b' ∧ c ≠ '\x7d' := by
  cases p with
  | outside => exact absurd rfl hp
  | inName =>
      simp only [excluded, List.mem_cons, not_or] at hc
      exact ⟨hc.2.1, hc.2.2.1, hc.2.2.2.1⟩
  | inDefault =>
      simp only [excluded, List.mem_cons, not_or] at hc
      exact ⟨hc.2.1, hc.2.2.1, hc.2.2.2.1⟩

/-- A template inside a reference is stepped over as a whole. -/
theorem Tree.balanced_text {p : Place} (hp : p ≠ .outside) (t : Tree p) : Balanced t.text := by
  induction t with
  | nil => exact balanced_nil
  | literal t free rest ih =>
      exact (balanced_of_free fun c hc => Place.not_brace_of_inside hp (free c hc)).append (ih hp)
  | reference name rest ihname ihrest => exact (ihname (by decide)).reference.append (ihrest hp)
  | defaulted name fallback rest ihname ihfallback ihrest =>
      exact ((ihname (by decide)).body (ihfallback (by decide))).reference.append (ihrest hp)

/-- The brace that closes a reference is the one behind its body. -/
theorem closeBrace_of_balanced {body : Text} (h : Balanced body) (r : Text) :
    closeBrace 0 (body ++ '\x7d' :: r) = some (body, r) := by
  rw [h, closeBrace_end, prepend, Option.map_some, List.append_nil]

/-! ## The default of a reference -/

/-- A text in which no colon counts when it is read inside `depth` open braces. -/
def Colonless (depth : Nat) (u : Text) : Prop :=
  ∀ r, splitDefaultAt depth (u ++ r) = (u ++ (splitDefaultAt depth r).1, (splitDefaultAt depth r).2)

theorem Colonless.append {depth : Nat} {u v : Text} (hu : Colonless depth u) (hv : Colonless depth v) :
    Colonless depth (u ++ v) := by
  intro r
  rw [List.append_assoc, hu, hv, List.append_assoc]

theorem colonless_nil (depth : Nat) : Colonless depth [] := fun _ => rfl

theorem colonless_singleton {depth : Nat} {c : Char} (ho : c ≠ '\x7b') (hc : c ≠ '\x7d') (hcolon : c = ':' → depth ≠ 0) :
    Colonless depth [c] := by
  intro r
  have hstep : ¬ (c = ':' ∧ depth = 0) := fun h => hcolon h.1 h.2
  rw [List.singleton_append, splitDefaultAt, if_neg hstep, if_neg ho, if_neg hc]
  rfl

theorem colonless_of_free {depth : Nat} {u : Text}
    (free : ∀ c ∈ u, c ≠ '\x7b' ∧ c ≠ '\x7d' ∧ (c = ':' → depth ≠ 0)) : Colonless depth u := by
  induction u with
  | nil => exact colonless_nil depth
  | cons c u ih =>
      obtain ⟨ho, hc, hcolon⟩ := free c List.mem_cons_self
      exact (colonless_singleton ho hc hcolon).append (ih fun d hd => free d (List.mem_cons_of_mem c hd))

/-- The colons of a reference stand inside its braces. -/
theorem Colonless.reference {depth : Nat} {body : Text} (h : Colonless (depth + 1) body) :
    Colonless depth (referenceText body) := by
  intro r
  have hsplit : referenceText body ++ r = ['$'] ++ '\x7b' :: (body ++ '\x7d' :: r) := by simp [referenceText]
  have hdollar : Colonless depth ['$'] := colonless_singleton (by decide) (by decide) fun e => absurd e (by decide)
  have hopen (u : Text) : splitDefaultAt depth ('\x7b' :: u) =
      ('\x7b' :: (splitDefaultAt (depth + 1) u).1, (splitDefaultAt (depth + 1) u).2) := by
    simp [splitDefaultAt]
  have hclose (u : Text) : splitDefaultAt (depth + 1) ('\x7d' :: u) =
      ('\x7d' :: (splitDefaultAt depth u).1, (splitDefaultAt depth u).2) := by
    simp [splitDefaultAt]
  rw [hsplit, hdollar, hopen, h, hclose]
  simp [referenceText]

theorem Colonless.body {depth : Nat} (hdepth : depth ≠ 0) {name fallback : Text} (hn : Colonless depth name)
    (hf : Colonless depth fallback) : Colonless depth (bodyText name (some fallback)) := by
  have hcolon : Colonless depth [':'] := colonless_singleton (by decide) (by decide) fun _ => hdepth
  exact hn.append (hcolon.append hf)

/-- In a name no colon counts, and inside further braces none counts anywhere. -/
theorem Tree.colonless_text {p : Place} (hp : p ≠ .outside) (t : Tree p) {depth : Nat}
    (hdepth : p = .inName ∨ depth ≠ 0) : Colonless depth t.text := by
  induction t generalizing depth with
  | nil => exact colonless_nil depth
  | @literal q t free rest ih =>
      refine (colonless_of_free fun c hc => ?_).append (ih hp hdepth)
      obtain ⟨-, ho, hcl⟩ := Place.not_brace_of_inside hp (free c hc)
      refine ⟨ho, hcl, fun hcolon => ?_⟩
      -- in a name the literal holds no colon, elsewhere a brace is open around it
      rcases hdepth with rfl | hdepth
      · exact absurd (free c hc) (by simp [Place.excluded, hcolon])
      · exact hdepth
  | reference name rest ihname ihrest =>
      exact (ihname (by decide) (Or.inl rfl)).reference.append (ihrest hp hdepth)
  | defaulted name fallback rest ihname ihfallback ihrest =>
      have hinside := Nat.succ_ne_zero depth
      exact ((ihname (by decide) (Or.inl rfl)).body hinside
        (ihfallback (by decide) (Or.inr hinside))).reference.append (ihrest hp hdepth)

/-- The body of a reference is cut behind its name. -/
theorem splitDefault_bodyText {name : Text} (h : Colonless 0 name) (fallback : Option Text) :
    splitDefault (bodyText name fallback) = (name, fallback) := by
  cases fallback with
  | none =>
      have hname := h []
      rw [List.append_nil, splitDefaultAt, List.append_nil] at hname
      exact hname
  | some f =>
      have hcut : splitDefaultAt 0 (':' :: f) = ([], some f) := by simp [splitDefaultAt]
      rw [splitDefault, bodyText, h, hcut, List.append_nil]

/-! ## Pieces -/

/-- The pieces of a literal: one for each character. -/
def literalPieces (t : Text) : List Piece := t.map fun c => .plain [c]

/-- The pieces of a template. -/
def Tree.pieces {p : Place} : Tree p → List Piece
  | nil => []
  | literal t _ rest => literalPieces t ++ rest.pieces
  | reference name rest => .reference (bodyText name.text none) :: rest.pieces
  | defaulted name fallback rest => .reference (bodyText name.text (some fallback.text)) :: rest.pieces

theorem pieces_literal {t : Text} (free : ∀ c ∈ t, c ≠ '$' ∧ c ≠ '\\') (r : Text) :
    pieces (t ++ r) = literalPieces t ++ pieces r := by
  induction t with
  | nil => rfl
  | cons c t ih =>
      obtain ⟨hd, hb⟩ := free c List.mem_cons_self
      rw [List.cons_append, pieces, ih fun d hd => free d (List.mem_cons_of_mem c hd)]
      · rfl
      · exact fun _ h _ => hb h
      · exact fun _ h _ => hd h

theorem pieces_reference {body : Text} (h : Balanced body) (r : Text) :
    pieces (referenceText body ++ r) = .reference body :: pieces r := by
  have hsplit : referenceText body ++ r = '$' :: '\x7b' :: (body ++ '\x7d' :: r) := by simp [referenceText]
  have hclose := closeBrace_of_balanced h r
  rw [hsplit, pieces]
  split
  · next body' rest' h' =>
      rw [hclose, Option.some.injEq, Prod.mk.injEq] at h'
      obtain ⟨rfl, rfl⟩ := h'
      rfl
  · next h' =>
      rw [hclose] at h'
      cases h'

theorem Place.not_dollar {p : Place} {c : Char} (hc : c ∉ p.excluded) : c ≠ '$' ∧ c ≠ '\\' := by
  cases p <;> simp_all [excluded]

/-- The pieces of a written template are its literals and its references. -/
theorem Tree.pieces_text {p : Place} (t : Tree p) : Template.pieces t.text = t.pieces := by
  induction t with
  | nil => rw [text, Template.pieces, pieces]
  | literal t free rest ih =>
      rw [text, pieces_literal fun c hc => Place.not_dollar (free c hc), ih, pieces]
  | reference name rest _ ihrest =>
      have hbody : Balanced (bodyText name.text none) := name.balanced_text (by decide)
      rw [text, pieces_reference hbody, ihrest, pieces]
  | defaulted name fallback rest _ _ ihrest =>
      have hbody := (name.balanced_text (by decide)).body (fallback.balanced_text (by decide))
      rw [text, pieces_reference hbody, ihrest, pieces]

/-- A name with a reference of its own, and a default with a colon and a reference. -/
example :
    let env : Tree .inName := .literal "env".toList (by decide) .nil
    let name : Tree .inName := .literal "db.".toList (by decide) (.defaulted env (.literal "dev".toList (by decide) .nil) .nil)
    let fallback : Tree .inDefault := .literal "pg://".toList (by decide) (.reference (.literal "host".toList (by decide) .nil) .nil)
    let t : Tree .outside := .defaulted name fallback .nil
    t.text = "$\x7bdb.$\x7benv:dev\x7d:pg://$\x7bhost\x7d\x7d".toList ∧
      t.pieces = [.reference "db.$\x7benv:dev\x7d:pg://$\x7bhost\x7d".toList] := by
  decide

end LayeredConfig.Template
