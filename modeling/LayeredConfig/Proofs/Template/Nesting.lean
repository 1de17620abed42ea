import LayeredConfig.Proofs.Chain.Attempt
import LayeredConfig.Proofs.Pipeline.Plain
import LayeredConfig.Proofs.Template.Evaluation

/-!
# `LayeredConfig.Proofs.Template.Nesting` — how far references are followed

Where every value is a sequence of literals and of references to plain names, a name refers to the names that its value
mentions. These references may branch and run in circles. An expansion follows them for a fixed number of levels, and
what it reports is told by the chains of references alone: one that is longer than the levels, or one that ends in a name
without value before they are used up. Where there is no such chain, the expansion is the complete substitution.

## Contents
- **Values.** `Simple` values, and what such a value `Mentions`.
- **Chains.** `Refers` is one reference, `LeadsTo` a chain of them; `Resolves` is the complete substitution, of which
  there is at most one (`Resolves.unique`).
- **Names, problems.** `Reaches` says which names a value asks for on so many levels, and `Arises` which problems it meets,
  both by chains alone.
- **Steps.** `Meets` says what a step of an expansion asks for, reports and contributes: a value what its references do
  (`meets_of_references`), these by their names (`meets_deepest`, `meets_undefined`, `meets_defined`), and so a value at
  every depth (`meets_expandAt`).
- **Look-ups.** Where they break off (`Chain.stops_expression_iff`) and what they answer
  (`Chain.expansion_by_references`).
-/

namespace LayeredConfig.Template

/-! ## Values -/

/-- A name without a reference, a brace or a default in it. -/
def IsPlainName (m : Text) : Prop := ∀ c ∈ m, c ∉ Place.inName.excluded

instance (m : Text) : Decidable (IsPlainName m) := inferInstanceAs (Decidable (∀ c ∈ m, c ∉ Place.inName.excluded))

/-- A sequence of literals and of references to plain names. -/
inductive Simple : Text → Prop where
  | nil : Simple []
  | literal {c : Char} {t : Text} (hc : c ∉ Place.outside.excluded) (ht : Simple t) : Simple (c :: t)
  | reference {m t : Text} (hm : IsPlainName m) (ht : Simple t) : Simple (referenceText m ++ t)

/-- A reference to a plain name stands in the value. -/
def Mentions (t m : Text) : Prop := IsPlainName m ∧ referenceText m <:+: t

theorem IsPlainName.not_mem {m : Text} (hm : IsPlainName m) : '$' ∉ m ∧ '\x7d' ∉ m := by
  constructor
  · intro h
    exact hm _ h (by decide)
  · intro h
    exact hm _ h (by decide)

theorem referenceText_append (m t : Text) : referenceText m ++ t = '$' :: '\x7b' :: (m ++ '\x7d' :: t) := by
  simp [referenceText]

/-- A backslash stands nowhere in a simple value. -/
theorem Simple.not_backslash {t : Text} (ht : Simple t) : ∀ c ∈ t, c ≠ '\\' := by
  induction ht with
  | nil => simp
  | literal hc _ ih => exact List.forall_mem_cons.mpr ⟨(Place.not_dollar hc).2, ih⟩
  | @reference m t hm _ ih =>
      rw [referenceText_append]
      intro c hc
      simp only [List.mem_cons, List.mem_append] at hc
      rcases hc with rfl | rfl | hc | rfl | hc
      · decide
      · decide
      · exact (Place.not_dollar (hm c hc)).2
      · decide
      · exact ih c hc

/-- The first brace behind a reference to a plain name is its end. -/
theorem referenceText_append_inj {m k t u : Text} (hm : IsPlainName m) (hk : IsPlainName k)
    (h : referenceText m ++ t = referenceText k ++ u) : m = k ∧ t = u := by
  rw [referenceText_append, referenceText_append, List.cons.injEq, List.cons.injEq] at h
  have hcut : Text.cut '\x7d' (m ++ '\x7d' :: t) = Text.cut '\x7d' (k ++ '\x7d' :: u) := congrArg _ h.2.2
  rw [Text.cut_append hm.not_mem.2, Text.cut_append hk.not_mem.2, Option.some.injEq, Prod.mk.injEq] at hcut
  exact hcut

theorem not_exists_mentions_nil (Q : Text → Prop) : ¬ ∃ m, Mentions [] m ∧ Q m := by
  rintro ⟨m, ⟨-, h⟩, -⟩
  exact List.cons_ne_nil _ _ (List.infix_nil.mp h)

theorem mentions_cons {c : Char} (hc : c ≠ '$') {t m : Text} : Mentions (c :: t) m ↔ Mentions t m := by
  refine and_congr_right fun _ => ?_
  rw [List.infix_cons_iff, or_iff_right]
  intro hprefix
  exact hc (List.cons_prefix_cons.mp hprefix).1.symm

theorem mentions_append {u : Text} (hu : '$' ∉ u) {t m : Text} : Mentions (u ++ t) m ↔ Mentions t m := by
  induction u with
  | nil => rfl
  | cons c u ih =>
      rw [List.mem_cons, not_or] at hu
      rw [List.cons_append, mentions_cons (Ne.symm hu.1), ih hu.2]

/-- A value mentions the name of its first reference and what it mentions behind it. -/
theorem mentions_reference {m : Text} (hm : IsPlainName m) {t k : Text} :
    Mentions (referenceText m ++ t) k ↔ k = m ∨ Mentions t k := by
  -- behind its dollar the reference holds no other one
  have hbody : Mentions ('\x7b' :: (m ++ '\x7d' :: t)) k ↔ Mentions t k := by
    rw [mentions_cons (by decide), mentions_append hm.not_mem.1, mentions_cons (by decide)]
  constructor
  · rintro ⟨hk, h⟩
    rw [referenceText_append, List.infix_cons_iff] at h
    rcases h with ⟨r, hr⟩ | h
    · rw [← referenceText_append] at hr
      exact Or.inl (referenceText_append_inj hk hm hr).1
    · exact Or.inr (hbody.mp ⟨hk, h⟩)
  · rintro (rfl | h)
    · exact ⟨hm, List.infix_append' [] _ t⟩
    · obtain ⟨hk, hinfix⟩ := hbody.mpr h
      rw [referenceText_append]
      exact ⟨hk, List.infix_cons hinfix⟩

theorem exists_mentions_cons {c : Char} (hc : c ≠ '$') {t : Text} (Q : Text → Prop) :
    (∃ m, Mentions (c :: t) m ∧ Q m) ↔ ∃ m, Mentions t m ∧ Q m :=
  exists_congr fun _ => and_congr_left fun _ => mentions_cons hc

theorem exists_mentions_reference {m : Text} (hm : IsPlainName m) {t : Text} (Q : Text → Prop) :
    (∃ k, Mentions (referenceText m ++ t) k ∧ Q k) ↔ Q m ∨ ∃ k, Mentions t k ∧ Q k := by
  simp only [mentions_reference hm, or_and_right, exists_or, exists_eq_left]

section

variable (lookup : Text → Option Record)

/-! ## Chains -/

/-- A name refers to another one when its value mentions it. -/
def Refers (x m : Text) : Prop := ∃ r t, lookup x = some r ∧ r.value = some t ∧ Mentions t m

/-- A chain of so many references leads from one name to another. -/
def LeadsTo : Nat → Text → Text → Prop
  | 0, x, y => x = y
  | k + 1, x, y => ∃ m, Refers lookup x m ∧ LeadsTo k m y

/-- The complete substitution of a value: every reference is replaced by the complete substitution of the value of its
name, and nothing else is changed. -/
inductive Resolves : Text → Text → Prop where
  | nil : Resolves [] []
  | literal {c : Char} {t u : Text} (hc : c ≠ '$') (ht : Resolves t u) : Resolves (c :: t) (c :: u)
  | reference {m v w t u : Text} {r : Record} (hm : IsPlainName m) (hr : lookup m = some r) (hv : r.value = some v)
      (hw : Resolves v w) (ht : Resolves t u) : Resolves (referenceText m ++ t) (w ++ u)

variable {lookup}

theorem Resolves.eq_nil {u : Text} (h : Resolves lookup [] u) : u = [] := by
  generalize hx : ([] : Text) = x at h
  cases h with
  | nil => rfl
  | literal hc ht => cases hx
  | reference hm hr hv hw ht => cases hx

theorem Resolves.exists_cons {c : Char} (hc : c ≠ '$') {t w : Text} (h : Resolves lookup (c :: t) w) :
    ∃ u, w = c :: u ∧ Resolves lookup t u := by
  generalize hx : c :: t = x at h
  cases h with
  | nil => cases hx
  | literal hd ht =>
      obtain ⟨rfl, rfl⟩ := List.cons.inj hx
      exact ⟨_, rfl, ht⟩
  | reference hm hr hv hw ht => exact absurd (List.cons.inj hx).1 hc

theorem Resolves.exists_append {m : Text} (hm : IsPlainName m) {t w : Text}
    (h : Resolves lookup (referenceText m ++ t) w) : ∃ r v w' u, lookup m = some r ∧ r.value = some v ∧
      Resolves lookup v w' ∧ Resolves lookup t u ∧ w = w' ++ u := by
  generalize hx : referenceText m ++ t = x at h
  cases h with
  | nil => cases hx
  | literal hc ht => exact absurd (List.cons.inj hx).1.symm hc
  | reference hk hr hv hw ht =>
      obtain ⟨rfl, rfl⟩ := referenceText_append_inj hm hk hx
      exact ⟨_, _, _, _, hr, hv, hw, ht, rfl⟩

/-- A value has at most one complete substitution. -/
theorem Resolves.unique {t u : Text} (h : Resolves lookup t u) : ∀ w, Resolves lookup t w → w = u := by
  induction h with
  | nil => exact fun w hw => hw.eq_nil
  | literal hc _ ih =>
      intro w hw
      obtain ⟨u, rfl, hu⟩ := hw.exists_cons hc
      rw [ih u hu]
  | reference hm hr hv _ _ ihvalue ihrest =>
      intro w hw
      obtain ⟨r', v', w', u', hr', hv', hw', hu', rfl⟩ := hw.exists_append hm
      rw [hr, Option.some.injEq] at hr'
      subst hr'
      rw [hv, Option.some.injEq] at hv'
      subst hv'
      rw [ihvalue w' hw', ihrest u' hu']

/-! ## Names -/

variable (lookup)

/-- The names that a reference asks for with so many levels left: those to which a shorter chain leads. -/
def ReachedAt (levels : Nat) (m y : Text) : Prop := ∃ k, k < levels ∧ LeadsTo lookup k m y

/-- The names that a value asks for: those that the references in it ask for. -/
def Reaches (levels : Nat) (t y : Text) : Prop := ∃ m, Mentions t m ∧ ReachedAt lookup levels m y

variable {lookup}

theorem refers_iff {m t : Text} {r : Record} (hr : lookup m = some r) (ht : r.value = some t) (k : Text) :
    Refers lookup m k ↔ Mentions t k := by
  constructor
  · rintro ⟨r', t', hr', ht', hk⟩
    rw [hr, Option.some.injEq] at hr'
    rw [← hr', ht, Option.some.injEq] at ht'
    exact ht' ▸ hk
  · exact fun hk => ⟨r, t, hr, ht, hk⟩

/-- No chain goes on behind a name without value. -/
theorem not_leadsTo_of_undefined {m : Text} (hm : lookup m = none) (k : Nat) (y : Text) : ¬ LeadsTo lookup (k + 1) m y := by
  rintro ⟨-, ⟨r, t, hr, -⟩, -⟩
  rw [hm] at hr
  cases hr

theorem not_reachedAt_zero (m y : Text) : ¬ ReachedAt lookup 0 m y := by
  rintro ⟨k, hk, -⟩
  omega

theorem reachedAt_undefined {m : Text} (hm : lookup m = none) {levels : Nat} {y : Text} :
    ReachedAt lookup (levels + 1) m y ↔ y = m := by
  constructor
  · rintro ⟨k, -, hk⟩
    cases k with
    | zero => exact (show m = y from hk).symm
    | succ k => exact absurd hk (not_leadsTo_of_undefined hm k y)
  · rintro rfl
    exact ⟨0, Nat.succ_pos levels, rfl⟩

/-- A name with a value is asked for, and then what its value asks for, on one level less. -/
theorem reachedAt_defined {m t : Text} {r : Record} (hr : lookup m = some r) (ht : r.value = some t) {levels : Nat}
    {y : Text} : ReachedAt lookup (levels + 1) m y ↔ y = m ∨ Reaches lookup levels t y := by
  constructor
  · rintro ⟨k, hk, hchain⟩
    cases k with
    | zero => exact Or.inl (show m = y from hchain).symm
    | succ k =>
        obtain ⟨x, hx, hrest⟩ := hchain
        exact Or.inr ⟨x, (refers_iff hr ht x).mp hx, k, Nat.lt_of_succ_lt_succ hk, hrest⟩
  · rintro (rfl | ⟨x, hx, k, hk, hrest⟩)
    · exact ⟨0, Nat.succ_pos levels, rfl⟩
    · exact ⟨k + 1, Nat.succ_lt_succ hk, x, (refers_iff hr ht x).mpr hx, hrest⟩

/-! ## Problems -/

variable (lookup)

/-- The problems that a reference meets with so many levels left: the depth, when a chain goes on for all of them, and a
name without value that it asks for. -/
def ArisesAt (levels : Nat) (m : Text) : Problem → Prop
  | .expressionTooDeep => ∃ y, LeadsTo lookup levels m y
  | .expressionNotFound y => lookup y = none ∧ ReachedAt lookup levels m y
  | .secretAccessDenied => False

/-- The problems that a value meets: those of the names that it mentions. -/
def Arises (levels : Nat) (t : Text) (p : Problem) : Prop := ∃ m, Mentions t m ∧ ArisesAt lookup levels m p

variable {lookup}

theorem arisesAt_zero {m : Text} {p : Problem} : ArisesAt lookup 0 m p ↔ p = .expressionTooDeep := by
  cases p with
  | expressionTooDeep => exact iff_of_true ⟨m, rfl⟩ rfl
  | expressionNotFound y => simp [ArisesAt, not_reachedAt_zero]
  | secretAccessDenied => simp [ArisesAt]

theorem arisesAt_undefined {m : Text} (hm : lookup m = none) {levels : Nat} {p : Problem} :
    ArisesAt lookup (levels + 1) m p ↔ p = .expressionNotFound m := by
  cases p with
  | expressionTooDeep =>
      refine iff_of_false ?_ (by simp)
      rintro ⟨y, hy⟩
      exact not_leadsTo_of_undefined hm levels y hy
  | expressionNotFound y =>
      rw [ArisesAt, reachedAt_undefined hm, Problem.expressionNotFound.injEq]
      refine and_iff_right_of_imp ?_
      rintro rfl
      exact hm
  | secretAccessDenied => simp [ArisesAt]

/-- Behind a name with a value the chains go on through what the value mentions, on one level less. -/
theorem arisesAt_defined {m t : Text} {r : Record} (hr : lookup m = some r) (ht : r.value = some t) {levels : Nat}
    {p : Problem} : ArisesAt lookup (levels + 1) m p ↔ Arises lookup levels t p := by
  cases p with
  | expressionTooDeep =>
      constructor
      · rintro ⟨y, k, hk, hy⟩
        exact ⟨k, (refers_iff hr ht k).mp hk, y, hy⟩
      · rintro ⟨k, hk, y, hy⟩
        exact ⟨y, k, (refers_iff hr ht k).mpr hk, hy⟩
  | expressionNotFound y =>
      rw [ArisesAt, reachedAt_defined hr ht]
      constructor
      · rintro ⟨hy, rfl | ⟨k, hk, hreached⟩⟩
        · rw [hy] at hr
          cases hr
        · exact ⟨k, hk, hy, hreached⟩
      · rintro ⟨k, hk, hy, hreached⟩
        exact ⟨hy, Or.inr ⟨k, hk, hreached⟩⟩
  | secretAccessDenied =>
      refine iff_of_false id ?_
      rintro ⟨k, -, hk⟩
      exact hk

/-! ## Steps -/

/-- A step of an expansion asks for the given names and adds the given problems to those that were met before, the depth
at most once; where there is none, what it contributes has the given property. -/
structure Meets (e : Evaluation) (A : Text → Prop) (P : Problem → Prop) (R : Text → Prop) : Prop where
  asked_iff : ∀ s n, n ∈ (e s).2.asked ↔ n ∈ s.asked ∨ A n
  mem_iff : ∀ s p, p ∈ (e s).2.problems ↔ p ∈ s.problems ∨ P p
  once : ∀ s, s.problems.count .expressionTooDeep ≤ 1 → (e s).2.problems.count .expressionTooDeep ≤ 1
  result : (∀ p, ¬ P p) → ∀ s, R (e s).1

theorem meets_pure {t : Text} {A : Text → Prop} (hA : ∀ n, ¬ A n) {P : Problem → Prop} (hP : ∀ p, ¬ P p)
    {R : Text → Prop} (hR : R t) : Meets (Evaluation.pure t) A P R where
  asked_iff _ n := (or_iff_left (hA n)).symm
  mem_iff _ p := (or_iff_left (hP p)).symm
  once _ h := h
  result _ _ := hR

theorem Meets.andThen {e f : Evaluation} {A B AB : Text → Prop} {P Q PQ : Problem → Prop} {R S RS : Text → Prop}
    (he : Meets e A P R) (hf : Meets f B Q S) (hAB : ∀ n, AB n ↔ A n ∨ B n) (hPQ : ∀ p, PQ p ↔ P p ∨ Q p)
    (hRS : ∀ u v, R u → S v → RS (u ++ v)) : Meets (e.andThen f) AB PQ RS where
  asked_iff s n := by
    show n ∈ (f (e s).2).2.asked ↔ _
    rw [hf.asked_iff, he.asked_iff, hAB, or_assoc]
  mem_iff s p := by
    show p ∈ (f (e s).2).2.problems ↔ _
    rw [hf.mem_iff, he.mem_iff, hPQ, or_assoc]
  once s h := hf.once _ (he.once s h)
  result hnone s := by
    refine hRS _ _ (he.result ?_ s) (hf.result ?_ _)
    · exact fun p hp => hnone p ((hPQ p).mpr (Or.inl hp))
    · exact fun p hp => hnone p ((hPQ p).mpr (Or.inr hp))

variable (lookup)

theorem expandAt_literals {t : Text} (free : ∀ c ∈ t, c ≠ '$' ∧ c ≠ '\\') (depth : Nat) :
    expandAt lookup depth t = Evaluation.pure t := by
  have hpieces := pieces_literal free []
  have hnil : pieces ([] : Text) = [] := by rw [pieces]
  funext s
  rw [List.append_nil, hnil] at hpieces
  rw [expandAt_eq, hpieces, expandPieces_literal]
  show (t ++ [], s) = (t, s)
  rw [List.append_nil]

theorem expandAt_cons {c : Char} (hc : c ≠ '$' ∧ c ≠ '\\') (t : Text) (depth : Nat) :
    expandAt lookup depth (c :: t) = (Evaluation.pure [c]).andThen (expandAt lookup depth t) := by
  have hpieces : pieces (c :: t) = literalPieces [c] ++ pieces t := pieces_literal (t := [c]) (by simpa using hc) t
  funext s
  rw [expandAt_eq, hpieces, expandPieces_literal, Evaluation.andThen, Evaluation.andThen, expandAt_eq]

/-- A plain name stands for itself, and a reference to it has no default. -/
theorem expandAt_reference {m : Text} (hm : IsPlainName m) (t : Text) (depth : Nat) :
    expandAt lookup depth (referenceText m ++ t) =
      (evalReference lookup depth m (Evaluation.pure m) none).andThen (expandAt lookup depth t) := by
  have hbrace {c : Char} (hc : c ∈ m) := Place.not_brace_of_inside (by decide) (hm c hc)
  have hbalanced : Balanced m := balanced_of_free fun c hc => hbrace hc
  have hcolonless : Colonless 0 m := by
    refine colonless_of_free fun c hc => ⟨(hbrace hc).2.1, (hbrace hc).2.2, ?_⟩
    rintro rfl
    exact absurd (by decide) (hm _ hc)
  have hcut : splitDefault m = (m, none) := splitDefault_bodyText hcolonless none
  have hname : expandAt lookup (depth + 1) m = Evaluation.pure m :=
    expandAt_literals lookup (fun c hc => Place.not_dollar (hm c hc)) (depth + 1)
  funext s
  rw [expandAt_eq, pieces_reference hbalanced, expandPieces_reference, referenceAt_eq lookup hcut, hname,
    Evaluation.andThen, Evaluation.andThen, expandAt_eq]
  rfl

variable {lookup}

/-- Every value is simple. -/
def AllSimple (lookup : Text → Option Record) : Prop := ∀ n r, lookup n = some r → ∃ t, r.value = some t ∧ Simple t

/-- What a reference to a plain name contributes where no problem arises. -/
def ResolvesName (lookup : Text → Option Record) (m w : Text) : Prop :=
  ∃ r v, lookup m = some r ∧ r.value = some v ∧ Resolves lookup v w

/-- A value meets what its references meet. -/
theorem meets_of_references {depth levels : Nat}
    (href : ∀ m, IsPlainName m → Meets (evalReference lookup depth m (Evaluation.pure m) none)
      (ReachedAt lookup levels m) (ArisesAt lookup levels m) (ResolvesName lookup m)) {t : Text} (ht : Simple t) :
    Meets (expandAt lookup depth t) (Reaches lookup levels t) (Arises lookup levels t) (Resolves lookup t) := by
  induction ht with
  | nil =>
      rw [expandAt_literals lookup (by simp)]
      exact meets_pure (fun _ => not_exists_mentions_nil _) (fun _ => not_exists_mentions_nil _) .nil
  | @literal c t hc _ ih =>
      have hdollar := Place.not_dollar hc
      rw [expandAt_cons lookup hdollar]
      refine (meets_pure (A := fun _ => False) (P := fun _ => False) (R := fun u => u = [c]) (fun _ => id) (fun _ => id)
        rfl).andThen ih ?_ ?_ ?_
      · intro n
        rw [false_or]
        exact exists_mentions_cons hdollar.1 _
      · intro p
        rw [false_or]
        exact exists_mentions_cons hdollar.1 _
      · rintro u v rfl hv
        exact .literal hdollar.1 hv
  | @reference m t hm _ ih =>
      rw [expandAt_reference lookup hm]
      refine (href m hm).andThen ih (fun n => exists_mentions_reference hm _) (fun p => exists_mentions_reference hm _) ?_
      rintro w u ⟨r, v, hr, hv, hw⟩ hu
      exact .reference hm hr hv hw hu

/-- A reference on the last level is too deep, whatever its name. -/
theorem meets_deepest {depth : Nat} (hdepth : maxLevels ≤ depth) (m : Text) :
    Meets (evalReference lookup depth m (Evaluation.pure m) none) (ReachedAt lookup 0 m) (ArisesAt lookup 0 m)
      (ResolvesName lookup m) := by
  have heval : evalReference lookup depth m (Evaluation.pure m) none = fun s => ([], s.reportDepth) := by
    funext s
    rw [evalReference, if_pos hdepth]
  rw [heval]
  constructor
  · intro s n
    rw [or_iff_left (not_reachedAt_zero m n), Trace.reportDepth]
    split
    · rfl
    · rfl
  · intro s p
    rw [arisesAt_zero, Trace.reportDepth]
    split
    -- the depth was reported before
    · next hmem =>
        refine (or_iff_left_of_imp ?_).symm
        rintro rfl
        simpa using hmem
    · simp [Trace.report]
  · intro s h
    rw [Trace.reportDepth]
    split
    · exact h
    · next hmem =>
        have hzero : s.problems.count .expressionTooDeep = 0 := List.count_eq_zero.mpr (by simpa using hmem)
        simp [Trace.report, hzero]
  · intro hnone
    exact absurd (arisesAt_zero.mpr rfl) (hnone .expressionTooDeep)

/-- A reference to a name without value is reported. -/
theorem meets_undefined {depth : Nat} (hdepth : ¬ maxLevels ≤ depth) {m : Text} (hm : lookup m = none) (levels : Nat) :
    Meets (evalReference lookup depth m (Evaluation.pure m) none) (ReachedAt lookup (levels + 1) m)
      (ArisesAt lookup (levels + 1) m) (ResolvesName lookup m) := by
  have heval : evalReference lookup depth m (Evaluation.pure m) none =
      fun s => ([], (s.ask m).report [.expressionNotFound m]) := by
    funext s
    rw [evalReference, if_neg hdepth]
    simp [Evaluation.pure, hm, carried]
  rw [heval]
  constructor
  · intro s n
    rw [reachedAt_undefined hm]
    simp [Trace.report, Trace.ask]
  · intro s p
    rw [arisesAt_undefined hm]
    simp [Trace.report, Trace.ask]
  · intro s h
    simpa [Trace.report, Trace.ask] using h
  · intro hnone
    exact absurd ((arisesAt_undefined hm).mpr rfl) (hnone (.expressionNotFound m))

/-- A reference to a name with a value meets what the value meets one level deeper. -/
theorem meets_defined {depth : Nat} (hdepth : ¬ maxLevels ≤ depth) {m t : Text} {r : Record} (hr : lookup m = some r)
    (ht : r.value = some t) {levels : Nat}
    (hvalue : Meets (expandAt lookup (depth + 1) t) (Reaches lookup levels t) (Arises lookup levels t)
      (Resolves lookup t)) :
    Meets (evalReference lookup depth m (Evaluation.pure m) none) (ReachedAt lookup (levels + 1) m)
      (ArisesAt lookup (levels + 1) m) (ResolvesName lookup m) := by
  have heval : evalReference lookup depth m (Evaluation.pure m) none =
      fun s => expandAt lookup (depth + 1) t (s.ask m) := by
    funext s
    rw [evalReference, if_neg hdepth]
    simp [Evaluation.pure, hr, ht]
  rw [heval]
  constructor
  · intro s n
    rw [reachedAt_defined hr ht, hvalue.asked_iff, ← or_assoc]
    simp [Trace.ask]
  · intro s p
    rw [arisesAt_defined hr ht]
    exact hvalue.mem_iff (s.ask m) p
  · intro s h
    exact hvalue.once (s.ask m) h
  · intro hnone s
    refine ⟨r, t, hr, ht, hvalue.result ?_ (s.ask m)⟩
    intro p hp
    exact hnone p ((arisesAt_defined hr ht).mpr hp)

/-- At every depth a simple value meets what its chains of references say, with the levels that are left there. -/
theorem meets_expandAt (hsimple : AllSimple lookup) {levels depth : Nat} (hlevels : levels + depth = maxLevels) {t : Text}
    (ht : Simple t) :
    Meets (expandAt lookup depth t) (Reaches lookup levels t) (Arises lookup levels t) (Resolves lookup t) := by
  -- on the levels that are left: each reference takes one
  induction levels generalizing depth t with
  | zero =>
      refine meets_of_references ?_ ht
      intro m _
      exact meets_deepest (by omega) m
  | succ levels ih =>
      refine meets_of_references ?_ ht
      intro m _
      have hdepth : ¬ maxLevels ≤ depth := by omega
      cases hr : lookup m with
      | none => exact meets_undefined hdepth hr levels
      | some r =>
          obtain ⟨u, hu, hsimpleu⟩ := hsimple m r hr
          exact meets_defined hdepth hr hu (ih (by omega) hsimpleu)

end

end LayeredConfig.Template

namespace LayeredConfig

open Template

/-! ## Look-ups -/

section

variable {lookup : Text → Option Record}

/-- A simple value is expanded from the first level on, also where the expansion is skipped. -/
theorem Record.expanded_of_simple (lookup : Text → Option Record) {r : Record} {t : Text} (hr : r.value = some t)
    (ht : Simple t) :
    r.askedForExpansion lookup = (expandAt lookup 0 t .start).2.asked ∧ r.expanded lookup =
      if (expandAt lookup 0 t .start).2.problems.isEmpty then r.withValue (some (expandAt lookup 0 t .start).1)
      else (r.withValue none).withProblems (expandAt lookup 0 t .start).2.problems := by
  by_cases hdollar : t.contains '$' = true
  · have hexpansion : r.expansion lookup = some (expandAt lookup 0 t .start) := expansion_of_dollar hr hdollar
    rw [askedForExpansion, expanded, hexpansion]
    exact ⟨rfl, rfl⟩
  · rw [Bool.not_eq_true] at hdollar
    have hexpansion : r.expansion lookup = none := by
      refine expansion_of_dollarless ?_
      rintro u hu
      rw [hr, Option.some.injEq] at hu
      exact hu ▸ hdollar
    have hfree : ∀ c ∈ t, c ≠ '$' ∧ c ≠ '\\' := by
      intro c hc
      refine ⟨?_, ht.not_backslash c hc⟩
      rintro rfl
      simp [hc] at hdollar
    rw [askedForExpansion, expanded, hexpansion, expandAt_literals lookup hfree]
    refine ⟨rfl, ?_⟩
    show r = r.withValue (some t)
    rw [← hr]
    rfl

/-- A record with a simple value asks for the names that the chains from its name lead to, and meets what they say. -/
theorem Record.expanded_meets (hsimple : AllSimple lookup) {n t : Text} {r : Record} (hn : lookup n = some r)
    (ht : r.value = some t) (hsimplet : Simple t) (hclean : r.problems = []) :
    (∀ m, m = n ∨ m ∈ r.askedForExpansion lookup ↔ ReachedAt lookup (maxLevels + 1) n m) ∧
      (∀ p, p ∈ (r.expanded lookup).problems ↔ ArisesAt lookup (maxLevels + 1) n p) ∧
      (r.expanded lookup).problems.count .expressionTooDeep ≤ 1 ∧
      ((∀ p, ¬ ArisesAt lookup (maxLevels + 1) n p) →
        ∃ v, (r.expanded lookup).value = some v ∧ Resolves lookup t v) := by
  have hmeets : Meets (expandAt lookup 0 t) (Reaches lookup maxLevels t) (Arises lookup maxLevels t) (Resolves lookup t) :=
    meets_expandAt hsimple rfl hsimplet
  obtain ⟨hasked, hexpanded⟩ := Record.expanded_of_simple lookup ht hsimplet
  have hproblems : (r.expanded lookup).problems = (expandAt lookup 0 t .start).2.problems := by
    rw [hexpanded]
    split
    · next hempty => exact hclean.trans (List.isEmpty_iff.mp hempty).symm
    · simp [withProblems, withValue, hclean]
  have hmem (p : Problem) : p ∈ (r.expanded lookup).problems ↔ ArisesAt lookup (maxLevels + 1) n p := by
    rw [hproblems, arisesAt_defined hn ht, hmeets.mem_iff]
    exact or_iff_right List.not_mem_nil
  refine ⟨fun m => ?_, hmem, ?_, fun hnone => ?_⟩
  · rw [hasked, reachedAt_defined hn ht, hmeets.asked_iff]
    exact or_congr_right (or_iff_right List.not_mem_nil)
  · rw [hproblems]
    exact hmeets.once .start (Nat.zero_le 1)
  · have hempty : (expandAt lookup 0 t .start).2.problems = [] := by
      rw [← hproblems]
      exact List.eq_nil_iff_forall_not_mem.mpr fun p hp => hnone p ((hmem p).mp hp)
    rw [hexpanded, hempty]
    exact ⟨_, rfl, hmeets.result (fun p hp => hnone p ((arisesAt_defined hn ht).mpr hp)) .start⟩

end

/-- Where every source holds simple values only, the registry answers with such values. -/
theorem allSimple_of_sources {registry : Registry}
    (h : ∀ s ∈ registry.ranked, ∀ n v, s.source.get? n = some v → Simple v) : AllSimple registry.resolve := by
  intro n r hr
  obtain ⟨s, hs, v, hv, hvalue, -⟩ := Registry.value_of_resolve hr
  exact ⟨v, hvalue, h s hs n v hv⟩

namespace Chain

variable {registry : Registry} {access : Access} {n : Text}

/-- What was found before the sources break off is what the registry holds. -/
theorem refers_of_found {x y : Text} (h : Refers (Attempt.found registry.tryResolve) x y) :
    Refers registry.resolve x y := by
  obtain ⟨r, t, hr, ht, hmentions⟩ := h
  exact ⟨r, t, Registry.resolve_of_found hr, ht, hmentions⟩

theorem leadsTo_of_found {k : Nat} {x y : Text} (h : LeadsTo (Attempt.found registry.tryResolve) k x y) :
    LeadsTo registry.resolve k x y := by
  induction k generalizing x with
  | zero => exact h
  | succ k ih =>
      obtain ⟨m, hm, hrest⟩ := h
      exact ⟨m, refers_of_found hm, ih hrest⟩

/-- A chain that ends where the sources break off is found up to the first such name on it. -/
theorem found_of_leadsTo {k : Nat} {x y : Text} (h : LeadsTo registry.resolve k x y) (hy : registry.StopsAt y) :
    ∃ j z, j ≤ k ∧ LeadsTo (Attempt.found registry.tryResolve) j x z ∧ registry.StopsAt z := by
  induction k generalizing x with
  | zero => exact ⟨0, y, Nat.le_refl 0, h, hy⟩
  | succ k ih =>
      by_cases hx : registry.StopsAt x
      · exact ⟨0, x, Nat.zero_le _, rfl, hx⟩
      · obtain ⟨m, ⟨r, t, hr, ht, hmentions⟩, hrest⟩ := h
        obtain ⟨j, z, hj, hchain, hz⟩ := ih hrest
        rw [← Registry.found_eq_resolve hx] at hr
        exact ⟨j + 1, z, Nat.succ_le_succ hj, ⟨m, ⟨r, t, hr, ht, hmentions⟩, hchain⟩, hz⟩

/-- Around simple values an expression stage breaks off exactly where a chain of at most 32 references leads to a name at
which the sources do. -/
theorem stops_expression_iff (hsimple : AllSimple registry.resolve) :
    ((Chain.mk [.expression]).tryLookup registry access n).Stops ↔
      ∃ k m, k ≤ 32 ∧ LeadsTo registry.resolve k n m ∧ registry.StopsAt m := by
  have hfound : AllSimple (Attempt.found registry.tryResolve) := fun m r hr => hsimple m r (Registry.resolve_of_found hr)
  have hasked (m : Text) : m ∈ Stage.asked (Attempt.found registry.tryResolve) n .expression ↔
      ReachedAt (Attempt.found registry.tryResolve) 33 n m := by
    rw [Stage.asked, List.mem_cons]
    cases hn : Attempt.found registry.tryResolve n with
    | none =>
        rw [reachedAt_undefined hn, Option.map_none, Option.getD_none]
        exact or_iff_left List.not_mem_nil
    | some r =>
        obtain ⟨t, ht, hsimplet⟩ := hfound n r hn
        obtain ⟨-, -, -, -, -, hclean⟩ := Registry.value_of_resolve (Registry.resolve_of_found hn)
        rw [Option.map_some, Option.getD_some]
        exact (Record.expanded_meets hfound hn ht hsimplet hclean).1 m
  show (Stage.tryGet access registry.tryResolve n .expression).Stops ↔ _
  rw [Stage.stops_tryGet_iff]
  constructor
  · rintro ⟨m, hm, hstops⟩
    obtain ⟨k, hk, hchain⟩ := (hasked m).mp hm
    exact ⟨k, m, Nat.le_of_lt_succ hk, leadsTo_of_found hchain, Registry.stops_tryResolve_iff.mp hstops⟩
  · rintro ⟨k, m, hk, hchain, hm⟩
    obtain ⟨j, z, hj, hfoundChain, hz⟩ := found_of_leadsTo hchain hm
    exact ⟨z, (hasked z).mpr ⟨j, by omega, hfoundChain⟩, Registry.stops_tryResolve_iff.mpr hz⟩

/-- What the record of a name becomes, in terms of the chains that start at the name. -/
theorem expanded_of_leadsTo (hsimple : AllSimple registry.resolve) {r : Record} (hn : registry.resolve n = some r) :
    ∃ q, r.expanded registry.resolve = q ∧
      (.expressionTooDeep ∈ q.problems ↔ ∃ m, LeadsTo registry.resolve 33 n m) ∧
      (.expressionTooDeep ∈ q.problems → q.problems.count .expressionTooDeep = 1) ∧
      (∀ m, .expressionNotFound m ∈ q.problems ↔
        registry.resolve m = none ∧ ∃ k, 1 ≤ k ∧ k ≤ 32 ∧ LeadsTo registry.resolve k n m) ∧
      ((¬ ∃ m, LeadsTo registry.resolve 33 n m) →
        (¬ ∃ m k, registry.resolve m = none ∧ 1 ≤ k ∧ k ≤ 32 ∧ LeadsTo registry.resolve k n m) →
        q.problems = [] ∧ ∃ t v, r.value = some t ∧ q.value = some v ∧ ∀ u, Resolves registry.resolve t u ↔ u = v) := by
  obtain ⟨t, ht, hsimplet⟩ := hsimple n r hn
  obtain ⟨-, -, -, -, -, hclean⟩ := Registry.value_of_resolve hn
  obtain ⟨-, hmem, honce, hresult⟩ := Record.expanded_meets hsimple hn ht hsimplet hclean
  generalize r.expanded registry.resolve = q at hmem honce hresult
  have hnotFound (m : Text) : .expressionNotFound m ∈ q.problems ↔
      registry.resolve m = none ∧ ∃ k, 1 ≤ k ∧ k ≤ 32 ∧ LeadsTo registry.resolve k n m := by
    rw [hmem]
    refine and_congr_right fun hm => exists_congr fun k => ?_
    constructor
    · rintro ⟨hk, hchain⟩
      refine ⟨Nat.pos_of_ne_zero ?_, Nat.le_of_lt_succ hk, hchain⟩
      rintro rfl
      -- the name itself has a record
      rw [← show n = m from hchain, hn] at hm
      cases hm
    · rintro ⟨-, hk, hchain⟩
      exact ⟨Nat.lt_succ_of_le hk, hchain⟩
  refine ⟨q, rfl, hmem _, ?_, hnotFound, ?_⟩
  · intro hdepth
    exact Nat.le_antisymm honce (List.count_pos_iff.mpr hdepth)
  · intro hdepth hnames
    have hnone (p : Problem) : ¬ ArisesAt registry.resolve 33 n p := by
      intro hp
      cases p with
      | expressionTooDeep => exact hdepth hp
      | expressionNotFound m =>
          obtain ⟨hm, k, hk⟩ := (hnotFound m).mp ((hmem _).mpr hp)
          exact hnames ⟨m, k, hm, hk⟩
      | secretAccessDenied => exact hp
    obtain ⟨v, hv, hresolves⟩ := hresult hnone
    refine ⟨List.eq_nil_iff_forall_not_mem.mpr fun p hp => hnone p ((hmem p).mp hp), t, v, ht, hv, ?_⟩
    intro u
    constructor
    · exact fun hu => hresolves.unique u hu
    · rintro rfl
      exact hresolves

/-- **What an expansion reports is told by chains of references.** Let an expression stage stand directly around a
registry whose values are literals and references to plain names, and look a name up that has a record. The look-up breaks
off exactly when a chain of at most 32 references leads to a name at which the sources do. Every other name is answered,
however its references branch or run in circles: the depth is reported when a chain of 33 references starts at the name,
and then once; a name without record is reported when a chain of 1 to 32 references leads to it; and where neither is the
case there is no problem, and the value is the one complete substitution. -/
theorem expansion_by_references (registry : Registry) (access : Access) (hsimple : AllSimple registry.resolve)
    {n : Text} {r : Record} (hn : registry.resolve n = some r) :
    let view : Chain := ⟨[.expression]⟩
    ((view.tryLookup registry access n).Stops ↔
      ∃ k m, k ≤ 32 ∧ LeadsTo registry.resolve k n m ∧ registry.StopsAt m) ∧
    ∀ answer, view.tryLookup registry access n = .ok answer →
      ∃ q, answer = some q ∧
        (.expressionTooDeep ∈ q.problems ↔ ∃ m, LeadsTo registry.resolve 33 n m) ∧
        (.expressionTooDeep ∈ q.problems → q.problems.count .expressionTooDeep = 1) ∧
        (∀ m, .expressionNotFound m ∈ q.problems ↔
          registry.resolve m = none ∧ ∃ k, 1 ≤ k ∧ k ≤ 32 ∧ LeadsTo registry.resolve k n m) ∧
        ((¬ ∃ m, LeadsTo registry.resolve 33 n m) →
          (¬ ∃ m k, registry.resolve m = none ∧ 1 ≤ k ∧ k ≤ 32 ∧ LeadsTo registry.resolve k n m) →
          q.problems = [] ∧ ∃ t v, r.value = some t ∧ q.value = some v ∧ ∀ u, Resolves registry.resolve t u ↔ u = v) := by
  intro view
  refine ⟨stops_expression_iff hsimple, ?_⟩
  intro answer hanswer
  have hlibrary : ∀ s ∈ view.stages, s.ReadsOnlyAsked :=
    List.forall_mem_singleton.mpr (Stage.readsOnlyAsked rfl)
  have hlookup : view.lookup registry access n = answer := lookupIn_of_tryLookupIn hlibrary hanswer
  obtain ⟨q, hq, hreports⟩ := expanded_of_leadsTo hsimple hn
  refine ⟨q, ?_, hreports⟩
  rw [← hlookup, ← hq]
  show (registry.resolve n).map (Record.expanded registry.resolve) = _
  rw [hn, Option.map_some]

/-- A name that refers to itself and to a name behind which a reference leads nowhere. -/
theorem expansion_by_references_circular :
    let table : TableSource := .ofProperties "app".toList
      (.ofPairs [("a".toList, "$\x7bb\x7d-$\x7ba\x7d".toList), ("b".toList, "x$\x7bgone\x7d".toList)])
    let registry : Registry := ⟨[⟨.table table, 100, 0⟩]⟩
    AllSimple registry.resolve ∧ ∃ r q, registry.resolve "a".toList = some r ∧
      (Chain.mk [.expression]).tryLookup registry .locked "a".toList = .ok (some q) ∧ .expressionTooDeep ∈ q.problems ∧
      q.problems.count .expressionTooDeep = 1 ∧ .expressionNotFound "gone".toList ∈ q.problems := by
  intro table registry
  have hsimple : AllSimple registry.resolve := by
    refine allSimple_of_sources fun s hs n v hv => ?_
    obtain rfl := List.mem_singleton.mp hs
    have hentry : (n, v) ∈ table.properties.entries := (Dict.get?_eq_some_iff _).mp hv
    have hentries : table.properties.entries =
        [("a".toList, referenceText "b".toList ++ '-' :: (referenceText "a".toList ++ [])),
          ("b".toList, 'x' :: (referenceText "gone".toList ++ []))] := by decide
    rw [hentries] at hentry
    simp only [List.mem_cons, Prod.mk.injEq, List.not_mem_nil, or_false] at hentry
    rcases hentry with ⟨-, rfl⟩ | ⟨-, rfl⟩
    · exact .reference (by decide) (.literal (by decide) (.reference (by decide) .nil))
    · exact .literal (by decide) (.reference (by decide) .nil)
  have hstops (m : Text) : ¬ registry.StopsAt m := by
    apply Registry.not_stopsAt
    intro s hs d hd
    obtain rfl := List.mem_singleton.mp hs
    cases hd
  have ha : registry.resolve "a".toList =
      some (.ofSource "a".toList "$\x7bb\x7d-$\x7ba\x7d".toList ⟨"app".toList, 100, 0, none⟩) := by decide +kernel
  have hb : registry.resolve "b".toList =
      some (.ofSource "b".toList "x$\x7bgone\x7d".toList ⟨"app".toList, 100, 0, none⟩) := by decide +kernel
  have hself : Refers registry.resolve "a".toList "a".toList :=
    ⟨_, _, ha, rfl, by decide, "$\x7bb\x7d-".toList, [], rfl⟩
  have hother : Refers registry.resolve "a".toList "b".toList := ⟨_, _, ha, rfl, by decide, [], "-$\x7ba\x7d".toList, rfl⟩
  have hnowhere : Refers registry.resolve "b".toList "gone".toList := ⟨_, _, hb, rfl, by decide, "x".toList, [], rfl⟩
  have hloop (k : Nat) : LeadsTo registry.resolve k "a".toList "a".toList := by
    induction k with
    | zero => exact rfl
    | succ k ih => exact ⟨"a".toList, hself, ih⟩
  have hgone : LeadsTo registry.resolve 2 "a".toList "gone".toList :=
    ⟨"b".toList, hother, "gone".toList, hnowhere, rfl⟩
  obtain ⟨hbreaks, hanswers⟩ := expansion_by_references registry .locked hsimple ha
  obtain ⟨answer, hanswer⟩ : ∃ answer, (Chain.mk [.expression]).tryLookup registry .locked "a".toList = .ok answer := by
    rw [← Attempt.not_stops_iff, hbreaks]
    rintro ⟨k, m, -, -, hm⟩
    exact hstops m hm
  obtain ⟨q, rfl, hdepth, honce, hnames, -⟩ := hanswers answer hanswer
  have hdeep := hdepth.mpr ⟨_, hloop 33⟩
  refine ⟨hsimple, _, q, ha, hanswer, hdeep, honce hdeep, (hnames _).mpr ⟨by decide +kernel, 2, ?_, ?_, hgone⟩⟩
  · decide
  · decide

/-- A reference to a name with a doubled bracket leads to the defaults, which cannot cut it: the name that holds the
reference has no answer. -/
theorem expansion_stops_at_doubled_bracket :
    let table : TableSource := .ofProperties "app".toList (.ofPairs [("n".toList, "$\x7ba[0]]\x7d".toList)])
    let registry : Registry := ⟨[⟨.table table, 100, 0⟩, ⟨.defaults .empty, ordinalRange.least, 1⟩]⟩
    AllSimple registry.resolve ∧ (registry.resolve "n".toList).isSome = true ∧
      ((Chain.mk [.expression]).tryLookup registry .locked "n".toList).Stops := by
  intro table registry
  have hsimple : AllSimple registry.resolve := by
    refine allSimple_of_sources fun s hs n v hv => ?_
    rcases List.mem_cons.mp hs with rfl | hs
    · have hentry : (n, v) ∈ table.properties.entries := (Dict.get?_eq_some_iff _).mp hv
      have hentries : table.properties.entries = [("n".toList, referenceText "a[0]]".toList ++ [])] := by decide
      rw [hentries, List.mem_singleton, Prod.mk.injEq] at hentry
      rw [hentry.2]
      exact .reference (by decide) .nil
    · obtain rfl := List.mem_singleton.mp hs
      rw [Source.get?, Trie.get?_empty] at hv
      cases hv
  have hn : registry.resolve "n".toList =
      some (.ofSource "n".toList "$\x7ba[0]]\x7d".toList ⟨"app".toList, 100, 0, none⟩) := by decide +kernel
  have hrefers : Refers registry.resolve "n".toList "a[0]]".toList := ⟨_, _, hn, rfl, by decide, [], [], rfl⟩
  have hstops : registry.StopsAt "a[0]]".toList := by
    refine ⟨[⟨.table table, 100, 0⟩], ⟨.defaults .empty, ordinalRange.least, 1⟩, [], rfl, ?_, ⟨_, rfl⟩, by decide +kernel⟩
    intro s hs
    obtain rfl := List.mem_singleton.mp hs
    decide
  refine ⟨hsimple, ?_, (stops_expression_iff hsimple).mpr ⟨1, "a[0]]".toList, by decide, ⟨_, hrefers, rfl⟩, hstops⟩⟩
  rw [hn]
  rfl

end Chain

end LayeredConfig
