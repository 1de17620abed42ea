import LayeredConfig.Chain
import Mathlib.Data.List.Sort

/-!
# `LayeredConfig.Proofs.Chain.Order` — one order of stages, however a chain is assembled

A chain is sorted at once from a list of stages, or stages are put into it one by one. A stage is put behind the run of
those of at least its priority, which is the right place only in a chain that is in order already; so the order is an
invariant of every insertion. As a list in order is determined by its stages, both ways lead to the same chain.

## Contents
- **Order.** `tied` picks the stages of one priority. `InOrder` says that a list holds given stages in the order of a
  chain; there is one such list (`InOrder.unique`).
- **Sorting.** `inOrder_ofStages`.
- **Inserting.** In a descending chain the stages inside a priority are those below it (`stages_inside`). One insertion
  keeps the order (`InOrder.insert`), and so does a run of them (`InOrder.foldl_insert`).
- **Assembly.** `assembled_in_order`.
-/

namespace LayeredConfig.Chain

/-! ## Order -/

/-- The stages of a list that have a priority. -/
def tied (priority : Int) (l : List Stage) : List Stage := l.filter fun s => decide (s.priority = priority)

theorem mem_tied {priority : Int} {l : List Stage} {s : Stage} : s ∈ tied priority l ↔ s ∈ l ∧ s.priority = priority := by
  rw [tied, List.mem_filter, decide_eq_true_iff]

theorem tied_append (priority : Int) (l r : List Stage) : tied priority (l ++ r) = tied priority l ++ tied priority r :=
  List.filter_append l r

theorem tied_cons_of_eq {priority : Int} {s : Stage} (h : s.priority = priority) (l : List Stage) :
    tied priority (s :: l) = s :: tied priority l := by
  rw [tied, List.filter_cons_of_pos (by simpa using h), tied]

theorem tied_cons_of_ne {priority : Int} {s : Stage} (h : s.priority ≠ priority) (l : List Stage) :
    tied priority (s :: l) = tied priority l := by
  rw [tied, List.filter_cons_of_neg (by simpa using h), tied]

/-- No stage has a higher priority than one in front of it. -/
def Descending (l : List Stage) : Prop := l.Pairwise fun a b => b.priority ≤ a.priority

/-- A list holds the given stages in the order of a chain: higher priorities in front, and of every priority the given
stages that have it, in their given order. -/
structure InOrder (given l : List Stage) : Prop where
  descending : Descending l
  ties (priority : Int) : tied priority l = tied priority given

/-- Where the first stage of a list stands in a descending list too, it is not above the first stage of this one. -/
theorem priority_le_head {a b : Stage} {l r : List Stage} (hr : Descending (b :: r))
    (hties : tied a.priority (a :: l) = tied a.priority (b :: r)) : a.priority ≤ b.priority := by
  have ha : a ∈ tied a.priority (b :: r) := hties ▸ mem_tied.mpr ⟨List.mem_cons_self, rfl⟩
  rcases List.mem_cons.mp (mem_tied.mp ha).1 with rfl | hmem
  · exact Int.le_refl _
  · exact (List.pairwise_cons.mp hr).1 a hmem

/-- A descending list is known by its stages of every priority. -/
theorem eq_of_descending {l r : List Stage} (hl : Descending l) (hr : Descending r)
    (hties : ∀ priority, tied priority l = tied priority r) : l = r := by
  induction l generalizing r with
  | nil =>
      cases r with
      | nil => rfl
      | cons b r =>
          have hb := hties b.priority
          rw [tied_cons_of_eq rfl] at hb
          cases hb
  | cons a l ih =>
      cases r with
      | nil =>
          have ha := hties a.priority
          rw [tied_cons_of_eq rfl] at ha
          cases ha
      | cons b r =>
          have hpriority : b.priority = a.priority :=
            Int.le_antisymm (priority_le_head hl (hties b.priority).symm) (priority_le_head hr (hties a.priority))
          have hfirst := hties a.priority
          rw [tied_cons_of_eq rfl, tied_cons_of_eq hpriority] at hfirst
          obtain ⟨rfl, hrest⟩ := List.cons.inj hfirst
          refine congrArg (a :: ·) (ih hl.tail hr.tail fun priority => ?_)
          by_cases h : a.priority = priority
          · exact h ▸ hrest
          · have hskip := hties priority
            rwa [tied_cons_of_ne h, tied_cons_of_ne h] at hskip

/-- There is one list of given stages in order. -/
theorem InOrder.unique {given l r : List Stage} (hl : InOrder given l) (hr : InOrder given r) : l = r :=
  eq_of_descending hl.descending hr.descending fun priority => (hl.ties priority).trans (hr.ties priority).symm

/-! ## Sorting -/

/-- The test by which stages are sorted. -/
def before (a b : Stage) : Bool := decide (b.priority ≤ a.priority)

theorem before_trans (a b c : Stage) (hab : before a b = true) (hbc : before b c = true) : before a c = true :=
  decide_eq_true (Int.le_trans (of_decide_eq_true hbc) (of_decide_eq_true hab))

theorem before_total (a b : Stage) : (before a b || before b a) = true := by
  simpa [before] using Int.le_total b.priority a.priority

theorem mem_ofStages {given : List Stage} {s : Stage} : s ∈ (ofStages given).stages ↔ s ∈ given := List.mem_mergeSort

theorem descending_ofStages (given : List Stage) : Descending (ofStages given).stages :=
  (List.pairwise_mergeSort before_trans before_total given).imp of_decide_eq_true

/-- Sorting puts stages in order. -/
theorem inOrder_ofStages (given : List Stage) : InOrder given (ofStages given).stages := by
  refine ⟨descending_ofStages given, fun priority => ?_⟩
  -- given stages of one priority are descending as they stand, so that a stable sort leaves them in their order
  have htied : (tied priority given).Pairwise fun a b => before a b = true := by
    refine List.pairwise_of_forall_mem_list fun a ha b hb => decide_eq_true ?_
    rw [(mem_tied.mp ha).2, (mem_tied.mp hb).2]
  have hkept : (tied priority given).Sublist (ofStages given).stages :=
    List.sublist_mergeSort before_trans before_total htied List.filter_sublist
  have hself : tied priority (tied priority given) = tied priority given :=
    List.filter_eq_self.mpr fun s hs => decide_eq_true (mem_tied.mp hs).2
  have hsub : (tied priority given).Sublist (tied priority (ofStages given).stages) := hself ▸ hkept.filter _
  have hlength : (tied priority (ofStages given).stages).length = (tied priority given).length :=
    ((List.mergeSort_perm given before).filter _).length_eq
  exact (hsub.eq_of_length hlength.symm).symm

/-! ## Inserting -/

variable {c : Chain}

theorem outside_append_inside (c : Chain) (priority : Int) : c.outside priority ++ (c.inside priority).stages = c.stages :=
  List.takeWhile_append_dropWhile

theorem mem_insert {s t : Stage} : s ∈ (c.insert t).stages ↔ s = t ∨ s ∈ c.stages := by
  rw [← outside_append_inside c t.priority]
  show s ∈ c.outside t.priority ++ t :: (c.inside t.priority).stages ↔ _
  rw [List.mem_append, List.mem_append, List.mem_cons, or_left_comm]

theorem le_priority_of_mem_outside {priority : Int} {s : Stage} (h : s ∈ c.outside priority) : priority ≤ s.priority :=
  of_decide_eq_true (List.all_eq_true.mp List.all_takeWhile s h)

/-- In a descending chain the stages inside a priority are those below it. -/
theorem stages_inside (hc : Descending c.stages) (priority : Int) :
    (c.inside priority).stages = c.stages.filter fun s => decide (s.priority < priority) := by
  obtain ⟨l⟩ := c
  show l.dropWhile _ = l.filter _
  induction l with
  | nil => rfl
  | cons s l ih =>
      obtain ⟨hhead, htail⟩ := List.pairwise_cons.mp hc
      by_cases h : priority ≤ s.priority
      · rw [List.dropWhile_cons_of_pos (by simpa using h), List.filter_cons_of_neg (by simpa using h), ih htail]
      · -- the first stage below the priority has only such stages behind it
        rw [List.dropWhile_cons_of_neg (by simpa using h), eq_comm, List.filter_eq_self]
        intro t ht
        rcases List.mem_cons.mp ht with rfl | ht
        · exact decide_eq_true (Int.not_le.mp h)
        · exact decide_eq_true (Int.lt_of_le_of_lt (hhead t ht) (Int.not_le.mp h))

theorem priority_lt_of_mem_inside (hc : Descending c.stages) {priority : Int} {s : Stage}
    (h : s ∈ (c.inside priority).stages) : s.priority < priority := by
  rw [stages_inside hc] at h
  exact of_decide_eq_true (List.mem_filter.mp h).2

theorem Descending.insert (hc : Descending c.stages) (s : Stage) : Descending (c.insert s).stages := by
  have hparts : Descending (c.outside s.priority ++ (c.inside s.priority).stages) := by rwa [outside_append_inside]
  obtain ⟨houtside, hinside, -⟩ := List.pairwise_append.mp hparts
  have hbelow (t : Stage) (ht : t ∈ (c.inside s.priority).stages) : t.priority ≤ s.priority :=
    Int.le_of_lt (priority_lt_of_mem_inside hc ht)
  refine List.pairwise_append.mpr ⟨houtside, List.pairwise_cons.mpr ⟨hbelow, hinside⟩, fun t ht u hu => ?_⟩
  have habove := le_priority_of_mem_outside ht
  rcases List.mem_cons.mp hu with rfl | hu
  · exact habove
  · exact Int.le_trans (hbelow u hu) habove

/-- An inserted stage is the last one of its priority, and no other moves past one of its own. -/
theorem InOrder.insert {given : List Stage} (h : InOrder given c.stages) (s : Stage) :
    InOrder (given ++ [s]) (c.insert s).stages := by
  refine ⟨h.descending.insert s, fun priority => ?_⟩
  have hgiven := h.ties priority
  rw [← outside_append_inside c s.priority, tied_append] at hgiven
  show tied priority (c.outside s.priority ++ s :: (c.inside s.priority).stages) = _
  rw [tied_append, tied_append, ← hgiven]
  by_cases hs : s.priority = priority
  · have hnone : tied priority (c.inside s.priority).stages = [] := by
      refine List.eq_nil_iff_forall_not_mem.mpr fun t ht => ?_
      obtain ⟨hmem, ht⟩ := mem_tied.mp ht
      have hlt := priority_lt_of_mem_inside h.descending hmem
      omega
    rw [tied_cons_of_eq hs, tied_cons_of_eq hs, hnone, List.append_nil]
    rfl
  · rw [tied_cons_of_ne hs, tied_cons_of_ne hs, List.append_assoc]
    exact congrArg _ (List.append_nil _).symm

theorem InOrder.foldl_insert {given : List Stage} (h : InOrder given c.stages) (added : List Stage) :
    InOrder (given ++ added) (added.foldl Chain.insert c).stages := by
  induction added generalizing given c with
  | nil => rwa [List.append_nil]
  | cons s added ih =>
      rw [List.foldl_cons, List.append_cons]
      exact ih (h.insert s)

/-! ## Assembly -/

/-- **A chain is in order however it is assembled.** Sorting some stages and inserting others one by one gives the chain
that sorting all of them gives: descending by priority, with equal priorities in the order in which the stages came. What
lies inside a priority in it are the stages below this priority, in the order of the chain. -/
theorem assembled_in_order (given added : List Stage) :
    let c := added.foldl insert (ofStages given)
    c = ofStages (given ++ added) ∧ InOrder (given ++ added) c.stages ∧
      ∀ priority, (c.inside priority).stages = c.stages.filter fun s => decide (s.priority < priority) := by
  intro c
  have hc : InOrder (given ++ added) c.stages := (inOrder_ofStages given).foldl_insert added
  have hstages : c.stages = (ofStages (given ++ added)).stages := hc.unique (inOrder_ofStages (given ++ added))
  exact ⟨congrArg Chain.mk hstages, hc, stages_inside hc.descending⟩

end LayeredConfig.Chain
