/-
  ExternalSort.Proofs.Order.StableSort.Division

  Sorting by division, and sorting altogether, is stable sorting.

  A division keeps ties, because a pivot does not tell equal elements apart, and
  what stands before the pivot in the order goes before what does not. The bound
  on the pivots is only a promise about the elements (`hbound`), so a bad choice
  of pivots can cost time and nothing else.
-/

import ExternalSort.Order.StableSort
import ExternalSort.Proofs.Order.StableSort.Runs

namespace ExternalSort
namespace StableSort

variable {m : Type → Type} [Monad m] {α : Type}
variable [LawfulMonad m] {order : Comparator α} [Std.TransCmp order]

/-! ## Pivots -/

omit [Std.TransCmp order] in
theorem medianOfThree_eq (get : Nat → α) (a b c : Nat) :
    ∃ i, medianOfThree (m := m) (askLess order) get a b c = pure i := by
  simp only [medianOfThree, askLess, pure_bind]
  split
  · exact ⟨_, rfl⟩
  · exact ⟨_, rfl⟩

omit [Std.TransCmp order] in
theorem pseudoMedian_eq (get : Nat → α) (a b c n : Nat) :
    ∃ i, pseudoMedian (m := m) (askLess order) get a b c n = pure i := by
  induction n using Nat.strongRecOn generalizing a b c with
  | ind n ih =>
    rw [pseudoMedian]
    split
    · rename_i h
      have step : n / 8 < n := Nat.div_lt_self (by omega) (by decide)
      obtain ⟨a', ha⟩ := ih _ step a (a + n / 8 * 4) (a + n / 8 * 7)
      obtain ⟨b', hb⟩ := ih _ step b (b + n / 8 * 4) (b + n / 8 * 7)
      obtain ⟨c', hc⟩ := ih _ step c (c + n / 8 * 4) (c + n / 8 * 7)
      simp only [ha, hb, hc, pure_bind]
      exact medianOfThree_eq get a' b' c'
    · exact medianOfThree_eq get a b c

/-! ## Dividing -/

omit [Std.TransCmp order] in
theorem deal_eq (test : α → Bool) (pass fail xs : List α) :
    deal (m := m) (fun x => pure (test x)) pass fail xs
      = pure ((xs.filter test).reverse ++ pass, (xs.filter fun x => !test x).reverse ++ fail) := by
  induction xs generalizing pass fail with
  | nil => simp [deal]
  | cons x rest ih => by_cases h : test x = true <;> simp [deal, h, ih]

omit [Std.TransCmp order] in
/-- A division asks about every element but the pivot, whose answer is known. -/
theorem divide_eq (test : α → Bool) (before : List α) (pivot : α) (after : List α) :
    divide (m := m) (fun x => pure (test x)) before pivot after (test pivot)
      = pure ((before ++ pivot :: after).filter test,
          (before ++ pivot :: after).filter fun x => !test x) := by
  by_cases h : test pivot = true <;> simp [divide, deal_eq, h]

omit [Monad m] [LawfulMonad m] [Std.TransCmp order] in
theorem cutAt_append (first : α) (rest : List α) (place : Nat) :
    (cutAt first rest place).1 ++ (cutAt first rest place).2.1 :: (cutAt first rest place).2.2
      = first :: rest := by
  rw [cutAt, List.splitAt_eq]
  split
  · rename_i before pivot after heq
    obtain ⟨rfl, hafter⟩ := Prod.mk.inj heq
    rw [← hafter, List.take_append_drop]
  · rfl

/-- What a division of a list is: equal elements stay together and in order, and the parts are
    apart in the order. -/
def Division.Of (order : Comparator α) (xs : List α) : Division α → Prop
  | .least equal greater =>
    Ties order (equal ++ greater) xs ∧ InOrder order equal ∧
      ∀ a ∈ equal, ∀ b ∈ greater, (order a b).isLE
  | .between low pivot high =>
    Ties order (low ++ high) xs ∧ (∀ a ∈ low, a ∈ xs ∧ order a pivot = .lt) ∧
      ∀ b ∈ high, order b pivot ≠ .lt

/-- The elements that equal a least pivot, and the others. -/
theorem Division.least_of {xs : List α} {pivot : α} (least : ∀ a ∈ xs, order a pivot ≠ .lt) :
    Division.Of order xs (.least (xs.filter fun x => !(order pivot x == .lt))
      (xs.filter fun x => !!(order pivot x == .lt))) := by
  have equal : ∀ a ∈ xs.filter fun x => !(order pivot x == .lt),
      (order pivot a).isLE ∧ (order a pivot).isLE := by
    intro a ha
    have hmem := List.mem_filter.mp ha
    exact ⟨isLE_of_not_lt (least a hmem.1), isLE_of_not_lt (by simpa using hmem.2)⟩
  refine ⟨(Ties.filter_append_filter ?_ xs).symm, ?_, ?_⟩
  · intro a b hab
    rw [tied, beq_iff_eq] at hab
    simp only [Std.TransCmp.congr_right hab]
  · refine List.pairwise_of_forall_mem_list ?_
    intro a ha b hb
    exact Std.TransCmp.isLE_trans (equal a ha).2 (equal b hb).1
  · intro a ha b hb
    have hb := (List.mem_filter.mp hb).2
    exact Std.TransCmp.isLE_trans (equal a ha).2 (by simp at hb; simp [hb])

theorem Division.between_of {xs : List α} {pivot : α} :
    Division.Of order xs (.between (xs.filter fun x => order x pivot == .lt) pivot
      (xs.filter fun x => !(order x pivot == .lt))) := by
  refine ⟨(Ties.filter_append_filter ?_ xs).symm, ?_, ?_⟩
  · intro a b hab
    rw [tied, beq_iff_eq] at hab
    rw [Std.TransCmp.congr_left hab]
  · intro a ha
    simpa using ha
  · intro b hb
    simpa using (List.mem_filter.mp hb).2

theorem divideAtPivot_eq {bound : Option α} {first : α} {rest : List α}
    (hbound : ∀ b ∈ bound, ∀ a ∈ first :: rest, order a b ≠ .lt) :
    ∃ d, divideAtPivot (m := m) (askLess order) bound first rest = pure d ∧
      Division.Of order (first :: rest) d := by
  obtain ⟨i, hi⟩ : ∃ i, pivotIndex (m := m) (askLess order) first (first :: rest).toArray = pure i :=
    pseudoMedian_eq _ _ _ _ _
  rcases hcut : cutAt first rest i with ⟨before, pivot, after⟩
  have whole : before ++ pivot :: after = first :: rest := by
    have := cutAt_append first rest i
    rwa [hcut] at this
  have irrefl : (order pivot pivot == .lt) = false := by
    simp [Std.ReflCmp.compare_self]
  have byLess := divide_eq (m := m) (fun x => order x pivot == .lt) before pivot after
  have byEqual := divide_eq (m := m) (fun x => !(order pivot x == .lt)) before pivot after
  simp only [irrefl, Bool.not_false, whole] at byLess byEqual
  simp only [divideAtPivot, hi, hcut, askLess, pure_bind, byLess, byEqual, List.isEmpty_nil,
    ↓reduceIte]
  -- with no element less than the pivot, it is the elements equal to it that go first
  have least : (∀ a ∈ first :: rest, order a pivot ≠ .lt) → ∃ d,
      (pure (Division.least ((first :: rest).filter fun x => !(order pivot x == .lt))
        ((first :: rest).filter fun x => !!(order pivot x == .lt))) : m (Division α)) = pure d ∧
      Division.Of order (first :: rest) d := fun h => ⟨_, rfl, Division.least_of h⟩
  have divided : ∃ d,
      (if ((first :: rest).filter fun x => order x pivot == .lt).isEmpty = true then
        pure (Division.least ((first :: rest).filter fun x => !(order pivot x == .lt))
          ((first :: rest).filter fun x => !!(order pivot x == .lt)))
      else pure (Division.between ((first :: rest).filter fun x => order x pivot == .lt) pivot
          ((first :: rest).filter fun x => !(order x pivot == .lt))) : m (Division α)) = pure d ∧
      Division.Of order (first :: rest) d := by
    split
    · rename_i hempty
      refine least fun a ha hlt => ?_
      rw [List.isEmpty_iff, List.filter_eq_nil_iff] at hempty
      exact hempty a ha (by simp [hlt])
    · exact ⟨_, rfl, Division.between_of⟩
  cases bound with
  | none => exact divided
  | some b =>
    by_cases hleast : order b pivot = .lt
    · simpa [hleast] using divided
    -- the bound is a pivot of before: nothing here is less than it, nor than this one
    · have pivotLeast : ∀ a ∈ first :: rest, order a pivot ≠ .lt := by
        intro a ha hlt
        exact hbound b rfl a ha (Std.TransCmp.lt_of_lt_of_isLE hlt (isLE_of_not_lt hleast))
      simpa [hleast] using least pivotLeast

/-! ## Sorting by division -/

variable (order) in
theorem eagerPlan_valid : (eagerPlan (m := m) (askLess order)).Valid order true where
  make xs := by
    refine ⟨⟨stableSort order xs, true⟩, ?_, ties_stableSort xs, fun _ => inOrder_stableSort xs,
      fun _ => rfl⟩
    simp only [eagerPlan, sortShort_eq, pure_bind]
  settle xs := sortShort_eq xs

theorem sortByRuns_eq (xs : List α) :
    sortByRuns (m := m) (askLess order) xs = pure (stableSort order xs) := by
  obtain ⟨run, hrun, hof⟩ := runOf_eq (eagerPlan_valid (m := m) order) xs
  rw [sortByRuns, hrun, pure_bind, eq_stableSort (hof.inOrder (hof.sorted rfl)) hof.ties]

omit [LawfulMonad m] [Std.TransCmp order] in
theorem sortByDivision_nil (limit : Nat) (bound : Option α) :
    sortByDivision (m := m) (askLess order) limit bound [] = pure (stableSort order []) := by
  simp [sortByDivision, stableSort]

theorem sortByDivision_eq (limit : Nat) (bound : Option α) (xs : List α)
    (hbound : ∀ b ∈ bound, ∀ a ∈ xs, order a b ≠ .lt) :
    sortByDivision (m := m) (askLess order) limit bound xs = pure (stableSort order xs) := by
  -- by induction on the divisions left; with none left the runs take over
  induction limit generalizing bound xs with
  | zero =>
    cases xs with
    | nil => exact sortByDivision_nil 0 bound
    | cons first rest =>
      rw [sortByDivision]
      · split
        · exact sortShort_eq _
        · exact sortByRuns_eq _
      · simp
  | succ limit ih =>
    cases xs with
    | nil => exact sortByDivision_nil (limit + 1) bound
    | cons first rest =>
      rw [sortByDivision]
      split
      · exact sortShort_eq _
      · obtain ⟨d, hd, hof⟩ := divideAtPivot_eq (m := m) hbound
        simp only [hd, liftM_pure, pure_bind]
        cases d with
        | least equal greater =>
          obtain ⟨hties, hequal, hcross⟩ := hof
          have whole : InOrder order (equal ++ stableSort order greater) :=
            List.pairwise_append.mpr ⟨hequal, inOrder_stableSort _, fun a ha b hb =>
              hcross a ha b ((perm_stableSort _).mem_iff.mp hb)⟩
          simp only [ih none greater (by simp), adapt_pure, pure_bind]
          rw [eq_stableSort whole (((Ties.refl equal).append (ties_stableSort greater)).trans hties)]
        | between low pivot high =>
          obtain ⟨hties, hlow, hhigh⟩ := hof
          have lowBound : ∀ b ∈ bound, ∀ a ∈ low, order a b ≠ .lt :=
            fun b hb a ha => hbound b hb a (hlow a ha).1
          have highBound : ∀ b ∈ some pivot, ∀ a ∈ high, order a b ≠ .lt := by
            intro b hb
            obtain rfl := Option.mem_some.mp hb
            exact hhigh
          have whole : InOrder order (stableSort order low ++ stableSort order high) :=
            List.pairwise_append.mpr ⟨inOrder_stableSort _, inOrder_stableSort _, fun a ha b hb => by
              have hap := (hlow a ((perm_stableSort _).mem_iff.mp ha)).2
              have hpb := isLE_of_not_lt (hhigh b ((perm_stableSort _).mem_iff.mp hb))
              simp [Std.TransCmp.lt_of_lt_of_isLE hap hpb]⟩
          simp only [ih _ high highBound, ih _ low lowBound, adapt_pure, pure_bind]
          rw [eq_stableSort whole (((ties_stableSort low).append (ties_stableSort high)).trans hties)]

theorem sortDividing_eq (xs : List α) :
    sortDividing (m := m) (askLess order) xs = pure (stableSort order xs) :=
  sortByDivision_eq _ none xs (by simp)

/-! ## The sort -/

variable (order) in
theorem lazyPlan_valid (n : Nat) : (lazyPlan (m := m) (askLess order) n).Valid order false where
  make xs := ⟨⟨xs, false⟩, rfl, Ties.refl xs, (by simp), (by simp)⟩
  settle xs := sortDividing_eq xs

/-- Sorting by a valid comparator has no effects and gives the stable sort. -/
theorem sort_eq (xs : List α) :
    sort (m := m) (askLess order) xs = pure (stableSort order xs) := by
  rw [sort]
  by_cases hinsert : xs.length ≤ insertionLimit
  · rw [if_pos hinsert, insertionSort_eq, liftM_pure]
  · rw [if_neg hinsert]
    split
    · exact sortByRuns_eq xs
    · obtain ⟨run, hrun, hof⟩ := runOf_eq (lazyPlan_valid (m := m) order xs.length) xs
      rw [hrun, pure_bind]
      split
      · rename_i hsorted
        rw [eq_stableSort (hof.inOrder hsorted) hof.ties]
      · rw [sortDividing_eq, stableSort_congr hof.ties]

end StableSort
end ExternalSort
