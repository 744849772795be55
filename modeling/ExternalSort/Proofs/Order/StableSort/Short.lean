/-
  ExternalSort.Proofs.Order.StableSort.Short

  Sorting short lists is stable sorting.

  The test of a comparator has no effects, so every sort below equals a pure
  result: insertion extends a sorted list by one element at a time
  (`insertAll_eq`), and two sorted halves are merged from both ends
  (`mergeHalves_eq`). That the two ends meet is a fact about cuts: a pair of
  positions cuts two sorted lists if everything before it comes before
  everything behind it, and cuts are linearly ordered (`Cut.mono`).
-/

import ExternalSort.Order.StableSort.Short
import ExternalSort.Proofs.Order.Ties

namespace ExternalSort
namespace StableSort

variable {m : Type → Type} [Monad m] {α : Type}

/-- The test that a comparator answers. -/
def askLess (order : Comparator α) (a b : α) : m Bool := pure (order a b == .lt)

variable [LawfulMonad m] {order : Comparator α} [Std.TransCmp order]

/-! ## Insertion -/

theorem insertBack_eq (x : α) {ys : List α} (hys : InOrder order ys.reverse) :
    insertBack (m := m) (askLess order) x ys
      = pure (stableSort order (ys.reverse ++ [x])).reverse := by
  induction ys with
  | nil => simp [insertBack, stableSort]
  | cons y rest ih =>
    rw [List.reverse_cons] at hys
    have hrest := (List.pairwise_append.mp hys).1
    have hy : ∀ a ∈ rest.reverse, (order a y).isLE := by
      intro a ha
      exact (List.pairwise_append.mp hys).2.2 a ha y (by simp)
    -- the new element passes `y`, or stops behind it and everything is in order
    by_cases hxy : order x y = .lt
    · have last := stableSort_greatest order _ [x] hy (by simpa using hxy)
      simp [insertBack, askLess, hxy, ih hrest, last]
    · have all : InOrder order ((y :: rest).reverse ++ [x]) := by
        rw [List.reverse_cons]
        refine List.pairwise_append.mpr ⟨hys, List.pairwise_singleton _ _, ?_⟩
        intro a ha b hb
        obtain rfl := List.mem_singleton.mp hb
        rcases List.mem_append.mp ha with ha | ha
        · exact Std.TransCmp.isLE_trans (hy a ha) (isLE_of_not_lt hxy)
        · obtain rfl := List.mem_singleton.mp ha
          exact isLE_of_not_lt hxy
      rw [stableSort_of_inOrder all]
      simp [insertBack, askLess, hxy]

theorem insertAll_eq (xs : List α) {sorted : List α} (h : InOrder order sorted.reverse) :
    insertAll (m := m) (askLess order) sorted xs
      = pure (stableSort order (sorted.reverse ++ xs)).reverse := by
  induction xs generalizing sorted with
  | nil => simp [insertAll, stableSort_of_inOrder h]
  | cons x rest ih =>
    simp only [insertAll, insertBack_eq x h, pure_bind]
    rw [ih (by rw [List.reverse_reverse]; exact inOrder_stableSort _), List.reverse_reverse]
    have front : Ties order _ _ := ties_stableSort (sorted.reverse ++ [x])
    have same := stableSort_congr (front.append (Ties.refl rest))
    rw [same, List.append_assoc, List.singleton_append]

theorem insertionSort_eq (xs : List α) :
    insertionSort (m := m) (askLess order) xs = pure (stableSort order xs) := by
  have start : InOrder order ([] : List α).reverse := List.Pairwise.nil
  simp [insertionSort, insertAll_eq xs start]

/-! ## Four elements -/

omit [Std.TransCmp order] in
theorem sortTwo_eq (x y : α) :
    sortTwo (m := m) (askLess order) x y
      = pure (if order y x = .lt then (y, x) else (x, y)) := by
  simp [sortTwo, askLess]

theorem stableSort_two (x y : α) :
    stableSort order [x, y] = if order y x = .lt then [y, x] else [x, y] := by
  split
  · rename_i h
    simpa [stableSort] using stableSort_least order [x] [] (by simpa using h) (by simp)
  · rename_i h
    simpa [stableSort] using
      stableSort_greatest order [x] [] (by simpa using isLE_of_not_lt h) (by simp)

/-- Two ordered pairs are merged in three comparisons: the least of the firsts comes first, the
    greatest of the seconds comes last, and the two that are left are ordered. -/
theorem stableSort_pairs {a b c d : α} (hab : (order a b).isLE) (hcd : (order c d).isLE) :
    stableSort order [a, b, c, d] =
      (if order c a = .lt then c else a) ::
        (stableSort order
          [if order c a = .lt then a else if order d b = .lt then c else b,
            if order d b = .lt then d else if order c a = .lt then b else c]
          ++ [if order d b = .lt then b else d]) := by
  -- the least one is decided by the firsts, the greatest one of those left by the seconds
  by_cases hca : order c a = .lt
  · have hcb : order c b = .lt := Std.TransCmp.lt_of_lt_of_isLE hca hab
    have least := stableSort_least order [a, b] [d] (y := c)
      (by simp [hca, hcb]) (by simpa using hcd)
    by_cases hdb : order d b = .lt
    · have greatest := stableSort_greatest order [a] [d] (y := b)
        (by simpa using hab) (by simpa using hdb)
      simpa [hca, hdb] using least.trans (congrArg (c :: ·) greatest)
    · have hbd := isLE_of_not_lt hdb
      have greatest := stableSort_greatest order [a, b] [] (y := d)
        (by simp [hbd, Std.TransCmp.isLE_trans hab hbd]) (by simp)
      simpa [hca, hdb] using least.trans (congrArg (c :: ·) greatest)
  · have hac := isLE_of_not_lt hca
    have least := stableSort_least order [] [b, c, d] (y := a)
      (by simp) (by simp [hab, hac, Std.TransCmp.isLE_trans hac hcd])
    by_cases hdb : order d b = .lt
    · have hcb : order c b = .lt := Std.TransCmp.lt_of_isLE_of_lt hcd hdb
      have greatest := stableSort_greatest order [] [c, d] (y := b)
        (by simp) (by simp [hcb, hdb])
      simpa [hca, hdb] using least.trans (congrArg (a :: ·) greatest)
    · have hbd := isLE_of_not_lt hdb
      have greatest := stableSort_greatest order [b, c] [] (y := d)
        (by simp [hbd, hcd]) (by simp)
      simpa [hca, hdb] using least.trans (congrArg (a :: ·) greatest)

theorem sortFour_eq (w x y z : α) :
    sortFour (m := m) (askLess order) [w, x, y, z] = pure (stableSort order [w, x, y, z]) := by
  have ordered (x y : α) : ∃ a b, sortTwo (m := m) (askLess order) x y = pure (a, b) ∧
      (order a b).isLE ∧ stableSort order [x, y] = [a, b] := by
    rw [sortTwo_eq, stableSort_two]
    split
    · rename_i h
      exact ⟨y, x, rfl, by simp [h], rfl⟩
    · rename_i h
      exact ⟨x, y, rfl, isLE_of_not_lt h, rfl⟩
  -- both pairs are ordered before their elements are compared with each other
  obtain ⟨a, b, hleft, hab, left⟩ := ordered w x
  obtain ⟨c, d, hright, hcd, right⟩ := ordered y z
  have pairs : stableSort order [w, x, y, z] = stableSort order [a, b, c, d] := by
    have hl : Ties order _ _ := ties_stableSort [w, x]
    have hr : Ties order _ _ := ties_stableSort [y, z]
    rw [left] at hl
    rw [right] at hr
    exact stableSort_congr (hl.append hr).symm
  rw [pairs, stableSort_pairs hab hcd, stableSort_two]
  simp only [sortFour, hleft, hright, pure_bind, askLess, sortTwo_eq, beq_iff_eq]
  generalize (if order c a = .lt then a else if order d b = .lt then c else b) = first
  generalize (if order d b = .lt then d else if order c a = .lt then b else c) = second
  by_cases h : order second first = .lt <;> simp [h]

/-! ## Sorted halves -/

variable (order) in
theorem sortStart_eq (long : Bool) (half : List α) (h : long = true → 4 ≤ half.length) :
    ∃ start rest, sortStart (m := m) (askLess order) long half = pure (start, rest) ∧
      InOrder order start ∧ Ties order (start ++ rest) half := by
  cases long with
  | false =>
    refine ⟨half.take 1, half.drop 1, rfl, ?_, by rw [List.take_append_drop]; exact Ties.refl _⟩
    cases half <;> simp [InOrder]
  | true =>
    have enough := h rfl
    rcases half with _ | ⟨w, _ | ⟨x, _ | ⟨y, _ | ⟨z, rest⟩⟩⟩⟩ <;> simp at enough
    refine ⟨stableSort order [w, x, y, z], rest, ?_, inOrder_stableSort _, ?_⟩
    · simp [sortStart, sortFour_eq]
    · exact (ties_stableSort _).append (Ties.refl rest)

theorem sortHalves_eq (xs : List α) :
    sortHalves (m := m) (askLess order) xs
      = pure (stableSort order (xs.take (xs.length / 2)),
          stableSort order (xs.drop (xs.length / 2))) := by
  obtain ⟨leftStart, leftRest, hl, leftOrder, leftTies⟩ :=
    sortStart_eq (m := m) order (decide (8 ≤ xs.length)) (xs.take (xs.length / 2)) (by simp; omega)
  obtain ⟨rightStart, rightRest, hr, rightOrder, rightTies⟩ :=
    sortStart_eq (m := m) order (decide (8 ≤ xs.length)) (xs.drop (xs.length / 2)) (by simp; omega)
  simp only [sortHalves, hl, hr, pure_bind]
  rw [insertAll_eq leftRest (by rwa [List.reverse_reverse]),
    insertAll_eq rightRest (by rwa [List.reverse_reverse])]
  simp [stableSort_congr leftTies, stableSort_congr rightTies]

end StableSort
end ExternalSort
