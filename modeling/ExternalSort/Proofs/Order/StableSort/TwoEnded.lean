/-
  ExternalSort.Proofs.Order.StableSort.TwoEnded

  Merging two sorted halves from both ends is stable sorting.

  A pair of positions cuts two sorted lists if everything before it comes before
  everything behind it (`Cut`). The front moves a cut up, the back moves another
  one down, and cuts do not cross (`Cut.mono`). So after as many steps as the
  left half is long the two cuts are the same, or one element lies between them.
-/

import ExternalSort.Proofs.Order.StableSort.Short

namespace ExternalSort
namespace StableSort

variable {m : Type → Type} [Monad m] {α : Type}
variable [LawfulMonad m] {order : Comparator α} [Std.TransCmp order] {left right : List α}

/-! ## Cuts -/

/-- Everything before the position `i` of one list and `j` of the other comes before everything
    behind them; equal elements of the left list come first. -/
structure Cut (order : Comparator α) (left right : List α) (i j : Nat) : Prop where
  left_le : i ≤ left.length
  right_le : j ≤ right.length
  left_first : ∀ a ∈ left.take i, ∀ b ∈ right.drop j, (order a b).isLE
  right_first : ∀ b ∈ right.take j, ∀ a ∈ left.drop i, order b a = .lt

omit [Std.TransCmp order] in
theorem Cut.start : Cut order left right 0 0 := by
  constructor <;> simp

omit [Std.TransCmp order] in
theorem Cut.stop : Cut order left right left.length right.length := by
  constructor <;> simp

/-- Cuts do not cross. -/
theorem Cut.mono {i j i' j' : Nat} (h : Cut order left right i j)
    (k : Cut order left right i' j') (le : i + j ≤ i' + j') : i ≤ i' ∧ j ≤ j' := by
  have key {i j i' j' : Nat} (h : Cut order left right i j) (k : Cut order left right i' j')
      (hi : i' < i) (hj : j < j') : False := by
    have hi' : i' < left.length := Nat.lt_of_lt_of_le hi h.left_le
    have hj' : j < right.length := Nat.lt_of_lt_of_le hj k.right_le
    have first := h.left_first left[i'] (List.mem_take_iff_getElem.mpr ⟨i', by omega, rfl⟩)
      right[j] (List.mem_drop_iff_getElem.mpr ⟨0, by omega, by simp⟩)
    have second := k.right_first right[j] (List.mem_take_iff_getElem.mpr ⟨j, by omega, rfl⟩)
      left[i'] (List.mem_drop_iff_getElem.mpr ⟨0, by omega, by simp⟩)
    rw [Std.OrientedCmp.gt_of_lt second] at first
    exact absurd first (by decide)
  constructor
  · exact Nat.not_lt.mp fun hi => key h k hi (by omega)
  · exact Nat.not_lt.mp fun hj => key k h (by omega) hj

/-! ## Moving a cut -/

/-- The lesser of the elements behind a cut moves it up. -/
theorem Cut.up_right {i j : Nat} (cut : Cut order left right i j) (hleft : InOrder order left)
    (hi : i < left.length) (hj : j < right.length) (h : order right[j] left[i] = .lt) :
    Cut order left right i (j + 1) := by
  refine ⟨cut.left_le, hj, ?_, ?_⟩
  · intro a ha b hb
    refine cut.left_first a ha b ?_
    rw [List.drop_eq_getElem_cons hj]
    exact List.mem_cons_of_mem _ hb
  · intro b hb a ha
    rw [List.take_succ_eq_append_getElem hj] at hb
    rcases List.mem_append.mp hb with hb | hb
    · exact cut.right_first b hb a ha
    · obtain rfl := List.mem_singleton.mp hb
      rw [List.drop_eq_getElem_cons hi] at ha
      rcases List.mem_cons.mp ha with rfl | ha
      · exact h
      · exact Std.TransCmp.lt_of_lt_of_isLE h (hleft.behind hi a ha)

theorem Cut.up_left {i j : Nat} (cut : Cut order left right i j) (hright : InOrder order right)
    (hi : i < left.length) (hj : j < right.length) (h : order right[j] left[i] ≠ .lt) :
    Cut order left right (i + 1) j := by
  refine ⟨hi, cut.right_le, ?_, ?_⟩
  · intro a ha b hb
    rw [List.take_succ_eq_append_getElem hi] at ha
    rcases List.mem_append.mp ha with ha | ha
    · exact cut.left_first a ha b hb
    · obtain rfl := List.mem_singleton.mp ha
      rw [List.drop_eq_getElem_cons hj] at hb
      rcases List.mem_cons.mp hb with rfl | hb
      · exact isLE_of_not_lt h
      · exact Std.TransCmp.isLE_trans (isLE_of_not_lt h) (hright.behind hj b hb)
  · intro b hb a ha
    refine cut.right_first b hb a ?_
    rw [List.drop_eq_getElem_cons hi]
    exact List.mem_cons_of_mem _ ha

/-- The greater of the elements before a cut moves it down. -/
theorem Cut.down_left {i j : Nat} (cut : Cut order left right (i + 1) (j + 1))
    (hright : InOrder order right) (hi : i < left.length) (hj : j < right.length)
    (h : order right[j] left[i] = .lt) : Cut order left right i (j + 1) := by
  refine ⟨by omega, cut.right_le, ?_, ?_⟩
  · intro a ha b hb
    refine cut.left_first a ?_ b hb
    rw [List.take_succ_eq_append_getElem hi]
    exact List.mem_append_left _ ha
  · intro b hb a ha
    rw [List.drop_eq_getElem_cons hi] at ha
    rcases List.mem_cons.mp ha with rfl | ha
    · rw [List.take_succ_eq_append_getElem hj] at hb
      rcases List.mem_append.mp hb with hb | hb
      · exact Std.TransCmp.lt_of_isLE_of_lt (hright.before hj b hb) h
      · obtain rfl := List.mem_singleton.mp hb
        exact h
    · exact cut.right_first b hb a ha

theorem Cut.down_right {i j : Nat} (cut : Cut order left right (i + 1) (j + 1))
    (hleft : InOrder order left) (hi : i < left.length) (hj : j < right.length)
    (h : order right[j] left[i] ≠ .lt) : Cut order left right (i + 1) j := by
  refine ⟨cut.left_le, by omega, ?_, ?_⟩
  · intro a ha b hb
    rw [List.drop_eq_getElem_cons hj] at hb
    rcases List.mem_cons.mp hb with rfl | hb
    · rw [List.take_succ_eq_append_getElem hi] at ha
      rcases List.mem_append.mp ha with ha | ha
      · exact Std.TransCmp.isLE_trans (hleft.before hi a ha) (isLE_of_not_lt h)
      · obtain rfl := List.mem_singleton.mp ha
        exact isLE_of_not_lt h
    · exact cut.left_first a ha b hb
  · intro b hb a ha
    refine cut.right_first b ?_ a ha
    rw [List.take_succ_eq_append_getElem hj]
    exact List.mem_append_left _ hb

/-- Of what is before a cut and the next element of the right list, that element comes last. -/
theorem Cut.stableSort_up_right {i j : Nat} (cut : Cut order left right i j)
    (hright : InOrder order right) (hj : j < right.length) :
    stableSort order (left.take i ++ right.take (j + 1)) =
      stableSort order (left.take i ++ right.take j) ++ [right[j]] := by
  have before : ∀ a ∈ left.take i ++ right.take j, (order a right[j]).isLE := by
    intro a ha
    rcases List.mem_append.mp ha with ha | ha
    · refine cut.left_first a ha _ ?_
      rw [List.drop_eq_getElem_cons hj]
      exact List.mem_cons_self
    · exact hright.before hj a ha
  have last := stableSort_greatest order _ [] before (by simp)
  rw [List.take_succ_eq_append_getElem hj, ← List.append_assoc, last, List.append_nil]

theorem Cut.stableSort_up_left {i j : Nat} (cut : Cut order left right i j)
    (hleft : InOrder order left) (hi : i < left.length) :
    stableSort order (left.take (i + 1) ++ right.take j) =
      stableSort order (left.take i ++ right.take j) ++ [left[i]] := by
  have behind : ∀ b ∈ right.take j, order b left[i] = .lt := by
    intro b hb
    refine cut.right_first b hb _ ?_
    rw [List.drop_eq_getElem_cons hi]
    exact List.mem_cons_self
  have last := stableSort_greatest order _ _ (hleft.before hi) behind
  rw [List.take_succ_eq_append_getElem hi, List.append_assoc, List.singleton_append, last]

/-- Everything before a cut comes before everything behind it. -/
theorem Cut.stableSort_append {i j : Nat} (cut : Cut order left right i j)
    (hleft : InOrder order left) (hright : InOrder order right) :
    stableSort order (left.take i ++ right.take j)
      ++ stableSort order (left.drop i ++ right.drop j) = stableSort order (left ++ right) := by
  refine eq_stableSort ?_ ?_
  · refine List.pairwise_append.mpr ⟨inOrder_stableSort _, inOrder_stableSort _, ?_⟩
    intro a ha b hb
    have hcross {xs : List α} (h : InOrder order xs) (k : Nat) :
        ∀ a ∈ xs.take k, ∀ b ∈ xs.drop k, (order a b).isLE := by
      rw [InOrder, ← List.take_append_drop k xs] at h
      exact (List.pairwise_append.mp h).2.2
    rcases List.mem_append.mp ((perm_stableSort _).mem_iff.mp ha) with ha | ha <;>
      rcases List.mem_append.mp ((perm_stableSort _).mem_iff.mp hb) with hb | hb
    · exact hcross hleft i a ha b hb
    · exact cut.left_first a ha b hb
    · simp [cut.right_first a ha b hb]
    · exact hcross hright j a ha b hb
  · refine ((ties_stableSort _).append (ties_stableSort _)).trans ?_
    -- only the middle parts change places, and no element of one is tied to one of the other
    have swap : Ties order (right.take j ++ left.drop i) (left.drop i ++ right.take j) := by
      intro x
      by_cases hx : (right.take j).filter (tied order x) = []
      · rw [List.filter_append, List.filter_append, hx, List.append_nil, List.nil_append]
      · obtain ⟨b, hb⟩ := List.exists_mem_of_ne_nil _ hx
        have hxb := (List.mem_filter.mp hb).2
        have none : (left.drop i).filter (tied order x) = [] := by
          rw [List.filter_eq_nil_iff]
          intro a ha
          rw [tied_congr hxb, tied, cut.right_first b (List.mem_filter.mp hb).1 a ha]
          decide
        rw [List.filter_append, List.filter_append, none, List.append_nil, List.nil_append]
    have moved := ((Ties.refl (left.take i)).append swap).append (Ties.refl (right.drop j))
    rw [← List.append_assoc (left.take i) (left.drop i), List.take_append_drop,
      List.append_assoc left, List.take_append_drop] at moved
    simpa only [List.append_assoc] using moved

/-! ## The two ends -/

/-- The front has taken the elements before a cut, `k` of them. -/
def FrontAt (order : Comparator α) (left right : List α) (k : Nat) (lefts rights low : List α) :
    Prop :=
  ∃ i j, i + j = k ∧ Cut order left right i j ∧ lefts = left.drop i ∧ rights = right.drop j ∧
    low.reverse = stableSort order (left.take i ++ right.take j)

/-- The back has taken the elements behind a cut, all but `k` of them. -/
def BackAt (order : Comparator α) (left right : List α) (k : Nat) (lefts rights high : List α) :
    Prop :=
  ∃ i j, i + j = k ∧ Cut order left right i j ∧ lefts = (left.take i).reverse ∧
    rights = (right.take j).reverse ∧ high = stableSort order (left.drop i ++ right.drop j)

theorem takeLeast_eq {k : Nat} {e : Ends α} (hleft : InOrder order left)
    (hright : InOrder order right)
    (h : FrontAt order left right k e.leftFront e.rightFront e.low)
    (hkl : k < left.length) (hkr : k < right.length) :
    ∃ lefts rights low, e.takeLeast (m := m) (askLess order)
        = pure { e with leftFront := lefts, rightFront := rights, low := low } ∧
      FrontAt order left right (k + 1) lefts rights low := by
  obtain ⟨leftFront, rightFront, leftBack, rightBack, low, high⟩ := e
  obtain ⟨i, j, rfl, cut, rfl, rfl, hlow⟩ := h
  have hi : i < left.length := by omega
  have hj : j < right.length := by omega
  have hl := List.drop_eq_getElem_cons hi
  have hr := List.drop_eq_getElem_cons hj
  by_cases hlt : order right[j] left[i] = .lt
  · refine ⟨left.drop i, right.drop (j + 1), right[j] :: low, ?_, i, j + 1, by omega,
      cut.up_right hleft hi hj hlt, rfl, rfl, ?_⟩
    · simp only [Ends.takeLeast, hl, hr, askLess]
      simp [hlt]
    · rw [List.reverse_cons, hlow, cut.stableSort_up_right hright hj]
  · refine ⟨left.drop (i + 1), right.drop j, left[i] :: low, ?_, i + 1, j, by omega,
      cut.up_left hright hi hj hlt, rfl, rfl, ?_⟩
    · simp only [Ends.takeLeast, hl, hr, askLess]
      simp [hlt]
    · rw [List.reverse_cons, hlow, cut.stableSort_up_left hleft hi]

theorem takeGreatest_eq {k : Nat} {e : Ends α} (hleft : InOrder order left)
    (hright : InOrder order right)
    (h : BackAt order left right (k + 1) e.leftBack e.rightBack e.high)
    (hkl : left.length ≤ k) (hkr : right.length ≤ k) :
    ∃ lefts rights high, e.takeGreatest (m := m) (askLess order)
        = pure { e with leftBack := lefts, rightBack := rights, high := high } ∧
      BackAt order left right k lefts rights high := by
  obtain ⟨leftFront, rightFront, leftBack, rightBack, low, high⟩ := e
  obtain ⟨i, j, sum, cut, rfl, rfl, rfl⟩ := h
  have := cut.left_le
  have := cut.right_le
  obtain ⟨i, rfl⟩ : ∃ i', i = i' + 1 := ⟨i - 1, by omega⟩
  obtain ⟨j, rfl⟩ : ∃ j', j = j' + 1 := ⟨j - 1, by omega⟩
  have hi : i < left.length := by omega
  have hj : j < right.length := by omega
  -- both lists have a last element left, since the other one is no longer than `k`
  have left_mem : left[i] ∈ left.take (i + 1) := by
    rw [List.take_succ_eq_append_getElem hi]
    exact List.mem_append_right _ (List.mem_singleton_self _)
  have right_mem : right[j] ∈ right.take (j + 1) := by
    rw [List.take_succ_eq_append_getElem hj]
    exact List.mem_append_right _ (List.mem_singleton_self _)
  have hl : (left.take (i + 1)).reverse = left[i] :: (left.take i).reverse := by
    rw [List.take_succ_eq_append_getElem hi, List.reverse_append]
    rfl
  have hr : (right.take (j + 1)).reverse = right[j] :: (right.take j).reverse := by
    rw [List.take_succ_eq_append_getElem hj, List.reverse_append]
    rfl
  by_cases hlt : order right[j] left[i] = .lt
  · refine ⟨(left.take i).reverse, (right.take (j + 1)).reverse,
      left[i] :: stableSort order (left.drop (i + 1) ++ right.drop (j + 1)), ?_, i, j + 1,
      by omega, cut.down_left hright hi hj hlt, rfl, rfl, ?_⟩
    · simp only [Ends.takeGreatest, hl, hr, askLess]
      simp [hlt]
    · have behind : ∀ b ∈ left.drop (i + 1) ++ right.drop (j + 1), (order left[i] b).isLE := by
        intro b hb
        rcases List.mem_append.mp hb with hb | hb
        · exact hleft.behind hi b hb
        · exact cut.left_first _ left_mem b hb
      have first := stableSort_least order [] _ (by simp) behind
      rw [List.drop_eq_getElem_cons hi]
      exact first.symm
  · refine ⟨(left.take (i + 1)).reverse, (right.take j).reverse,
      right[j] :: stableSort order (left.drop (i + 1) ++ right.drop (j + 1)), ?_, i + 1, j,
      by omega, cut.down_right hleft hi hj hlt, rfl, rfl, ?_⟩
    · simp only [Ends.takeGreatest, hl, hr, askLess]
      simp [hlt]
    · have first := stableSort_least order _ _ (cut.right_first _ right_mem) (hright.behind hj)
      rw [List.drop_eq_getElem_cons hj]
      exact first.symm

/-- Both ends move at each step. -/
theorem takeBoth_eq (steps : Nat) {k n : Nat} {e : Ends α} (hleft : InOrder order left)
    (hright : InOrder order right) (hn : left.length + right.length = n)
    (hfront : FrontAt order left right k e.leftFront e.rightFront e.low)
    (hback : BackAt order left right (n - k) e.leftBack e.rightBack e.high)
    (hl : k + steps ≤ left.length) (hr : k + steps ≤ right.length) :
    ∃ e', Ends.takeBoth (m := m) (askLess order) steps e = pure e' ∧
      FrontAt order left right (k + steps) e'.leftFront e'.rightFront e'.low ∧
      BackAt order left right (n - (k + steps)) e'.leftBack e'.rightBack e'.high := by
  induction steps generalizing k e with
  | zero => exact ⟨e, rfl, hfront, hback⟩
  | succ steps ih =>
    obtain ⟨lefts, rights, low, heq, hfront⟩ :=
      takeLeast_eq (m := m) hleft hright hfront (by omega) (by omega)
    obtain ⟨lefts', rights', high, heq', hback⟩ :=
      takeGreatest_eq (m := m) (k := n - (k + 1))
        (e := { e with leftFront := lefts, rightFront := rights, low := low }) hleft hright
        (by rwa [show n - (k + 1) + 1 = n - k by omega]) (by omega) (by omega)
    obtain ⟨e', hrun, hfront, hback⟩ := ih (e := { e with
        leftFront := lefts, rightFront := rights, low := low
        leftBack := lefts', rightBack := rights', high := high })
      hfront hback (by omega) (by omega)
    rw [show k + 1 + steps = k + (steps + 1) by omega] at hfront hback
    exact ⟨e', by simp only [Ends.takeBoth, heq, heq', pure_bind, hrun], hfront, hback⟩

/-! ## Meeting -/

/-- The ends meet: their cuts are the same, or lie one element apart. -/
theorem meet?_eq {half : Nat} {e : Ends α} (hleft : InOrder order left)
    (hright : InOrder order right) (hhalf : left.length = half)
    (hlen : right.length = half ∨ right.length = half + 1)
    (hfront : FrontAt order left right half e.leftFront e.rightFront e.low)
    (hback : BackAt order left right right.length e.leftBack e.rightBack e.high) :
    e.meet? half (half < right.length) = some (stableSort order (left ++ right)) := by
  obtain ⟨i, j, sum, cut, hl, hr, low⟩ := hfront
  obtain ⟨i', j', sum', cut', hl', hr', high⟩ := hback
  have := cut'.left_le
  have := cut'.right_le
  obtain ⟨hi, hj⟩ := cut.mono cut' (by omega)
  have untaken : e.leftFront.length + e.leftBack.length = half - i + i' := by
    rw [hl, hl', List.length_drop, List.length_reverse, List.length_take]
    omega
  have whole := cut'.stableSort_append hleft hright
  rw [← high] at whole
  rw [Ends.meet?, untaken, low, ← whole]
  -- the halves are equally long, or the element between the cuts is the next one of either list
  rcases hlen with heven | hodd
  · obtain rfl : i' = i := by omega
    obtain rfl : j' = j := by omega
    rw [if_pos (by omega)]
    simp [heven]
  · by_cases hleftNext : i' = i
    · subst hleftNext
      obtain rfl : j' = j + 1 := by omega
      have hj' : j < right.length := by omega
      have next : e.rightFront.take 1 = [right[j]] := by
        rw [hr, List.drop_eq_getElem_cons hj', List.take_succ_cons, List.take_zero]
      rw [if_pos (by omega), cut.stableSort_up_right hright hj']
      simp [hodd, next]
    · obtain rfl : i' = i + 1 := by omega
      obtain rfl : j' = j := by omega
      have hi' : i < left.length := by omega
      have next : e.leftFront.take 1 = [left[i]] := by
        rw [hl, List.drop_eq_getElem_cons hi', List.take_succ_cons, List.take_zero]
      rw [if_neg (by omega), if_pos (by simp [hodd]; omega), next,
        cut.stableSort_up_left hleft hi']

theorem mergeHalves_eq (hleft : InOrder order left) (hright : InOrder order right)
    (hlen : right.length = left.length ∨ right.length = left.length + 1) :
    mergeHalves (m := m) (askLess order) left right = pure (stableSort order (left ++ right)) := by
  have hfront : FrontAt order left right 0 left right [] :=
    ⟨0, 0, rfl, Cut.start, rfl, rfl, by simp [stableSort]⟩
  have hback : BackAt order left right (left.length + right.length - 0) left.reverse
      right.reverse [] :=
    ⟨left.length, right.length, rfl, Cut.stop, by simp, by simp, by simp [stableSort]⟩
  obtain ⟨e, hrun, hfront, hback⟩ := takeBoth_eq (m := m) left.length
    (e := Ends.ofHalves left right) hleft hright rfl hfront hback (by omega) (by omega)
  rw [Nat.zero_add] at hfront hback
  rw [Nat.add_sub_cancel_left] at hback
  have met := meet?_eq hleft hright rfl hlen hfront hback
  simp only [mergeHalves, hrun]
  simp [met]

theorem sortShort_eq (xs : List α) :
    sortShort (m := m) (askLess order) xs = pure (stableSort order xs) := by
  rw [sortShort]
  by_cases hshort : xs.length < 2
  · have : InOrder order xs := by
      match xs, hshort with
      | [], _ => exact List.Pairwise.nil
      | [x], _ => exact List.pairwise_singleton _ _
    rw [if_pos hshort, stableSort_of_inOrder this]
  · rw [if_neg hshort, sortHalves_eq]
    have merged : mergeHalves (m := m) (askLess order) _ _ = _ := mergeHalves_eq
      (inOrder_stableSort (xs.take (xs.length / 2)))
      (inOrder_stableSort (xs.drop (xs.length / 2)))
      (by simp only [(perm_stableSort _).length_eq, List.length_take, List.length_drop]; omega)
    have front : Ties order _ _ := ties_stableSort (xs.take (xs.length / 2))
    have whole := stableSort_congr (front.append (ties_stableSort (xs.drop (xs.length / 2))))
    rw [List.take_append_drop] at whole
    rw [whole] at merged
    simpa using merged

end StableSort
end ExternalSort
