/-
  ExternalSort.Proofs.Order.Ties

  What a stable sort gives.

  Two lists agree up to the order of unequal elements (`Ties`) if every class of
  elements that are equal in the order reads the same in both. A list has one
  arrangement that is in order and agrees with it in this sense
  (`eq_of_inOrder_of_ties`); it is called `stableSort`. So a sort is stable and
  right as soon as its result is in order and has the ties of its input.
-/

import ExternalSort.Order.Check

namespace ExternalSort

variable {α : Type}

/-- Whether two elements are equal in the order. -/
def tied (order : Comparator α) (x y : α) : Bool := order x y == .eq

/-- No element is greater than a later one. -/
def InOrder (order : Comparator α) (xs : List α) : Prop := xs.Pairwise fun a b => (order a b).isLE

/-- Elements that are equal in the order are the same in both lists, and stand in the same order. -/
def Ties (order : Comparator α) (xs ys : List α) : Prop :=
  ∀ x, xs.filter (tied order x) = ys.filter (tied order x)

/-- The elements in order; those that are equal in the order stand as they stood. -/
def stableSort (order : Comparator α) (xs : List α) : List α :=
  xs.mergeSort fun a b => (order a b).isLE

/-- A list arranges another one as a stable sort does. -/
structure StablySorts (order : Comparator α) (xs ys : List α) : Prop where
  perm : ys.Perm xs
  inOrder : InOrder order ys
  stable : ∀ x, ys.filter (tied order x) = xs.filter (tied order x)

/-- The order of elements by something that they carry. -/
def orderBy {β : Type} (order : Comparator α) (f : β → α) : Comparator β :=
  fun a b => order (f a) (f b)

instance {β : Type} {order : Comparator α} [Std.TransCmp order] (f : β → α) :
    Std.TransCmp (orderBy order f) where
  eq_swap {a b} := (Std.OrientedCmp.eq_swap : order (f a) (f b) = _)
  isLE_trans {a b c} :=
    (Std.TransCmp.isLE_trans : (order (f a) (f b)).isLE → (order (f b) (f c)).isLE → _)

variable {order : Comparator α}

/-- Sorting by what elements carry sorts that. -/
theorem map_stableSort {β : Type} (f : β → α) (xs : List β) :
    (stableSort (orderBy order f) xs).map f = stableSort order (xs.map f) :=
  List.map_mergeSort fun _ _ _ _ => rfl

/-! ## Equal elements -/

section Equal

variable [Std.TransCmp order] {a b x : α}

theorem tied_self : tied order a a = true := by
  simp [tied, Std.ReflCmp.compare_self]

/-- Equal elements are equal to the same ones. -/
theorem tied_congr (h : tied order a b = true) : tied order a x = tied order b x := by
  rw [tied, beq_iff_eq] at h
  rw [tied, tied, Std.TransCmp.congr_left h]

theorem isLE_total (a b : α) : (order a b).isLE || (order b a).isLE := by
  have swap : order b a = (order a b).swap := Std.OrientedCmp.eq_swap
  rw [swap]
  cases order a b <;> rfl

theorem isLE_of_not_lt (h : order a b ≠ .lt) : (order b a).isLE :=
  Std.OrientedCmp.isLE_of_isGE (Ordering.ne_lt_iff_isGE.mp h)

theorem tied_of_isLE (h : (order a b).isLE) (k : (order b a).isLE) : tied order a b = true := by
  rw [tied, beq_iff_eq]
  exact Std.OrientedCmp.isLE_antisymm h k

end Equal

/-! ## Elements in order -/

theorem InOrder.before {xs : List α} (h : InOrder order xs) {i : Nat} (hi : i < xs.length) :
    ∀ a ∈ xs.take i, (order a xs[i]).isLE := by
  rw [InOrder, ← List.take_append_drop i xs, List.drop_eq_getElem_cons hi] at h
  intro a ha
  exact (List.pairwise_append.mp h).2.2 a ha _ List.mem_cons_self

theorem InOrder.behind {xs : List α} (h : InOrder order xs) {i : Nat} (hi : i < xs.length) :
    ∀ a ∈ xs.drop (i + 1), (order xs[i] a).isLE := by
  rw [InOrder, ← List.take_append_drop i xs, List.drop_eq_getElem_cons hi] at h
  exact (List.pairwise_cons.mp (List.pairwise_append.mp h).2.1).1

/-! ## Agreement up to the order of unequal elements -/

namespace Ties

variable {xs ys zs us vs : List α}

theorem refl (xs : List α) : Ties order xs xs := fun _ => rfl

theorem symm (h : Ties order xs ys) : Ties order ys xs := fun x => (h x).symm

theorem trans (h : Ties order xs ys) (k : Ties order ys zs) : Ties order xs zs :=
  fun x => (h x).trans (k x)

theorem append (h : Ties order xs ys) (k : Ties order us vs) :
    Ties order (xs ++ us) (ys ++ vs) := by
  intro x
  rw [List.filter_append, List.filter_append, h x, k x]

theorem cons (a : α) (h : Ties order xs ys) : Ties order (a :: xs) (a :: ys) :=
  append (refl [a]) h

theorem of_append_left (us : List α) (h : Ties order (us ++ xs) (us ++ ys)) : Ties order xs ys := by
  intro x
  have := h x
  rwa [List.filter_append, List.filter_append, List.append_cancel_left_eq] at this

/-- An element may move in front of elements that are not equal to it. -/
theorem moveFront [Std.TransCmp order] {a : α} (h : ∀ b ∈ us, tied order a b = false) :
    Ties order (us ++ a :: xs) (a :: us ++ xs) := by
  intro x
  simp only [List.filter_append, List.filter_cons, List.cons_append]
  by_cases hx : tied order x a = true
  · have none : us.filter (tied order x) = [] := by
      rw [List.filter_eq_nil_iff]
      intro b hb
      simp [tied_congr hx, h b hb]
    simp [hx, none]
  · simp [hx]

/-- A test that does not tell the elements of a class apart passes all of them or none. -/
theorem filter_tied_and {x : α} {p : α → Bool} (h : ∀ a, tied order x a = true → p a = p x)
    (xs : List α) :
    xs.filter (fun a => tied order x a && p a) = if p x then xs.filter (tied order x) else [] := by
  by_cases hp : p x = true
  · rw [if_pos hp]
    apply List.filter_congr
    intro a _
    by_cases ha : tied order x a = true
    · rw [ha, h a ha, hp, Bool.and_true]
    · simp [ha]
  · rw [if_neg hp, List.filter_eq_nil_iff]
    intro a _ both
    obtain ⟨ha, hpa⟩ := Bool.and_eq_true_iff.mp both
    exact hp ((h a ha).symm.trans hpa)

/-- A test that does not tell equal elements apart may divide a list. -/
theorem filter_append_filter [Std.TransCmp order] {p : α → Bool}
    (h : ∀ a b, tied order a b = true → p a = p b) (xs : List α) :
    Ties order xs (xs.filter p ++ xs.filter fun a => !p a) := by
  intro x
  have passed := filter_tied_and (fun a ha => (h x a ha).symm) xs
  have failed := filter_tied_and (p := fun a => !p a) (fun a ha => congrArg not (h x a ha).symm) xs
  rw [List.filter_append, List.filter_filter, List.filter_filter, passed, failed]
  -- one of the two parts has the whole class of `x`
  cases p x with
  | true => simp
  | false => simp

/-- Agreeing lists have the same elements. -/
theorem perm [Std.TransCmp order] (h : Ties order xs ys) : xs.Perm ys := by
  induction xs generalizing ys with
  | nil =>
    cases ys with
    | nil => exact List.Perm.nil
    | cons y ys =>
      have hy := h y
      simp [tied_self] at hy
  | cons a xs ih =>
    have ha := h a
    rw [List.filter_cons_of_pos tied_self] at ha
    obtain ⟨us, vs, rfl, hus, -, -⟩ := List.filter_eq_cons_iff.mp ha.symm
    have rest : Ties order xs (us ++ vs) :=
      of_append_left [a] (h.trans (moveFront (by simpa using hus)))
    exact ((ih rest).cons a).trans List.perm_middle.symm

end Ties

/-! ## The stable sort -/

section StableSort

variable [Std.TransCmp order] {xs ys zs : List α}

/-- A list that is in order is known by its ties. -/
theorem eq_of_inOrder_of_ties (hxs : InOrder order xs) (hys : InOrder order ys)
    (h : Ties order xs ys) : xs = ys := by
  induction xs generalizing ys with
  | nil => exact (List.nil_perm.mp h.perm).symm
  | cons x xs ih =>
    cases ys with
    | nil => exact absurd h.perm.length_eq (by simp)
    | cons y ys =>
      have hxy : (order x y).isLE := by
        rcases List.mem_cons.mp (h.perm.mem_iff.mpr List.mem_cons_self) with rfl | hy
        · simp [Std.ReflCmp.compare_self]
        · exact (List.pairwise_cons.mp hxs).1 y hy
      have hyx : (order y x).isLE := by
        rcases List.mem_cons.mp (h.perm.mem_iff.mp List.mem_cons_self) with rfl | hx
        · simp [Std.ReflCmp.compare_self]
        · exact (List.pairwise_cons.mp hys).1 x hx
      have heads := h x
      rw [List.filter_cons_of_pos tied_self, List.filter_cons_of_pos (tied_of_isLE hxy hyx)]
        at heads
      obtain rfl : x = y := (List.cons.inj heads).1
      have rest : Ties order xs ys := Ties.of_append_left [x] h
      rw [ih hxs.of_cons hys.of_cons rest]

theorem inOrder_stableSort (xs : List α) : InOrder order (stableSort order xs) := by
  exact List.pairwise_mergeSort (fun _ _ _ => Std.TransCmp.isLE_trans) isLE_total xs

theorem ties_stableSort (xs : List α) : Ties order (stableSort order xs) xs := by
  intro x
  have inClass : (xs.filter (tied order x)).Pairwise fun a b => (order a b).isLE := by
    apply List.pairwise_of_forall_mem_list
    intro a ha b hb
    have hxa := (List.mem_filter.mp ha).2
    have hxb := (List.mem_filter.mp hb).2
    rw [tied_congr hxa, tied, beq_iff_eq] at hxb
    simp [hxb]
  have sub : (xs.filter (tied order x)).Sublist (stableSort order xs) :=
    List.sublist_mergeSort (fun _ _ _ => Std.TransCmp.isLE_trans) isLE_total inClass
      List.filter_sublist
  have same := (sub.filter (tied order x)).eq_of_length (by
    rw [List.filter_filter]
    simp only [Bool.and_self]
    exact ((List.mergeSort_perm xs _).symm.filter _).length_eq)
  rw [List.filter_filter] at same
  simpa using same.symm

/-- What is in order and agrees with a list is the stable sort of it. -/
theorem eq_stableSort (hys : InOrder order ys) (h : Ties order ys xs) : ys = stableSort order xs :=
  eq_of_inOrder_of_ties hys (inOrder_stableSort xs) (h.trans (ties_stableSort xs).symm)

theorem stableSort_congr (h : Ties order xs ys) : stableSort order xs = stableSort order ys :=
  eq_stableSort (inOrder_stableSort xs) ((ties_stableSort xs).trans h)

theorem stableSort_of_inOrder (h : InOrder order xs) : stableSort order xs = xs :=
  (eq_stableSort h (Ties.refl xs)).symm

theorem perm_stableSort (xs : List α) : (stableSort order xs).Perm xs :=
  (ties_stableSort xs).perm

theorem stablySorts_stableSort (xs : List α) : StablySorts order xs (stableSort order xs) where
  perm := perm_stableSort xs
  inOrder := inOrder_stableSort xs
  stable := ties_stableSort xs

/-- The stable sort is the only arrangement that is stable and in order. -/
theorem StablySorts.eq (h : StablySorts order xs ys) : ys = stableSort order xs :=
  eq_stableSort h.inOrder h.stable

variable (order) in
/-- The first of the least elements comes out first. -/
theorem stableSort_least (xs ys : List α) {y : α} (before : ∀ a ∈ xs, order y a = .lt)
    (after : ∀ b ∈ ys, (order y b).isLE) :
    stableSort order (xs ++ y :: ys) = y :: stableSort order (xs ++ ys) := by
  refine (eq_stableSort ?_ ?_).symm
  · refine List.pairwise_cons.mpr ⟨fun a ha => ?_, inOrder_stableSort _⟩
    rcases List.mem_append.mp ((perm_stableSort _).mem_iff.mp ha) with ha | ha
    · simp [before a ha]
    · exact after a ha
  · refine (Ties.cons y (ties_stableSort _)).trans (Ties.moveFront ?_).symm
    intro b hb
    simp [tied, before b hb]

variable (order) in
/-- The last of the greatest elements comes out last. -/
theorem stableSort_greatest (xs ys : List α) {y : α} (before : ∀ a ∈ xs, (order a y).isLE)
    (after : ∀ b ∈ ys, order b y = .lt) :
    stableSort order (xs ++ y :: ys) = stableSort order (xs ++ ys) ++ [y] := by
  refine (eq_stableSort ?_ ?_).symm
  · refine List.pairwise_append.mpr ⟨inOrder_stableSort _, List.pairwise_singleton _ _, ?_⟩
    intro a ha b hb
    obtain rfl := List.mem_singleton.mp hb
    rcases List.mem_append.mp ((perm_stableSort _).mem_iff.mp ha) with ha | ha
    · exact before a ha
    · simp [after a ha]
  · refine ((ties_stableSort _).append (Ties.refl [y])).trans ?_
    rw [List.append_assoc]
    have move : Ties order (ys ++ y :: []) (y :: ys ++ []) := by
      refine Ties.moveFront ?_
      intro b hb
      simp [tied, Std.OrientedCmp.gt_of_lt (after b hb)]
    simpa using (Ties.refl xs).append move

end StableSort

/-! ## Checked comparisons -/

/-- A comparator whose two directions agree passes every check. -/
theorem checkPair_eq_none [Std.OrientedCmp order] (a b : α) : checkPair order a b = none := by
  have h : order a b = (order b a).swap := Std.OrientedCmp.eq_swap
  simp [checkPair, ← h, Std.ReflCmp.compare_self]

/-- Checking such a comparator has no effect. -/
theorem checkedCompare_eq_pure [Std.OrientedCmp order] (verify : Bool) (a b : α) :
    checkedCompare order verify a b = pure (order a b) := by
  funext violation
  simp only [checkedCompare, checkPair_eq_none]
  cases verify <;> cases violation <;> rfl

end ExternalSort
