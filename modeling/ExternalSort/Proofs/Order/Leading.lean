/-
  ExternalSort.Proofs.Order.Leading

  The first elements of a stable sort.

  Of a list it is enough to keep the elements that can be among the first `k` of
  its stable sort: one that at least `k` others come before may be left out
  (`leading_remove`), and whatever is appended later, only the first `k` of what
  was there before matter (`leading_append`).
-/

import ExternalSort.Proofs.Order.Ties

namespace ExternalSort

variable {α : Type}

/-- The first `k` elements of the stable sort. -/
def leading (order : Comparator α) (k : Nat) (xs : List α) : List α := (stableSort order xs).take k

/-- The number of elements that are not greater than a bound. -/
def noWorse (order : Comparator α) (bound : α) (xs : List α) : Nat :=
  xs.countP fun a => (order a bound).isLE

variable {order : Comparator α}

theorem noWorse_append (bound : α) (xs ys : List α) :
    noWorse order bound (xs ++ ys) = noWorse order bound xs + noWorse order bound ys :=
  List.countP_append

theorem noWorse_eq_length {bound : α} {xs : List α} (h : ∀ a ∈ xs, (order a bound).isLE) :
    noWorse order bound xs = xs.length :=
  List.countP_eq_length.mpr h

theorem noWorse_perm {bound : α} {xs ys : List α} (h : xs.Perm ys) :
    noWorse order bound xs = noWorse order bound ys := h.countP_eq _

section Valid

variable [Std.TransCmp order]

/-- A greater bound leaves out fewer elements. -/
theorem noWorse_mono {bound bound' : α} (h : (order bound bound').isLE) (xs : List α) :
    noWorse order bound xs ≤ noWorse order bound' xs := by
  apply List.countP_mono_left
  intro a _ ha
  exact Std.TransCmp.isLE_trans ha h

theorem leading_congr {xs ys : List α} (h : Ties order xs ys) (k : Nat) :
    leading order k xs = leading order k ys := by
  rw [leading, leading, stableSort_congr h]

/-- The first elements can be all of them. -/
theorem leading_eq_stableSort {k : Nat} {xs : List α} (few : xs.length ≤ k) :
    leading order k xs = stableSort order xs := by
  rw [leading, List.take_of_length_le]
  rwa [(perm_stableSort _).length_eq]

/-! ## Where an element stands -/

/-- Elements of different sides of a bound are not equal. -/
theorem tied_eq_false {a b bound : α} (ha : (order a bound).isLE) (hb : ¬ (order b bound).isLE) :
    tied order a b = false := by
  rw [← Bool.not_eq_true]
  intro h
  rw [tied, beq_iff_eq] at h
  exact hb (by rwa [← Std.TransCmp.congr_left h])

/-- Lists without equal elements may change places. -/
theorem Ties.exchange {us vs : List α} (h : ∀ a ∈ us, ∀ b ∈ vs, tied order b a = false) :
    Ties order (us ++ vs) (vs ++ us) := by
  induction vs with
  | nil =>
    rw [List.append_nil]
    exact Ties.refl us
  | cons b vs ih =>
    have front : Ties order (us ++ b :: vs) (b :: us ++ vs) := by
      apply Ties.moveFront
      intro a ha
      exact h a ha b List.mem_cons_self
    refine front.trans (Ties.cons b (ih ?_))
    intro a ha c hc
    exact h a ha c (List.mem_cons_of_mem b hc)

variable (order) in
/-- Around the place of `y`, or with `y` in it, a list divides into what comes before `y` and what
    comes behind. -/
theorem ties_around (y : α) {mid : List α} (hmid : ∀ a ∈ mid, a = y) (xs ys : List α) :
    Ties order (xs ++ (mid ++ ys))
      ((xs.filter (fun a => (order a y).isLE) ++ ys.filter fun b => order b y == .lt) ++
        (mid ++ ((xs.filter fun a => !(order a y).isLE) ++
          ys.filter fun b => !(order b y == .lt)))) := by
  have left : Ties order xs (xs.filter (fun a => (order a y).isLE) ++
      xs.filter fun a => !(order a y).isLE) := by
    apply Ties.filter_append_filter
    intro a b h
    rw [tied, beq_iff_eq] at h
    rw [Std.TransCmp.congr_left h]
  have right : Ties order ys (ys.filter (fun b => order b y == .lt) ++
      ys.filter fun b => !(order b y == .lt)) := by
    apply Ties.filter_append_filter
    intro a b h
    rw [tied, beq_iff_eq] at h
    rw [Std.TransCmp.congr_left h]
  generalize hxp : xs.filter (fun a => (order a y).isLE) = xp at left ⊢
  generalize hxn : xs.filter (fun a => !(order a y).isLE) = xn at left ⊢
  generalize hyp : ys.filter (fun b => order b y == .lt) = yp at right ⊢
  generalize hyn : ys.filter (fun b => !(order b y == .lt)) = yn at right ⊢
  have greater : ∀ a ∈ xn, ¬ (order a y).isLE := by
    intro a ha
    rw [← hxn] at ha
    simpa using (List.mem_filter.mp ha).2
  have less : ∀ b ∈ yp, order b y = .lt := by
    intro b hb
    rw [← hyp] at hb
    simpa using (List.mem_filter.mp hb).2
  -- the greater elements of `xs` pass `mid` and the lesser elements of `ys`, which pass `mid`
  have pass : Ties order (xn ++ (mid ++ yp)) (yp ++ (mid ++ xn)) := by
    have inner : Ties order (mid ++ yp) (yp ++ mid) := by
      apply Ties.exchange
      intro a ha b hb
      obtain rfl := hmid a ha
      simp [tied, less b hb]
    have outer : Ties order (xn ++ (yp ++ mid)) ((yp ++ mid) ++ xn) := by
      apply Ties.exchange
      intro a ha b hb
      rcases List.mem_append.mp hb with hb | hb
      · exact tied_eq_false (by simp [less b hb]) (greater a ha)
      · obtain rfl := hmid b hb
        exact tied_eq_false Std.ReflCmp.isLE_rfl (greater a ha)
    rw [List.append_assoc] at outer
    exact ((Ties.refl xn).append inner).trans outer
  have whole := left.append ((Ties.refl mid).append right)
  refine whole.trans ?_
  have moved := (Ties.refl xp).append (pass.append (Ties.refl yn))
  simpa only [List.append_assoc] using moved

variable (order) in
/-- The elements that come before `y`, and those that come behind it. -/
theorem stableSort_around (xs ys : List α) (y : α) :
    ∃ before behind, stableSort order (xs ++ y :: ys) = before ++ y :: behind ∧
      stableSort order (xs ++ ys) = before ++ behind ∧
      before.length = noWorse order y xs + ys.countP fun b => order b y == .lt := by
  have one := ties_around order y (show ∀ a ∈ [y], a = y by simp) xs ys
  have none := ties_around order y (show ∀ a ∈ [], a = y by simp) xs ys
  generalize hbefore : xs.filter (fun a => (order a y).isLE) ++
    ys.filter (fun b => order b y == .lt) = before at one none
  generalize hbehind : (xs.filter fun a => !(order a y).isLE) ++
    ys.filter (fun b => !(order b y == .lt)) = behind at one none
  have less : ∀ a ∈ before, (order a y).isLE := by
    intro a ha
    rw [← hbefore] at ha
    rcases List.mem_append.mp ha with ha | ha
    · exact (List.mem_filter.mp ha).2
    · have := (List.mem_filter.mp ha).2
      rw [beq_iff_eq] at this
      simp [this]
  have greater : ∀ b ∈ behind, (order y b).isLE := by
    intro b hb
    rw [← hbehind] at hb
    apply isLE_of_not_lt
    intro hlt
    rcases List.mem_append.mp hb with hb | hb
    · simpa [hlt] using (List.mem_filter.mp hb).2
    · simpa [hlt] using (List.mem_filter.mp hb).2
  -- each side is sorted by itself, and `y` stands between them
  have inOrder : InOrder order (stableSort order before ++ y :: stableSort order behind) := by
    refine List.pairwise_append.mpr ⟨inOrder_stableSort _, List.pairwise_cons.mpr
      ⟨?_, inOrder_stableSort _⟩, ?_⟩
    · intro b hb
      exact greater b ((perm_stableSort _).mem_iff.mp hb)
    · intro a ha b hb
      have ha' := less a ((perm_stableSort _).mem_iff.mp ha)
      rcases List.mem_cons.mp hb with rfl | hb
      · exact ha'
      · exact Std.TransCmp.isLE_trans ha' (greater b ((perm_stableSort _).mem_iff.mp hb))
  refine ⟨stableSort order before, stableSort order behind, ?_, ?_, ?_⟩
  · refine (eq_stableSort inOrder ?_).symm
    exact ((ties_stableSort before).append (Ties.cons y (ties_stableSort behind))).trans one.symm
  · refine (eq_stableSort ?_ ?_).symm
    · exact inOrder.sublist ((List.Sublist.refl _).append (List.sublist_cons_self y _))
    · exact ((ties_stableSort before).append (ties_stableSort behind)).trans none.symm
  · rw [(perm_stableSort before).length_eq, ← hbefore, List.length_append, noWorse,
      List.countP_eq_length_filter, List.countP_eq_length_filter]

/-! ## Leaving elements out -/

variable (order) in
/-- An element that `k` others come before is not among the first `k`. -/
theorem leading_remove {k : Nat} (xs ys : List α) {y : α}
    (enough : k ≤ noWorse order y xs + ys.countP fun b => order b y == .lt) :
    leading order k (xs ++ y :: ys) = leading order k (xs ++ ys) := by
  obtain ⟨before, behind, one, none, length⟩ := stableSort_around order xs ys y
  rw [← length] at enough
  rw [leading, leading, one, none, List.take_append_of_le_length enough,
    List.take_append_of_le_length enough]

/-- Of what comes first, the first `k` elements are enough. -/
theorem leading_append (k : Nat) (xs ys : List α) :
    leading order k (xs ++ ys) = leading order k (leading order k xs ++ ys) := by
  -- the elements behind the first `k` are left out one by one
  have drop (rest : List α) (kept : (leading order k xs).length = k ∨ rest = [])
      (inOrder : InOrder order (leading order k xs ++ rest)) :
      leading order k (leading order k xs ++ (rest ++ ys)) =
        leading order k (leading order k xs ++ ys) := by
    induction rest with
    | nil => rfl
    | cons y rest ih =>
      have full : (leading order k xs).length = k := kept.resolve_right (by simp)
      have parts := List.pairwise_append.mp inOrder
      have below : ∀ a ∈ leading order k xs, (order a y).isLE := fun a ha =>
        parts.2.2 a ha y List.mem_cons_self
      rw [List.cons_append, leading_remove]
      · apply ih (.inl full)
        exact inOrder.sublist ((List.Sublist.refl _).append (List.sublist_cons_self y rest))
      · rw [noWorse_eq_length below, full]
        exact Nat.le_add_right k _
  have whole : leading order k xs ++ (stableSort order xs).drop k = stableSort order xs :=
    List.take_append_drop k _
  have sorted : leading order k (xs ++ ys) = leading order k (stableSort order xs ++ ys) :=
    leading_congr ((ties_stableSort xs).symm.append (Ties.refl ys)) k
  rw [sorted, ← whole, List.append_assoc]
  apply drop
  · by_cases short : (stableSort order xs).length ≤ k
    · exact .inr (List.drop_eq_nil_of_le short)
    · exact .inl (List.length_take_of_le (Nat.le_of_lt (Nat.lt_of_not_le short)))
  · rw [whole]
    exact inOrder_stableSort xs

/-- What is appended finds the same first elements. -/
theorem leading_append_congr {k : Nat} {xs ys : List α} (h : leading order k xs = leading order k ys)
    (zs : List α) : leading order k (xs ++ zs) = leading order k (ys ++ zs) := by
  rw [leading_append k xs, leading_append k ys, h]

end Valid
end ExternalSort
