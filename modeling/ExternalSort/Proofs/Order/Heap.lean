/-
  ExternalSort.Proofs.Order.Heap

  The heap operations with a valid comparator.

  Each operation only rearranges elements. While an element sinks, every pair of
  a parent and a child that does not touch it is in order, and its children are
  not greater than its parent; while an element rises it is the same with the
  roles exchanged. The operations end when the element itself is in order too.
-/

import ExternalSort.Order.Heap
import ExternalSort.Proofs.Order.StableSort.Short

namespace ExternalSort
namespace Heap

open StableSort (askLess)

variable {m : Type → Type} [Monad m] {α : Type} {n : Nat} {order : Comparator α}

/-! ## Heaps -/

/-- No element is greater than its parent. -/
def IsHeap (order : Comparator α) (xs : Array α) : Prop :=
  ∀ c (hc : c < xs.size), 0 < c → (order xs[c] xs[(c - 1) / 2]).isLE

instance (order : Comparator α) (xs : Array α) : Decidable (IsHeap order xs) :=
  inferInstanceAs (Decidable (∀ c (hc : c < xs.size), 0 < c → (order xs[c] xs[(c - 1) / 2]).isLE))

/-- Within the first `len` elements, no child of an element from `first` on is greater than its
    parent. -/
def HeapFrom (order : Comparator α) (first len : Nat) (v : Vector α n) : Prop :=
  ∀ c (hc : c < n) (hp : (c - 1) / 2 < n), c < len → 0 < c → first ≤ (c - 1) / 2 →
    (order v[c] v[(c - 1) / 2]).isLE

/-- A vector with its first `len` elements rearranged. -/
structure Rearranged (len : Nat) (v w : Vector α n) : Prop where
  perm : w.toList.Perm v.toList
  inside : ∀ j (hj : j < n), j < len → ∃ i, ∃ hi : i < n, i < len ∧ w[j] = v[i]
  outside : ∀ j (hj : j < n), len ≤ j → w[j] = v[j]

namespace Rearranged

variable {len : Nat} {u v w : Vector α n}

theorem refl (len : Nat) (v : Vector α n) : Rearranged len v v :=
  ⟨List.Perm.refl _, fun j hj h => ⟨j, hj, h, rfl⟩, fun _ _ _ => rfl⟩

theorem trans (h : Rearranged len u v) (k : Rearranged len v w) : Rearranged len u w := by
  refine ⟨k.perm.trans h.perm, fun j hj hlen => ?_, fun j hj hlen => ?_⟩
  · obtain ⟨i, hi, hilen, eq⟩ := k.inside j hj hlen
    obtain ⟨i', hi', hilen', eq'⟩ := h.inside i hi hilen
    exact ⟨i', hi', hilen', eq.trans eq'⟩
  · exact (k.outside j hj hlen).trans (h.outside j hj hlen)

theorem swap (len : Nat) (v : Vector α n) {i j : Nat} (hi : i < n) (hj : j < n) (hil : i < len)
    (hjl : j < len) : Rearranged len v (v.swap i j) := by
  refine ⟨?_, fun k hk hlen => ?_, fun k hk hlen => ?_⟩
  · exact (Vector.swap_perm hi hj).toList
  · rw [Vector.getElem_swap]
    split
    · exact ⟨j, hj, hjl, rfl⟩
    · split
      · exact ⟨i, hi, hil, rfl⟩
      · exact ⟨k, hk, hlen, rfl⟩
  · rw [Vector.getElem_swap, if_neg (by omega), if_neg (by omega)]

end Rearranged

/-! ## Sinking -/

variable {v : Vector α n}

/-- Within the first `len` elements, everything is in order below `first`, but for the element at
    `i`, which may be less than its children. -/
structure Sinking (order : Comparator α) (first len i : Nat) (v : Vector α n) : Prop where
  pairs : ∀ c (hc : c < n) (hp : (c - 1) / 2 < n), c < len → 0 < c → first ≤ (c - 1) / 2 →
    (c - 1) / 2 ≠ i → (order v[c] v[(c - 1) / 2]).isLE
  skip : ∀ c (hc : c < n) (hp : (i - 1) / 2 < n), c < len → 0 < c → (c - 1) / 2 = i → 0 < i →
    first ≤ (i - 1) / 2 → (order v[c] v[(i - 1) / 2]).isLE

/-- An element that is less than its greater child changes places with it. -/
theorem Sinking.move {first len i c : Nat} (h : Sinking order first len i v) (hi : i < n)
    (hc : c < n) (hic : i < c) (hclen : c < len) (hparent : (c - 1) / 2 = i)
    (greatest : ∀ d (hd : d < n), d < len → 0 < d → (d - 1) / 2 = i → (order v[d] v[c]).isLE)
    (less : order v[i] v[c] = .lt) : Sinking order first len c (v.swap i c) := by
  refine ⟨fun d hd _ hdlen hpos hfirst hne => ?_, fun d hd _ hdlen hpos hdc _ _ => ?_⟩
  · -- the move touches the pairs whose parent is at `i`, and the one whose child is at `i`
    by_cases hdi : (d - 1) / 2 = i
    · simp only [hdi, Vector.getElem_swap_left]
      by_cases hdc : d = c
      · subst hdc
        simp [less]
      · rw [Vector.getElem_swap_of_ne (by omega) hdc]
        exact greatest d hd hdlen hpos hdi
    · rw [Vector.getElem_swap_of_ne (k := (d - 1) / 2) hdi hne]
      by_cases hd' : d = i
      · subst hd'
        rw [Vector.getElem_swap_left]
        exact h.skip c hc _ hclen (by omega) hparent hpos hfirst
      · rw [Vector.getElem_swap_of_ne hd' (by omega)]
        exact h.pairs d hd _ hdlen hpos hfirst hdi
  · simp only [hparent, Vector.getElem_swap_left]
    rw [Vector.getElem_swap_of_ne (by omega) (by omega)]
    have := h.pairs d hd (by omega) hdlen hpos (by omega) (by omega)
    simpa [hdc] using this

/-- An element that is not less than its children is in order. -/
theorem Sinking.finish {first len i : Nat} (h : Sinking order first len i v) (hi : i < n)
    (settled : ∀ d (hd : d < n), d < len → 0 < d → (d - 1) / 2 = i → (order v[d] v[i]).isLE) :
    HeapFrom order first len v := by
  intro d hd _ hdlen hpos hfirst
  by_cases hdi : (d - 1) / 2 = i
  · simpa [hdi] using settled d hd hdlen hpos hdi
  · exact h.pairs d hd _ hdlen hpos hfirst hdi

/-- Everything is in order, but for the element at `i`, which may be greater than its parent. -/
structure Rising (order : Comparator α) (i : Nat) (v : Vector α n) : Prop where
  pairs : ∀ c (hc : c < n) (hp : (c - 1) / 2 < n), 0 < c → c ≠ i →
    (order v[c] v[(c - 1) / 2]).isLE
  skip : ∀ c (hc : c < n) (hp : (i - 1) / 2 < n), 0 < c → (c - 1) / 2 = i → 0 < i →
    (order v[c] v[(i - 1) / 2]).isLE

section Valid

variable [Std.TransCmp order]

/-- Nothing in a heap is greater than what is on top. -/
theorem HeapFrom.top {len : Nat} (h : HeapFrom order 0 len v) (c : Nat) (hc : c < n)
    (hlen : c < len) : (order v[c] v[0]).isLE := by
  induction c using Nat.strongRecOn with
  | ind c ih =>
    by_cases hzero : c = 0
    · subst hzero
      exact Std.ReflCmp.isLE_rfl
    · have parent := ih ((c - 1) / 2) (by omega) (by omega) (by omega)
      exact Std.TransCmp.isLE_trans (h c hc (by omega) hlen (by omega) (Nat.zero_le _)) parent

variable [LawfulMonad m]

variable (order v) in
theorem greaterChild_eq {len i : Nat} (hlen : len ≤ n) (hl : 2 * i + 1 < len) :
    ∃ c, ∃ hc : i < c ∧ c < len,
      greaterChild (m := m) (askLess order) v i len hlen hl = pure ⟨c, hc⟩ ∧ (c - 1) / 2 = i ∧
      ∀ d (hd : d < n), d < len → 0 < d → (d - 1) / 2 = i → (order v[d] v[c]).isLE := by
  have child (d : Nat) (hd : 0 < d) (h : (d - 1) / 2 = i) : d = 2 * i + 1 ∨ d = 2 * i + 2 := by
    omega
  rw [greaterChild]
  by_cases hr : 2 * i + 2 < len
  · by_cases hlt : order v[2 * i + 1] v[2 * i + 2] = .lt
    · refine ⟨2 * i + 2, ⟨by omega, hr⟩, by simp [hr, askLess, hlt], by omega, ?_⟩
      intro d hd hdlen hpos hparent
      rcases child d hpos hparent with rfl | rfl
      · simp [hlt]
      · exact Std.ReflCmp.isLE_rfl
    · refine ⟨2 * i + 1, ⟨by omega, hl⟩, by simp [hr, askLess, hlt], by omega, ?_⟩
      intro d hd hdlen hpos hparent
      rcases child d hpos hparent with rfl | rfl
      · exact Std.ReflCmp.isLE_rfl
      · exact isLE_of_not_lt hlt
  · refine ⟨2 * i + 1, ⟨by omega, hl⟩, by simp [hr], by omega, ?_⟩
    intro d hd hdlen hpos hparent
    obtain rfl : d = 2 * i + 1 := by omega
    exact Std.ReflCmp.isLE_rfl

theorem siftDown_eq {first len i : Nat} (hlen : len ≤ n) (hi : i < len)
    (h : Sinking order first len i v) :
    ∃ w, siftDown (m := m) (askLess order) v i len hlen hi = pure w ∧ Rearranged len v w ∧
      HeapFrom order first len w := by
  fun_induction siftDown (m := m) (askLess order) v i len hlen hi with
  | case1 v i hi hl ih =>
    obtain ⟨c, ⟨hic, hclen⟩, hchild, hparent, greatest⟩ :=
      greaterChild_eq (m := m) order v hlen hl
    simp only [hchild, pure_bind, askLess]
    by_cases hlt : order v[i] v[c] = .lt
    · obtain ⟨w, hw, hre, hheap⟩ :=
        ih c hic hclen (h.move (by omega) (by omega) hic hclen hparent greatest hlt)
      exact ⟨w, by simpa [hlt] using hw, (Rearranged.swap len v _ _ hi hclen).trans hre, hheap⟩
    · refine ⟨v, by simp [hlt], Rearranged.refl _ _, h.finish (by omega) ?_⟩
      intro d hd hdlen hpos hdi
      exact Std.TransCmp.isLE_trans (greatest d hd hdlen hpos hdi) (isLE_of_not_lt hlt)
  | case2 v i hi hl =>
    refine ⟨v, rfl, Rearranged.refl _ _, h.finish (by omega) ?_⟩
    intro d hd hdlen hpos hdi
    omega

/-! ## Rising -/

/-- An element that is greater than its parent changes places with it. -/
theorem Rising.move {i : Nat} (h : Rising order i v) (hi : i < n) (hpos : 0 < i)
    (less : order v[(i - 1) / 2] v[i] = .lt) :
    Rising order ((i - 1) / 2) (v.swap ((i - 1) / 2) i) := by
  refine ⟨fun c hc _ hcpos hne => ?_, fun c hc _ hcpos hci hpos' => ?_⟩
  · -- only the pair at `i` itself, the children of `i` and its sibling are touched
    by_cases hself : c = i
    · subst hself
      rw [Vector.getElem_swap_right, Vector.getElem_swap_left]
      simp [less]
    · rw [Vector.getElem_swap_of_ne (k := c) hne hself]
      by_cases hchild : (c - 1) / 2 = i
      · simp only [hchild, Vector.getElem_swap_right]
        exact h.skip c hc (by omega) hcpos hchild hpos
      · by_cases hsibling : (c - 1) / 2 = (i - 1) / 2
        · simp only [hsibling, Vector.getElem_swap_left]
          have := h.pairs c hc (by omega) hcpos hself
          simp only [hsibling] at this
          exact Std.TransCmp.isLE_trans this (by simp [less])
        · rw [Vector.getElem_swap_of_ne hsibling hchild]
          exact h.pairs c hc (by omega) hcpos hself
  · have above := h.pairs ((i - 1) / 2) (by omega) (by omega) hpos' (by omega)
    rw [Vector.getElem_swap_of_ne (k := ((i - 1) / 2 - 1) / 2) (by omega) (by omega)]
    by_cases hself : c = i
    · subst hself
      rw [Vector.getElem_swap_right]
      exact above
    · rw [Vector.getElem_swap_of_ne (by omega) hself]
      have sibling := h.pairs c hc (by omega) hcpos hself
      simp only [hci] at sibling
      exact Std.TransCmp.isLE_trans sibling above

theorem siftUp_eq {i : Nat} (hi : i < n) (h : Rising order i v) :
    ∃ w, siftUp (m := m) (askLess order) v i hi = pure w ∧ Rearranged n v w ∧
      HeapFrom order 0 n w := by
  fun_induction siftUp (m := m) (askLess order) v i hi with
  | case1 v hi =>
    refine ⟨v, rfl, Rearranged.refl _ _, fun c hc _ _ hpos _ => ?_⟩
    exact h.pairs c hc (by omega) hpos (by omega)
  | case2 v i hi hpos parent hp ih =>
    simp only [askLess, pure_bind]
    by_cases hlt : order v[parent] v[i] = .lt
    · obtain ⟨w, hw, hre, hheap⟩ := ih (h.move hi (by omega) hlt)
      exact ⟨w, by simpa [hlt] using hw, (Rearranged.swap n v hp hi hp hi).trans hre, hheap⟩
    · refine ⟨v, by simp [hlt], Rearranged.refl _ _, fun c hc _ _ hcpos _ => ?_⟩
      by_cases hself : c = i
      · subst hself
        exact isLE_of_not_lt hlt
      · exact h.pairs c hc (by omega) hcpos hself

/-! ## Making a heap -/

theorem makeBelow_eq (k : Nat) (hk : k ≤ n) (h : HeapFrom order k n v) :
    ∃ w, makeBelow (m := m) (askLess order) k hk v = pure w ∧ Rearranged n v w ∧
      HeapFrom order 0 n w := by
  induction k generalizing v with
  | zero => exact ⟨v, rfl, Rearranged.refl _ _, h⟩
  | succ k ih =>
    have sinking : Sinking order k n k v := by
      refine ⟨fun c hc hp hlen hpos hfirst hne => h c hc hp hlen hpos (by omega), ?_⟩
      intro c hc _ hlen hpos hparent hkpos hfirst
      omega
    obtain ⟨u, hu, hre, hheap⟩ := siftDown_eq (m := m) (Nat.le_refl n) (by omega) sinking
    obtain ⟨w, hw, hre', hheap'⟩ := ih (by omega) hheap
    exact ⟨w, by simpa [makeBelow, hu] using hw, hre.trans hre', hheap'⟩

theorem make_eq (v : Vector α n) :
    ∃ w, make (m := m) (askLess order) v = pure w ∧ Rearranged n v w ∧ HeapFrom order 0 n w := by
  refine makeBelow_eq (n / 2) (by omega) fun c hc _ _ _ hfirst => ?_
  omega

theorem push_eq (h : HeapFrom order 0 (n - 1) v) :
    ∃ w, push (m := m) (askLess order) v = pure w ∧ Rearranged n v w ∧ HeapFrom order 0 n w := by
  rw [push]
  by_cases hn : 1 < n
  · rw [dif_pos hn]
    refine siftUp_eq (by omega) ⟨fun c hc _ hpos hne => ?_, fun c hc _ hpos hlast => by omega⟩
    exact h c hc _ (by omega) hpos (Nat.zero_le _)
  · rw [dif_neg hn]
    refine ⟨v, rfl, Rearranged.refl _ _, fun c hc _ _ hpos _ => ?_⟩
    omega

/-! ## Taking the greatest out -/

omit [Std.TransCmp order] in
/-- Putting the last element of a heap on top leaves a heap below it. -/
theorem sinking_of_swap {len : Nat} (hlen : len < n) (h : HeapFrom order 0 (len + 1) v) :
    Sinking order 0 len 0 (v.swap 0 len) := by
  refine ⟨fun c hc _ hclen hpos _ hne => ?_,
    fun c hc _ _ _ _ hpos => absurd hpos (Nat.lt_irrefl 0)⟩
  rw [Vector.getElem_swap_of_ne (k := c) (by omega) (by omega),
    Vector.getElem_swap_of_ne (k := (c - 1) / 2) hne (by omega)]
  exact h c hc _ (by omega) hpos (Nat.zero_le _)

theorem pop_eq (hn : 0 < n) (h : HeapFrom order 0 n v) :
    ∃ w, pop (m := m) (askLess order) v = pure w ∧ w.toList.Perm v.toList ∧
      (∃ hlast : n - 1 < n, w[n - 1] = v[0]) ∧ HeapFrom order 0 (n - 1) w := by
  rw [pop]
  by_cases hone : 1 < n
  · rw [dif_pos hone]
    have whole : HeapFrom order 0 (n - 1 + 1) v := by rwa [Nat.sub_add_cancel hn]
    obtain ⟨w, hw, hre, hheap⟩ := siftDown_eq (m := m) (v := v.swap 0 (n - 1)) (by omega) (by omega)
      (sinking_of_swap (by omega) whole)
    refine ⟨w, hw, ?_, ?_, hheap⟩
    · exact hre.perm.trans (Rearranged.swap n v hn (by omega) hn (by omega)).perm
    · refine ⟨by omega, ?_⟩
      rw [hre.outside (n - 1) (by omega) (Nat.le_refl _), Vector.getElem_swap_right]
  · rw [dif_neg hone]
    obtain rfl : n = 1 := by omega
    exact ⟨v, rfl, List.Perm.refl _, ⟨by omega, rfl⟩, fun c hc _ hlen hpos => by omega⟩

/-! ## Sorting a heap -/

/-- The elements behind index `k` are ascending, and none before them is greater. -/
def SortedBehind (order : Comparator α) (k : Nat) (v : Vector α n) : Prop :=
  ∀ i j (hj : j < n), k < j → ∀ h : i < j, (order v[i] v[j]).isLE

/-- The greatest element of a heap goes to its end. -/
theorem SortedBehind.step {k : Nat} (hzero : 0 < n) (hk : k + 1 < n) {w : Vector α n}
    (hheap : HeapFrom order 0 (k + 2) v) (h : SortedBehind order (k + 1) v)
    (hre : Rearranged (k + 1) (v.swap 0 (k + 1) hzero hk) w) : SortedBehind order k w := by
  -- what stands before index `k + 2` in `w` stands before it in `v`
  have before (i : Nat) (hi : i < n) (hle : i ≤ k + 1) :
      ∃ i', ∃ hi' : i' < n, i' ≤ k + 1 ∧ w[i] = v[i'] := by
    have swapped (i : Nat) (hi : i < n) (hle : i ≤ k + 1) :
        ∃ i', ∃ hi' : i' < n, i' ≤ k + 1 ∧ (v.swap 0 (k + 1))[i] = v[i'] := by
      obtain ⟨i', hi', hlt, eq⟩ :=
        (Rearranged.swap (k + 2) v (i := 0) (by omega) hk (by omega) (by omega)).inside i hi
          (by omega)
      exact ⟨i', hi', by omega, eq⟩
    by_cases hlt : i < k + 1
    · obtain ⟨i', hi', hlt', eq⟩ := hre.inside i hi hlt
      obtain ⟨i'', hi'', hle'', eq'⟩ := swapped i' hi' (by omega)
      exact ⟨i'', hi'', hle'', eq.trans eq'⟩
    · obtain ⟨i', hi', hle', eq⟩ := swapped i hi hle
      exact ⟨i', hi', hle', (hre.outside i hi (by omega)).trans eq⟩
  have behind (j : Nat) (hj : j < n) (hlt : k + 1 < j) : w[j] = v[j] := by
    rw [hre.outside j hj (by omega), Vector.getElem_swap_of_ne (by omega) (by omega)]
  intro i j hj hkj hij
  by_cases hlast : j = k + 1
  · subst hlast
    obtain ⟨i', hi', hle', eq⟩ := before i (by omega) (by omega)
    rw [eq, hre.outside (k + 1) hj (Nat.le_refl _), Vector.getElem_swap_right]
    exact hheap.top i' hi' (by omega)
  · rw [behind j hj (by omega)]
    by_cases hi : i ≤ k + 1
    · obtain ⟨i', hi', hle', eq⟩ := before i (by omega) hi
      rw [eq]
      exact h i' j hj (by omega) (by omega)
    · rw [behind i (by omega) (by omega)]
      exact h i j hj (by omega) hij

theorem sortBelow_eq (k : Nat) (hk : k < n) (hheap : HeapFrom order 0 (k + 1) v)
    (h : SortedBehind order k v) :
    ∃ w, sortBelow (m := m) (askLess order) k hk v = pure w ∧ w.toList.Perm v.toList ∧
      SortedBehind order 0 w := by
  induction k generalizing v with
  | zero => exact ⟨v, rfl, List.Perm.refl _, h⟩
  | succ k ih =>
    obtain ⟨u, hu, hre, hheap'⟩ := siftDown_eq (m := m) (v := v.swap 0 (k + 1)) (by omega)
      (by omega) (sinking_of_swap hk hheap)
    obtain ⟨w, hw, hperm, hsorted⟩ := ih (by omega) hheap' (h.step (by omega) hk hheap hre)
    refine ⟨w, by simpa [sortBelow, hu] using hw, hperm.trans (hre.perm.trans ?_), hsorted⟩
    exact (Rearranged.swap n v (i := 0) (by omega) hk (by omega) hk).perm

theorem sort_eq (h : HeapFrom order 0 n v) :
    ∃ w, sort (m := m) (askLess order) v = pure w ∧ w.toList.Perm v.toList ∧
      InOrder order w.toList := by
  rw [sort]
  by_cases hn : 0 < n
  · rw [dif_pos hn]
    have whole : HeapFrom order 0 (n - 1 + 1) v := by rwa [Nat.sub_add_cancel hn]
    obtain ⟨w, hw, hperm, hsorted⟩ :=
      sortBelow_eq (m := m) (n - 1) (by omega) whole fun i j hj hlt => by omega
    refine ⟨w, hw, hperm, List.pairwise_iff_getElem.mpr fun i j hi hj hij => ?_⟩
    simp only [Vector.length_toList] at hi hj
    simpa using hsorted i j hj (by omega) hij
  · rw [dif_neg hn]
    obtain rfl : n = 0 := by omega
    have nothing : v.toList = [] := List.eq_nil_of_length_eq_zero v.length_toList
    exact ⟨v, rfl, List.Perm.refl _, by simp [InOrder, nothing]⟩

/-! ## On arrays -/

omit [Std.TransCmp order] in
theorem isHeap_toArray (h : HeapFrom order 0 n v) : IsHeap order v.toArray := by
  intro c hc hpos
  simp only [Vector.size_toArray] at hc
  simpa using h c hc (by omega) hc hpos (Nat.zero_le _)

omit [Std.TransCmp order] in
theorem heapFrom_toVector {xs : Array α} (h : IsHeap order xs) :
    HeapFrom order 0 xs.size xs.toVector := by
  intro c hc _ _ hpos _
  exact h c hc hpos

theorem IsHeap.top {xs : Array α} (h : IsHeap order xs) (hpos : 0 < xs.size) :
    ∀ a ∈ xs, (order a xs[0]).isLE := by
  intro a ha
  obtain ⟨c, hc, rfl⟩ := Array.mem_iff_getElem.mp ha
  exact (heapFrom_toVector h).top c hc hc

/-- Making a heap. -/
theorem makeArray_eq (xs : Array α) :
    ∃ ys, onArray (m := m) (make (askLess order)) xs = pure ys ∧ ys.toList.Perm xs.toList ∧
      IsHeap order ys := by
  obtain ⟨w, hw, hre, hheap⟩ := (make_eq xs.toVector : ∃ w, make (m := m) (askLess order) _ = _ ∧ _)
  exact ⟨w.toArray, by simp [onArray, hw], hre.perm, isHeap_toArray hheap⟩

/-- Adding an element to a heap. -/
theorem pushArray_eq {xs : Array α} (h : IsHeap order xs) (x : α) :
    ∃ ys, onArray (m := m) (push (askLess order)) (xs.push x) = pure ys ∧
      ys.toList.Perm (xs.push x).toList ∧ IsHeap order ys := by
  have front : HeapFrom order 0 ((xs.push x).size - 1) (xs.push x).toVector := by
    intro c hc _ hlen hpos _
    simp only [Array.size_push, Nat.add_sub_cancel] at hlen
    have := h c hlen hpos
    simpa [Array.getElem_push_lt hlen, Array.getElem_push_lt (show (c - 1) / 2 < xs.size by omega)]
  obtain ⟨w, hw, hre, hheap⟩ := push_eq (m := m) front
  exact ⟨w.toArray, by simp [onArray, hw], hre.perm, isHeap_toArray hheap⟩

/-- Taking the greatest element out of a heap puts it at the end. -/
theorem popArray_eq {xs : Array α} (h : IsHeap order xs) (hpos : 0 < xs.size) :
    ∃ rest, onArray (m := m) (pop (askLess order)) xs = pure (rest.push xs[0]) ∧
      (xs[0] :: rest.toList).Perm xs.toList ∧ IsHeap order rest := by
  obtain ⟨w, hw, hperm, ⟨_, hlast⟩, hheap⟩ := pop_eq (m := m) hpos (heapFrom_toVector h)
  obtain ⟨rest, last, hrest⟩ :=
    Array.eq_push_of_size_ne_zero (show w.toArray.size ≠ 0 by rw [Vector.size_toArray]; omega)
  have size : xs.size = rest.size + 1 := by simpa using congrArg Array.size hrest
  have front (c : Nat) (hc : c < xs.size) (hlt : c < rest.size) : w[c] = rest[c] := by
    rw [← Vector.getElem_toArray (by simpa using hc)]
    simp [hrest, Array.getElem_push_lt hlt]
  obtain rfl : last = xs[0] := by
    have top : w.toArray[xs.size - 1]? = some xs[0] := by
      rw [Array.getElem?_eq_getElem (by simp; omega), Vector.getElem_toArray, hlast]
      rfl
    simpa [hrest, size] using top
  refine ⟨rest, by simp [onArray, hw, hrest], ?_, fun c hc hcpos => ?_⟩
  · refine (List.perm_append_singleton _ _).symm.trans ?_
    have whole : w.toArray.toList = rest.toList ++ [xs[0]] := by simp [hrest]
    rw [← whole]
    exact hperm
  · have := hheap c (by omega) (by omega) (by omega) hcpos (Nat.zero_le _)
    rwa [front c (by omega) hc, front _ (by omega) (by omega)] at this

/-- Sorting a heap. -/
theorem sortArray_eq {xs : Array α} (h : IsHeap order xs) :
    ∃ ys, onArray (m := m) (sort (askLess order)) xs = pure ys ∧ ys.toList.Perm xs.toList ∧
      InOrder order ys.toList := by
  obtain ⟨w, hw, hperm, hsorted⟩ := sort_eq (m := m) (heapFrom_toVector h)
  exact ⟨w.toArray, by simp [onArray, hw], hperm, hsorted⟩

end Valid
end Heap
end ExternalSort
