/-
  ExternalSort.Proofs.Order.Partition

  Finding a partition point by halving.

  The elements behind the window all fail the test, and the one it begins with
  passes it, unless that is the first of all.
-/

import ExternalSort.Order.Partition

namespace ExternalSort

variable {m : Type → Type} [Monad m] [LawfulMonad m] {α : Type} {p : α → Bool} {xs : Array α}

/-- A test that is true and then false along an array. -/
def Descends (p : α → Bool) (xs : Array α) : Prop :=
  ∀ i j (hi : i < xs.size) (hj : j < xs.size), i ≤ j → p xs[j] → p xs[i]

theorem narrow_eq (descends : Descends p xs) {base size : Nat} (h : base + size ≤ xs.size)
    (pos : 0 < size) (begins : ∀ hb : base < xs.size, base = 0 ∨ p xs[base])
    (behind : ∀ j (hj : j < xs.size), base + size ≤ j → ¬ p xs[j]) :
    ∃ i, ∃ hi : i < xs.size, narrow (m := m) (fun a => pure (p a)) xs base size h pos =
        pure ⟨i, hi⟩ ∧ (i = 0 ∨ p xs[i]) ∧ ∀ j (hj : j < xs.size), i < j → ¬ p xs[j] := by
  induction size using Nat.strongRecOn generalizing base with
  | ind size ih =>
    rw [narrow]
    by_cases hs : 1 < size
    -- either half begins at an element that passes, if not at the first one
    · simp only [hs, dite_true, pure_bind]
      by_cases hp : p xs[base + size / 2]
      · simp only [hp, if_true]
        apply ih (size - size / 2) (by omega)
        · intro _
          exact .inr hp
        · intro j hj hle
          exact behind j hj (by omega)
      · simp only [hp, if_false, Bool.false_eq_true]
        apply ih (size - size / 2) (by omega)
        · exact begins
        · intro j hj hle hpj
          exact hp (descends _ j _ hj (by omega) hpj)
    · refine ⟨base, by omega, by rw [dif_neg hs], begins (by omega), ?_⟩
      intro j hj hlt
      exact behind j hj (by omega)

/-- A test that is true on the first `n` elements alone is true `n` times. -/
theorem countP_eq_of_iff {n : Nat} (hn : n ≤ xs.size)
    (h : ∀ j (hj : j < xs.size), p xs[j] ↔ j < n) : xs.toList.countP p = n := by
  have front : (xs.toList.take n).countP p = n := by
    rw [List.countP_eq_length.mpr, List.length_take, Array.length_toList, Nat.min_eq_left hn]
    intro a ha
    obtain ⟨j, hj, rfl⟩ := List.mem_take_iff_getElem.mp ha
    rw [Array.length_toList] at hj
    exact (h j (by omega)).mpr (by omega)
  have back : (xs.toList.drop n).countP p = 0 := by
    rw [List.countP_eq_zero]
    intro a ha
    obtain ⟨j, hj, rfl⟩ := List.mem_drop_iff_getElem.mp ha
    rw [Array.length_toList] at hj
    intro hp
    have := (h (n + j) (by omega)).mp hp
    omega
  rw [← List.take_append_drop n xs.toList, List.countP_append, front, back, Nat.add_zero]

/-- The partition point is the number of elements that pass the test. -/
theorem partitionPoint_eq (descends : Descends p xs) :
    partitionPoint (m := m) (fun a => pure (p a)) xs = pure (xs.toList.countP p) := by
  rw [partitionPoint]
  by_cases h : 0 < xs.size
  · obtain ⟨i, hi, found, begins, behind⟩ := narrow_eq (m := m) descends
      (show 0 + xs.size ≤ xs.size by omega) h (fun _ => .inl rfl) (by omega)
    rw [dif_pos h, found]
    -- the search ends at the last element that passes, or at the first one of all
    by_cases hp : p xs[i]
    · rw [countP_eq_of_iff (n := i + 1) hi]
      · simp [hp]
      · intro j hj
        constructor
        · intro hpj
          exact Nat.lt_succ_of_le (Nat.le_of_not_lt fun hlt => behind j hj hlt hpj)
        · intro hlt
          exact descends j i hj hi (by omega) hp
    · obtain rfl : i = 0 := begins.resolve_right hp
      rw [countP_eq_of_iff (n := 0) (Nat.zero_le _)]
      · simp [hp]
      · intro j hj
        constructor
        · intro hpj
          exact absurd (descends 0 j hi hj (Nat.zero_le j) hpj) hp
        · intro hlt
          omega
  · have none : xs.toList = [] := List.eq_nil_of_length_eq_zero (by rw [Array.length_toList]; omega)
    rw [dif_neg h, none, List.countP_nil]

end ExternalSort
