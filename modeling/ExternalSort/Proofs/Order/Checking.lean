/-
  ExternalSort.Proofs.Order.Checking

  What checking a comparator changes.

  A checked comparison answers what the comparator says, whatever it remembers.
  So whatever asks only by comparisons does the same whether they are checked or
  not, and if the comparator never contradicts itself nothing is remembered.
-/

import ExternalSort.Order.Heap
import ExternalSort.Order.Partition
import ExternalSort.Proofs.Order.Ties

namespace ExternalSort

variable {α β γ δ : Type} {sound : Prop}

/-! ## Computations that answer alike -/

/-- A computation gives, whatever it remembers, what another one gives that remembers nothing, but
    for the change `f`. It remembers nothing either if the comparator is `sound`. -/
def Echoes (sound : Prop) (f : β → γ) (x : Checked β) (y : Checked γ) : Prop :=
  ∃ b, y = pure (f b) ∧ (∀ known, (x.run known).1 = b) ∧ (sound → x = pure b)

namespace Echoes

variable {f : β → γ} {x : Checked β} {y : Checked γ}

theorem of_pure (f : β → γ) (b : β) : Echoes sound f (pure b) (pure (f b)) :=
  ⟨b, rfl, fun _ => rfl, fun _ => rfl⟩

theorem seq {β' γ' : Type} {g : β' → γ'} {k : β → Checked β'} {k' : γ → Checked γ'}
    (h : Echoes sound f x y) (hk : ∀ b, (x.run none).1 = b → Echoes sound g (k b) (k' (f b))) :
    Echoes sound g (x >>= k) (y >>= k') := by
  obtain ⟨b, rfl, answers, silent⟩ := h
  obtain ⟨b', hy, answers', silent'⟩ := hk b (answers none)
  refine ⟨b', by rw [pure_bind, hy], fun known => ?_, fun holds => ?_⟩
  · rw [StateT.run_bind]
    show ((k (x.run known).1).run (x.run known).2).1 = b'
    rw [answers, answers']
  · rw [silent holds, pure_bind, silent' holds]

/-- What is asked for first is the same on both sides. -/
theorem ask {β' γ' : Type} {g : β' → γ'} {z z' : Checked β} {k : β → Checked β'}
    {k' : β → Checked γ'} (h : Echoes sound id z z') (hk : ∀ b, Echoes sound g (k b) (k' b)) :
    Echoes sound g (z >>= k) (z' >>= k') :=
  h.seq fun b _ => hk b

theorem ite {p : Prop} [Decidable p] {x' : Checked β} {y' : Checked γ}
    (h : p → Echoes sound f x y) (h' : ¬p → Echoes sound f x' y') :
    Echoes sound f (if p then x else x') (if p then y else y') := by
  by_cases hp : p
  · rw [if_pos hp, if_pos hp]
    exact h hp
  · rw [if_neg hp, if_neg hp]
    exact h' hp

/-- What both sides give, and what they remember. -/
theorem run_eq (h : Echoes sound f x y) (known : Option Violation) :
    y.run none = (f (x.run known).1, none) ∧ (sound → (x.run known).2 = known) := by
  obtain ⟨b, rfl, answers, silent⟩ := h
  refine ⟨?_, fun holds => ?_⟩
  · rw [answers]
    rfl
  · rw [silent holds]
    rfl

end Echoes

/-! ## Comparing -/

/-- Checking answers what the comparator says, and finds nothing if both directions agree. -/
theorem checkedCompare_echoes (order : Comparator α) (verify : Bool) (a b : α) :
    Echoes (Std.OrientedCmp order) id (checkedCompare order verify a b)
      (checkedCompare order false a b) := by
  refine ⟨order a b, rfl, fun known => ?_, fun _ => checkedCompare_eq_pure verify a b⟩
  cases verify <;> cases known <;> rfl

section Algorithms

variable {less less' : α → α → Checked Bool} (h : ∀ a b, Echoes sound id (less a b) (less' a b))

include h

/-! ## Heaps -/

namespace Heap

variable {n : Nat}

theorem siftUp_echoes (v : Vector α n) (i : Nat) (hi : i < n) :
    Echoes sound id (siftUp less v i hi) (siftUp less' v i hi) := by
  induction i using Nat.strongRecOn generalizing v with
  | ind i ih =>
    rw [siftUp, siftUp]
    split
    · exact .of_pure id v
    · apply (h _ _).ask
      intro up
      cases up with
      | true => exact ih _ (by omega) _ _
      | false => exact .of_pure id v

theorem greaterChild_echoes (v : Vector α n) (i len : Nat) (hlen : len ≤ n) (hl : 2 * i + 1 < len) :
    Echoes sound id (greaterChild less v i len hlen hl) (greaterChild less' v i len hlen hl) := by
  rw [greaterChild, greaterChild]
  split
  · apply (h _ _).ask
    intro right
    cases right with
    | true => exact .of_pure id _
    | false => exact .of_pure id _
  · exact .of_pure id _

theorem siftDown_echoes (v : Vector α n) (i len : Nat) (hlen : len ≤ n) (hi : i < len) :
    Echoes sound id (siftDown less v i len hlen hi) (siftDown less' v i len hlen hi) := by
  induction hk : len - i using Nat.strongRecOn generalizing v i with
  | ind k ih =>
    rw [siftDown, siftDown]
    split
    · apply (greaterChild_echoes h v i len hlen _).ask
      rintro ⟨child, below, hchild⟩
      apply (h _ _).ask
      intro down
      cases down with
      | true => exact ih _ (by omega) _ _ _ rfl
      | false => exact .of_pure id v
    · exact .of_pure id v

theorem makeBelow_echoes (k : Nat) (hk : k ≤ n) (v : Vector α n) :
    Echoes sound id (makeBelow less k hk v) (makeBelow less' k hk v) := by
  induction k generalizing v with
  | zero => exact .of_pure id v
  | succ k ih => exact (siftDown_echoes h v k n _ hk).ask fun w => ih _ w

theorem make_echoes (v : Vector α n) : Echoes sound id (make less v) (make less' v) :=
  makeBelow_echoes h (n / 2) _ v

theorem push_echoes (v : Vector α n) : Echoes sound id (push less v) (push less' v) := by
  rw [push, push]
  split
  · exact siftUp_echoes h v (n - 1) _
  · exact .of_pure id v

theorem pop_echoes (v : Vector α n) : Echoes sound id (pop less v) (pop less' v) := by
  rw [pop, pop]
  split
  · exact siftDown_echoes h _ 0 (n - 1) _ _
  · exact .of_pure id v

theorem sortBelow_echoes (k : Nat) (hk : k < n) (v : Vector α n) :
    Echoes sound id (sortBelow less k hk v) (sortBelow less' k hk v) := by
  induction k generalizing v with
  | zero => exact .of_pure id v
  | succ k ih => exact (siftDown_echoes h _ 0 (k + 1) _ _).ask fun w => ih _ w

theorem sort_echoes (v : Vector α n) : Echoes sound id (sort less v) (sort less' v) := by
  rw [sort, sort]
  split
  · exact sortBelow_echoes h (n - 1) _ v
  · exact .of_pure id v

omit h in
theorem onArray_echoes {op op' : {n : Nat} → Vector α n → Checked (Vector α n)}
    (hop : ∀ {n : Nat} (v : Vector α n), Echoes sound id (op v) (op' v)) (xs : Array α) :
    Echoes sound id (onArray op xs) (onArray op' xs) :=
  (hop xs.toVector).ask fun v => .of_pure id v.toArray

end Heap
end Algorithms

/-! ## Partition points -/

section Partition

variable {test test' : α → Checked Bool} (h : ∀ a, Echoes sound id (test a) (test' a))

include h

theorem narrow_echoes (xs : Array α) (base size : Nat) (inside : base + size ≤ xs.size)
    (pos : 0 < size) :
    Echoes sound id (narrow test xs base size inside pos) (narrow test' xs base size inside pos) := by
  induction size using Nat.strongRecOn generalizing base with
  | ind size ih =>
    rw [narrow, narrow]
    split
    · apply (h _).ask
      intro passes
      cases passes with
      | true => exact ih _ (by omega) _ _ _
      | false => exact ih _ (by omega) _ _ _
    · exact .of_pure id _

theorem partitionPoint_echoes (xs : Array α) :
    Echoes sound id (partitionPoint test xs) (partitionPoint test' xs) := by
  rw [partitionPoint, partitionPoint]
  split
  · apply (narrow_echoes h xs 0 xs.size _ _).ask
    rintro ⟨i, hi⟩
    apply (h _).ask
    intro passes
    cases passes with
    | true => exact .of_pure id _
    | false => exact .of_pure id _
  · exact .of_pure id 0

end Partition
end ExternalSort
