/-
  ExternalSort.Proofs.Order.Rearranging

  The heap operations with any test.

  A test may answer what it likes, and change a state while it does: the
  operations only swap elements, so what comes out is a rearrangement of what
  went in.
-/

import ExternalSort.Order.Heap

namespace ExternalSort
namespace Heap

variable {S α β : Type} {n : Nat}

/-- An operation that rearranges a vector, whatever state it runs in. -/
def Rearranges (op : StateM S (Vector α n)) (v : Vector α n) : Prop :=
  ∀ s, (op.run s).1.toList.Perm v.toList

namespace Rearranges

variable {v : Vector α n} {op : StateM S (Vector α n)}

theorem nothing (v : Vector α n) : Rearranges (pure v : StateM S (Vector α n)) v :=
  fun _ => .refl _

/-- What is asked before an operation does not matter to it. -/
theorem ask {question : StateM S β} {f : β → StateM S (Vector α n)}
    (h : ∀ b, Rearranges (f b) v) : Rearranges (question >>= f) v := fun s => by
  rw [StateT.run_bind]
  exact h _ _

theorem seq {f : Vector α n → StateM S (Vector α n)} (h : Rearranges op v)
    (k : ∀ w, Rearranges (f w) w) : Rearranges (op >>= f) v := fun s => by
  rw [StateT.run_bind]
  exact (k _ _).trans (h s)

theorem swap {i j : Nat} {hi : i < n} {hj : j < n} (h : Rearranges op (v.swap i j hi hj)) :
    Rearranges op v := fun s => (h s).trans (Vector.swap_perm hi hj).toList

end Rearranges

variable (less : α → α → StateM S Bool)

theorem siftUp_rearranges (v : Vector α n) (i : Nat) (hi : i < n) :
    Rearranges (siftUp less v i hi) v := by
  induction i using Nat.strongRecOn generalizing v with
  | ind i ih =>
    rw [siftUp]
    split
    · exact .nothing v
    · refine .ask fun up => ?_
      cases up with
      | true => exact .swap (ih _ (by omega) _ _)
      | false => exact .nothing v

theorem siftDown_rearranges (v : Vector α n) (i len : Nat) (hlen : len ≤ n) (hi : i < len) :
    Rearranges (siftDown less v i len hlen hi) v := by
  induction h : len - i using Nat.strongRecOn generalizing v i with
  | ind k ih =>
    rw [siftDown]
    split
    · refine .ask fun ⟨child, below, hchild⟩ => ?_
      refine .ask fun down => ?_
      cases down with
      | true => exact .swap (ih _ (by omega) _ _ _ rfl)
      | false => exact .nothing v
    · exact .nothing v

theorem makeBelow_rearranges (k : Nat) (hk : k ≤ n) (v : Vector α n) :
    Rearranges (makeBelow less k hk v) v := by
  induction k generalizing v with
  | zero => exact .nothing v
  | succ k ih => exact .seq (siftDown_rearranges less v k n _ hk) fun w => ih _ w

theorem make_rearranges (v : Vector α n) : Rearranges (make less v) v :=
  makeBelow_rearranges less (n / 2) _ v

theorem push_rearranges (v : Vector α n) : Rearranges (push less v) v := by
  rw [push]
  split
  · exact siftUp_rearranges less v (n - 1) _
  · exact .nothing v

theorem pop_rearranges (v : Vector α n) : Rearranges (pop less v) v := by
  rw [pop]
  split
  · exact .swap (siftDown_rearranges less _ 0 (n - 1) _ _)
  · exact .nothing v

theorem sortBelow_rearranges (k : Nat) (hk : k < n) (v : Vector α n) :
    Rearranges (sortBelow less k hk v) v := by
  induction k generalizing v with
  | zero => exact .nothing v
  | succ k ih =>
    rw [sortBelow]
    exact .swap (.seq (siftDown_rearranges less _ 0 (k + 1) _ _) fun w => ih _ w)

theorem sort_rearranges (v : Vector α n) : Rearranges (sort less v) v := by
  rw [sort]
  split
  · exact sortBelow_rearranges less (n - 1) _ v
  · exact .nothing v

/-- On an array, too, the elements stay the same. -/
theorem onArray_perm {op : {n : Nat} → Vector α n → StateM S (Vector α n)}
    (h : ∀ {n : Nat} (v : Vector α n), Rearranges (op v) v) (xs : Array α) (s : S) :
    ((onArray op xs).run s).1.toList.Perm xs.toList := by
  have same := h xs.toVector s
  rw [onArray, StateT.run_bind]
  exact same

end Heap
end ExternalSort
