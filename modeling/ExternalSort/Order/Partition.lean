/-
  ExternalSort.Order.Partition

  The point in an array where a test changes from true to false, by halving.

  The window is halved until one element is left; which elements are probed
  depends only on the answers and on the length.
-/

namespace ExternalSort

variable {m : Type → Type} [Monad m] {α : Type}

/-- Narrows a nonempty window of `size` elements from `base` on to its last element that passes the
    test, or to its first element. -/
def narrow (test : α → m Bool) (xs : Array α) (base size : Nat) (h : base + size ≤ xs.size)
    (pos : 0 < size) : m { i : Nat // i < xs.size } :=
  if hs : 1 < size then do
    let half := size / 2
    have hm : base + half < xs.size := by omega
    if ← test xs[base + half] then narrow test xs (base + half) (size - half) (by omega) (by omega)
    else narrow test xs base (size - half) (by omega) (by omega)
  else return ⟨base, by omega⟩
termination_by size
decreasing_by all_goals omega

/-- The number of elements before the first that fails the test, if the test is true and then
    false along the array. -/
def partitionPoint (test : α → m Bool) (xs : Array α) : m Nat :=
  if h : 0 < xs.size then do
    let ⟨i, hi⟩ ← narrow test xs 0 xs.size (by omega) h
    if ← test xs[i] then return i + 1 else return i
  else return 0

end ExternalSort
