/-
  ExternalSort.Order.StableSort

  A stable sort by a test that may have effects.

  Short lists are sorted by insertion. Longer ones are cut into natural runs
  and others, which are merged; unsorted stretches between natural runs are
  sorted by division. Elements that are not less than one another keep their
  order. A test that contradicts itself gives some arrangement of the elements,
  or is found out.
-/

import ExternalSort.Order.StableSort.Division

namespace ExternalSort
namespace StableSort

variable {m : Type → Type} [Monad m] {α : Type}

/-- Lists up to this length are sorted by insertion. -/
def insertionLimit : Nat := 20

/-- Makes runs for a list of `n` elements that are sorted only when they meet a sorted one. -/
def lazyPlan (less : α → α → m Bool) (n : Nat) : Plan m α where
  length := goodLength n
  length_pos := goodLength_pos n
  make xs := return ⟨xs, false⟩
  settle := sortDividing less

/-- Sorts a list. -/
@[specialize]
def sort (less : α → α → m Bool) (xs : List α) : Arranging m α (List α) := do
  let n := xs.length
  if n ≤ insertionLimit then (insertionSort less xs : m (List α))
  else if n ≤ 2 * shortLimit then sortByRuns less xs
  else
    let run ← runOf less (lazyPlan less n) xs
    if run.sorted then return run.elements else sortDividing less run.elements

end StableSort
end ExternalSort
