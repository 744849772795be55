/-
  ExternalSort.Order.StableSort.Insertion

  Sorting by insertion from the back.

  An element moves in front of another only if the test says that it is less,
  so elements that are not less than one another keep their order. The test
  runs in a monad because a test may count or check what it compares.
-/

namespace ExternalSort
namespace StableSort

variable {m : Type → Type} [Monad m] {α : Type}

/-- Inserts `x` into a sorted list that is given from its greatest element down. -/
@[specialize]
def insertBack (less : α → α → m Bool) (x : α) : List α → m (List α)
  | [] => return [x]
  | y :: rest => do
    if ← less x y then return y :: (← insertBack less x rest)
    else return x :: y :: rest

/-- Inserts the elements of a list, first to last, into a sorted list given from its greatest
    element down. -/
@[specialize]
def insertAll (less : α → α → m Bool) : (sorted : List α) → List α → m (List α)
  | sorted, [] => return sorted
  | sorted, x :: rest => do insertAll less (← insertBack less x sorted) rest

/-- Sorts by insertion. -/
@[specialize]
def insertionSort (less : α → α → m Bool) (xs : List α) : m (List α) := do
  return (← insertAll less [] xs).reverse

end StableSort
end ExternalSort
