/-
  ExternalSort.Order.StableSort.Division

  Sorting by division at pivots.

  A list is divided into the elements that are less than a pivot and the
  others. A pivot that is not greater than an earlier one on its left is the
  least element, and then those that equal it are split off at once. A bound on
  the number of divisions guards against bad pivots: beyond it the list is
  sorted by merging short runs.
-/

import ExternalSort.Order.StableSort.Pivot
import ExternalSort.Order.StableSort.Runs
import ExternalSort.Order.StableSort.Short

namespace ExternalSort
namespace StableSort

variable {m : Type → Type} [Monad m] {α : Type}

/-- Makes short runs, sorted at once. -/
def eagerPlan (less : α → α → m Bool) : Plan m α where
  length := shortLimit
  length_pos := by decide
  make xs := do return ⟨← sortShort less xs, true⟩
  settle := sortShort less

/-- Sorts by merging short runs. -/
@[specialize]
def sortByRuns (less : α → α → m Bool) (xs : List α) : Arranging m α (List α) := do
  return (← runOf less (eagerPlan less) xs).elements

/-- A list divided at a pivot. -/
inductive Division (α : Type)
  /-- The pivot is least: the elements that equal it, and those that are greater. -/
  | least (equal greater : List α)
  /-- The elements that are less than the pivot, and the others. -/
  | between (low : List α) (pivot : α) (high : List α)

/-- A list that begins with `first`, cut at a place: what stands before it, there and behind it. A
    place that the list does not have is taken for the first one. -/
def cutAt (first : α) (rest : List α) (place : Nat) : List α × α × List α :=
  match (first :: rest).splitAt place with
  | (before, pivot :: after) => (before, pivot, after)
  | (_, []) => ([], first, rest)

/-- Divides a list at its pivot. No element is less than `bound`, if there is one. -/
@[specialize]
def divideAtPivot (less : α → α → m Bool) (bound : Option α) (first : α) (rest : List α) :
    m (Division α) := do
  let xs := first :: rest
  let (before, pivot, after) := cutAt first rest (← pivotIndex less first xs.toArray)
  -- nothing is less than the bound, so a pivot that is not greater than it is least
  let isLeast ← match bound with
    | some bound => do pure !(← less bound pivot)
    | none => pure false
  let (low, high) ← if isLeast then pure ([], xs)
    else divide (fun x => less x pivot) before pivot after false
  -- nothing is less than the pivot, so what equals it needs no more sorting
  if low.isEmpty then
    let (equal, greater) ← divide (fun x => do return !(← less pivot x)) before pivot after true
    return .least equal greater
  else return .between low pivot high

/-- Sorts by at most `limit` divisions on top of each other. No element is less than `bound`, if
    there is one. -/
@[specialize]
def sortByDivision (less : α → α → m Bool) :
    (limit : Nat) → (bound : Option α) → List α → Arranging m α (List α)
  | _, _, [] => return []
  | 0, _, xs => if xs.length ≤ shortLimit then sortShort less xs else sortByRuns less xs
  | limit + 1, bound, first :: rest => do
    if rest.length < shortLimit then sortShort less (first :: rest)
    else
      match ← (divideAtPivot less bound first rest : m (Division α)) with
      | .least equal greater =>
        return equal ++ (← (sortByDivision less limit none greater).adapt (equal ++ ·))
      | .between low pivot high =>
        let high ← (sortByDivision less limit (some pivot) high).adapt (low ++ ·)
        let low ← (sortByDivision less limit bound low).adapt (· ++ high)
        return low ++ high

/-- Sorts by division, with a bound that good pivots do not reach. -/
@[specialize]
def sortDividing (less : α → α → m Bool) (xs : List α) : Arranging m α (List α) :=
  sortByDivision less (2 * Nat.log2 xs.length) none xs

end StableSort
end ExternalSort
