/-
  ExternalSort.Order.StableSort.Short

  Sorting short lists.

  A list is halved, each half is sorted by insertion behind its first four
  elements, which five comparisons sort, and the halves are merged.
-/

import ExternalSort.Order.StableSort.Insertion
import ExternalSort.Order.StableSort.TwoEnded

namespace ExternalSort
namespace StableSort

variable {m : Type → Type} [Monad m] {α : Type}

/-- Lists up to this length count as short. -/
def shortLimit : Nat := 32

/-- Two elements in order. -/
@[specialize]
def sortTwo (less : α → α → m Bool) (x y : α) : m (α × α) := do
  return if ← less y x then (y, x) else (x, y)

/-- Sorts four elements. Two ordered pairs give the least and the greatest element, and of the two
    that are left it is known which one stood first. -/
@[specialize]
def sortFour (less : α → α → m Bool) : List α → m (List α)
  | [w, x, y, z] => do
    let (a, b) ← sortTwo less w x
    let (c, d) ← sortTwo less y z
    let leastRight ← less c a
    let greatestLeft ← less d b
    let least := if leastRight then c else a
    let greatest := if greatestLeft then b else d
    let first := if leastRight then a else if greatestLeft then c else b
    let second := if greatestLeft then d else if leastRight then b else c
    let (lower, upper) ← sortTwo less first second
    return [least, lower, upper, greatest]
  | xs => return xs

/-- The sorted start of a half: four elements if the whole list has at least eight. -/
@[specialize]
def sortStart (less : α → α → m Bool) (long : Bool) (half : List α) : m (List α × List α) := do
  if long then return (← sortFour less (half.take 4), half.drop 4)
  else return (half.take 1, half.drop 1)

/-- The sorted halves of a list. -/
@[specialize]
def sortHalves (less : α → α → m Bool) (xs : List α) : m (List α × List α) := do
  let n := xs.length
  let (leftStart, leftRest) ← sortStart less (8 ≤ n) (xs.take (n / 2))
  let (rightStart, rightRest) ← sortStart less (8 ≤ n) (xs.drop (n / 2))
  let left ← insertAll less leftStart.reverse leftRest
  let right ← insertAll less rightStart.reverse rightRest
  return (left.reverse, right.reverse)

/-- Sorts a short list. -/
@[specialize]
def sortShort (less : α → α → m Bool) (xs : List α) : Arranging m α (List α) := do
  if xs.length < 2 then return xs
  let (left, right) ← (sortHalves less xs : m (List α × List α))
  mergeHalves less left right

end StableSort
end ExternalSort
