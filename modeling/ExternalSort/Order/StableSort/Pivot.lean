/-
  ExternalSort.Order.StableSort.Pivot

  Choosing an element near the middle of the order, and dividing a list by it.

  The pivot is the median of three elements, or in a long list the median of
  medians of samples around three places.
-/

namespace ExternalSort
namespace StableSort

variable {m : Type → Type} [Monad m] {α : Type}

/-- The median of the elements at three places. -/
@[specialize]
def medianOfThree (less : α → α → m Bool) (get : Nat → α) (a b c : Nat) : m Nat := do
  let belowB ← less (get a) (get b)
  let belowC ← less (get a) (get c)
  if belowB == belowC then
    let inOrder ← less (get b) (get c)
    return if inOrder == belowB then b else c
  else return a

/-- The median of the medians around three places, each at the start of `n` elements. -/
@[specialize]
def pseudoMedian (less : α → α → m Bool) (get : Nat → α) (a b c n : Nat) : m Nat := do
  if _h : 8 ≤ n then
    let step := n / 8
    let a ← pseudoMedian less get a (a + step * 4) (a + step * 7) step
    let b ← pseudoMedian less get b (b + step * 4) (b + step * 7) step
    let c ← pseudoMedian less get c (c + step * 4) (c + step * 7) step
    medianOfThree less get a b c
  else medianOfThree less get a b c
termination_by n

/-- The place of the pivot of a list that begins with `first`. -/
@[specialize]
def pivotIndex (less : α → α → m Bool) (first : α) (xs : Array α) : m Nat :=
  let step := xs.size / 8
  pseudoMedian less (fun i => xs.getD i first) 0 (step * 4) (step * 7) step

/-- Divides a list into the elements that pass a test and those that do not. What is known of
    both is given last to first, and so is the result. -/
@[specialize]
def deal (test : α → m Bool) : (pass fail : List α) → List α → m (List α × List α)
  | pass, fail, [] => return (pass, fail)
  | pass, fail, x :: rest => do
    if ← test x then deal test (x :: pass) fail rest else deal test pass (x :: fail) rest

/-- Divides a list by a test, which is not asked about the pivot: that passes if `pivotPasses`. -/
@[specialize]
def divide (test : α → m Bool) (before : List α) (pivot : α) (after : List α)
    (pivotPasses : Bool) : m (List α × List α) := do
  let (pass, fail) ← deal test [] [] before
  let (pass, fail) ←
    if pivotPasses then deal test (pivot :: pass) fail after
    else deal test pass (pivot :: fail) after
  return (pass.reverse, fail.reverse)

end StableSort
end ExternalSort
