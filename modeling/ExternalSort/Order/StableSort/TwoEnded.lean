/-
  ExternalSort.Order.StableSort.TwoEnded

  Merging two sorted halves from both ends at once.

  Each step takes the least element at the fronts of the halves and the
  greatest at their backs, without looking at what the other end has taken. If
  the test orders the elements, the two ends meet and every element is taken
  once. If they do not meet, the test contradicts itself.
-/

namespace ExternalSort
namespace StableSort

/-- Sorting elements of type `α`. It fails if the test is seen to contradict itself, and then
    tells how the elements are arranged at that point. -/
abbrev Arranging (m : Type → Type) (α : Type) := ExceptT (List α) m

/-- Two halves while they are merged from both ends. -/
structure Ends (α : Type) where
  /-- What the front has not taken from the left half. -/
  leftFront : List α
  /-- What the front has not taken from the right half. -/
  rightFront : List α
  /-- What the back has not taken from the left half, last to first. -/
  leftBack : List α
  /-- What the back has not taken from the right half, last to first. -/
  rightBack : List α
  /-- What the front has taken, last to first. -/
  low : List α := []
  /-- What the back has taken, first to last. -/
  high : List α := []

namespace Ends

variable {m : Type → Type} [Monad m] {α : Type}

/-- Two halves of which nothing is taken. -/
def ofHalves (left right : List α) : Ends α where
  leftFront := left
  rightFront := right
  leftBack := left.reverse
  rightBack := right.reverse

/-- Takes the least element at the fronts, on ties the left one. -/
@[specialize]
def takeLeast (less : α → α → m Bool) (e : Ends α) : m (Ends α) :=
  match e.leftFront, e.rightFront with
  | x :: xs, y :: ys => do
    if ← less y x then return { e with rightFront := ys, low := y :: e.low }
    else return { e with leftFront := xs, low := x :: e.low }
  | _, _ => return e

/-- Takes the greatest element at the backs, on ties the right one. -/
@[specialize]
def takeGreatest (less : α → α → m Bool) (e : Ends α) : m (Ends α) :=
  match e.leftBack, e.rightBack with
  | x :: xs, y :: ys => do
    if ← less y x then return { e with leftBack := xs, high := x :: e.high }
    else return { e with rightBack := ys, high := y :: e.high }
  | _, _ => return e

/-- Takes elements from both ends. -/
@[specialize]
def takeBoth (less : α → α → m Bool) : (steps : Nat) → Ends α → m (Ends α)
  | 0, e => return e
  | steps + 1, e => do takeBoth less steps (← takeGreatest less (← takeLeast less e))

/-- What was taken, with the element between the ends if there is one, provided that the ends have
    met. The left half has `half` elements, the right one as many or `odd`ly one more. -/
def meet? (half : Nat) (odd : Bool) (e : Ends α) : Option (List α) :=
  let untaken := e.leftFront.length + e.leftBack.length
  -- both ends cut the left half at one place, so an odd element is one of the right half
  if untaken = half then
    some (e.low.reverse ++ e.rightFront.take odd.toNat ++ e.high)
  else if odd && untaken = half + 1 then
    some (e.low.reverse ++ e.leftFront.take 1 ++ e.high)
  else none

end Ends

variable {m : Type → Type} [Monad m] {α : Type}

/-- Merges two sorted halves, of which the right one has as many elements as the left one or one
    more. -/
@[specialize]
def mergeHalves (less : α → α → m Bool) (left right : List α) : Arranging m α (List α) := do
  let half := left.length
  let ends ← (Ends.takeBoth less half (Ends.ofHalves left right) : m (Ends α))
  match ends.meet? half (half < right.length) with
  | some merged => return merged
  | none => throw (left ++ right)

end StableSort
end ExternalSort
