/-
  ExternalSort.Order.Heap

  Binary heaps in a vector, with the greatest element at index 0.

  The children of index `i` stand at `2 * i + 1` and `2 * i + 2`. All
  operations only swap elements, so each permutes the vector whatever the test
  answers, and every index is in bounds by its type. The test runs in a monad
  because a test may count or check what it compares.
-/

namespace ExternalSort
namespace Heap

variable {m : Type → Type} [Monad m] {α : Type} {n : Nat}

/-- Moves the element at `i` up while its parent is less. -/
def siftUp (less : α → α → m Bool) (v : Vector α n) (i : Nat) (hi : i < n) : m (Vector α n) :=
  if h : i = 0 then return v
  else do
    let parent := (i - 1) / 2
    have hp : parent < n := by omega
    if ← less v[parent] v[i] then siftUp less (v.swap parent i) parent hp
    else return v
termination_by i
decreasing_by omega

/-- The greater of the children of `i` within the first `len` elements, the left one on ties. -/
def greaterChild (less : α → α → m Bool) (v : Vector α n) (i len : Nat) (hlen : len ≤ n)
    (hl : 2 * i + 1 < len) : m { c : Nat // i < c ∧ c < len } :=
  if hr : 2 * i + 2 < len then do
    if ← less v[2 * i + 1] v[2 * i + 2] then return ⟨2 * i + 2, by omega, hr⟩
    else return ⟨2 * i + 1, by omega, hl⟩
  else return ⟨2 * i + 1, by omega, hl⟩

/-- Moves the element at `i` down, within the first `len` elements, while a child is greater. -/
def siftDown (less : α → α → m Bool) (v : Vector α n) (i len : Nat) (hlen : len ≤ n)
    (hi : i < len) : m (Vector α n) :=
  if hl : 2 * i + 1 < len then do
    let ⟨child, _, hc⟩ ← greaterChild less v i len hlen hl
    if ← less v[i] v[child] then siftDown less (v.swap i child) child len hlen hc
    else return v
  else return v
termination_by len - i

/-- Moves the first `k` elements down, last to first. -/
def makeBelow (less : α → α → m Bool) : (k : Nat) → k ≤ n → Vector α n → m (Vector α n)
  | 0, _, v => return v
  | k + 1, h, v => do makeBelow less k (by omega) (← siftDown less v k n (Nat.le_refl n) h)

/-- Turns a vector into a heap. -/
def make (less : α → α → m Bool) (v : Vector α n) : m (Vector α n) :=
  makeBelow less (n / 2) (by omega) v

/-- Restores the heap after one element was put behind a heap. -/
def push (less : α → α → m Bool) (v : Vector α n) : m (Vector α n) :=
  if h : 1 < n then siftUp less v (n - 1) (by omega) else return v

/-- Moves the greatest element of a heap to the end and leaves a heap in front of it. -/
def pop (less : α → α → m Bool) (v : Vector α n) : m (Vector α n) :=
  if h : 1 < n then
    siftDown less (v.swap 0 (n - 1)) 0 (n - 1) (by omega) (by omega)
  else return v

/-- Sorts the first `k + 1` elements, which are a heap. -/
def sortBelow (less : α → α → m Bool) : (k : Nat) → k < n → Vector α n → m (Vector α n)
  | 0, _, v => return v
  | k + 1, h, v => do
    let v ← siftDown less (v.swap 0 (k + 1)) 0 (k + 1) (by omega) (by omega)
    sortBelow less k (by omega) v

/-- Sorts a heap in ascending order. -/
def sort (less : α → α → m Bool) (v : Vector α n) : m (Vector α n) :=
  if h : 0 < n then sortBelow less (n - 1) (by omega) v else return v

/-! ## On arrays -/

/-- Applies an operation on vectors to an array. -/
def onArray (op : {n : Nat} → Vector α n → m (Vector α n)) (xs : Array α) : m (Array α) := do
  return (← op xs.toVector).toArray

end Heap
end ExternalSort
