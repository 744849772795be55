/-
  ExternalSort.Order.StableSort.Runs

  Merging runs in an order that keeps the merges balanced.

  A list is cut into runs: stretches that are in order already where they are
  long enough, and pieces of a fixed kind elsewhere. Between two neighbouring
  runs lies a node of an ideal merge tree over the whole list, and a run is
  merged with the one before it as soon as the node behind it is no deeper than
  the one before it. A run may stay unsorted until it meets a sorted one, so
  that unsorted neighbours are sorted together.
-/

import ExternalSort.Order.StableSort.TwoEnded

namespace ExternalSort
namespace StableSort

variable {m : Type → Type} [Monad m] {α : Type}

/-! ## Merging two sorted lists -/

/-- Merges from the front; `out` has what was taken, last to first. -/
@[specialize]
def mergeFront (less : α → α → m Bool) (out : List α) : List α → List α → m (List α)
  | [], ys => return out.reverseAux ys
  | xs, [] => return out.reverseAux xs
  | x :: xs, y :: ys => do
    if ← less y x then mergeFront less (y :: out) (x :: xs) ys
    else mergeFront less (x :: out) xs (y :: ys)
termination_by xs ys => xs.length + ys.length

/-- Merges two lists that are given last to first from the back; `out` has what was taken. -/
@[specialize]
def mergeBack (less : α → α → m Bool) (out : List α) : List α → List α → m (List α)
  | [], ys => return ys.reverseAux out
  | xs, [] => return xs.reverseAux out
  | x :: xs, y :: ys => do
    if ← less y x then mergeBack less (x :: out) xs (y :: ys)
    else mergeBack less (y :: out) (x :: xs) ys
termination_by xs ys => xs.length + ys.length

/-- Merges two sorted lists, on ties the first one first, from the end of the shorter one. -/
@[specialize]
def merge (less : α → α → m Bool) (xs ys : List α) : m (List α) :=
  if xs.length ≤ ys.length then mergeFront less [] xs ys
  else mergeBack less [] xs.reverse ys.reverse

/-! ## Runs -/

/-- Consecutive elements. -/
structure Run (α : Type) where
  elements : List α
  /-- Whether they are in order. -/
  sorted : Bool

/-- The length of the stretch that goes on as it began. The elements before `rest` are `length`
    many, the last of them is `last`, and each is less than the one before it or none is. -/
@[specialize]
def stretch (less : α → α → m Bool) (descending : Bool) (length : Nat) (last : α) :
    (rest : List α) → m Nat
  | [] => return length
  | x :: rest => do
    if (← less x last) == descending then stretch less descending (length + 1) x rest
    else return length

/-- The length of the stretch at the front that is in order or in strictly reverse order, and
    whether it is reversed. -/
@[specialize]
def naturalRun (less : α → α → m Bool) : List α → m (Nat × Bool)
  | x :: y :: rest => do
    let descending ← less y x
    return (← stretch less descending 2 y rest, descending)
  | xs => return (xs.length, false)

/-- An integer near the square root of a number. -/
def nearRoot (n : Nat) : Nat :=
  let shift := (1 + Nat.log2 n) / 2
  ((1 <<< shift) + (n >>> shift)) / 2

/-- The length from which on a natural run in a list of `n` elements is kept. -/
def goodLength (n : Nat) : Nat :=
  max 1 (if n ≤ 4096 then min (n - n / 2) 64 else nearRoot n)

theorem goodLength_pos (n : Nat) : 0 < goodLength n :=
  Nat.lt_of_lt_of_le Nat.zero_lt_one (Nat.le_max_left _ _)

/-- How runs are made where there is no good natural one, and how they are sorted later. -/
structure Plan (m : Type → Type) (α : Type) where
  /-- The length of the runs that are made. -/
  length : Nat
  length_pos : 0 < length
  /-- The run of given elements. -/
  make : List α → Arranging m α (Run α)
  /-- Sorts a run that was made unsorted. -/
  settle : List α → Arranging m α (List α)

/-- Cuts a run from the front of a list of which `count` elements are left. -/
@[specialize]
def cutRun (less : α → α → m Bool) (plan : Plan m α) (good count : Nat) (hgood : 0 < good)
    (x : α) (rest : List α) :
    Arranging m α { c : Run α × List α // c.2.length < (x :: rest).length } := do
  let xs := x :: rest
  let (length, reversed) ←
    -- a rest that is shorter than a good run is not looked at
    (if good ≤ count then naturalRun less xs else pure (0, false) : m (Nat × Bool))
  if h : good ≤ length then
    let run := xs.take length
    return ⟨(⟨if reversed then run.reverse else run, true⟩, xs.drop length), by
      simp only [List.length_drop, xs, List.length_cons]; omega⟩
  else
    let after := xs.drop plan.length
    let run ← (plan.make (xs.take plan.length)).adapt (· ++ after)
    return ⟨(run, after), by
      have := plan.length_pos
      simp only [List.length_drop, after, xs, List.length_cons]; omega⟩

/-- Makes one run of two neighbours. -/
@[specialize]
def join (less : α → α → m Bool) (plan : Plan m α) (left right : Run α) :
    Arranging m α (Run α) := do
  if left.sorted || right.sorted then
    let xs ← if left.sorted then pure left.elements
      else (plan.settle left.elements).adapt (· ++ right.elements)
    let ys ← if right.sorted then pure right.elements
      else (plan.settle right.elements).adapt (xs ++ ·)
    return ⟨← (merge less xs ys : m (List α)), true⟩
  else return ⟨left.elements ++ right.elements, false⟩

/-! ## The merge tree -/

/-- The depth of the node between two runs of a list of `n` elements. The runs reach from `start`
    to `middle` and from there to `stop`; their centres differ first in the binary digit that
    tells the level of the node. -/
def nodeDepth (n start middle stop : Nat) : Nat :=
  -- centres as fractions of the list, in 62 binary digits
  let scale := ((1 <<< 62) + n - 1) / n
  let difference := (scale * (start + middle)) ^^^ (scale * (middle + stop))
  if difference = 0 then 64 else 63 - Nat.log2 difference

/-- The runs that wait to be merged, last to first, each with the depth of the node behind it. -/
abbrev Pending (α : Type) := List (Run α × Nat)

/-- The elements of the runs that wait. -/
def Pending.elements (pending : Pending α) : List α :=
  pending.foldl (fun after p => p.1.elements ++ after) []

/-- Merges a run with those before it whose nodes are no less deep than `depth`. The first run of
    all waits to the end. -/
@[specialize]
def collapse (less : α → α → m Bool) (plan : Plan m α) (depth : Nat) :
    Pending α → Run α → Arranging m α (Pending α × Run α)
  | (left, d) :: below :: rest, run => do
    if depth ≤ d then
      let run ← (join less plan left run).adapt (Pending.elements (below :: rest) ++ ·)
      collapse less plan depth (below :: rest) run
    else return ((left, d) :: below :: rest, run)
  | pending, run => return (pending, run)

/-- Cuts a list of `n` elements into runs and merges them. `run` is the last run that was cut, and
    ends at `start`. -/
@[specialize]
def mergeRuns (less : α → α → m Bool) (plan : Plan m α) (n : Nat) (pending : Pending α)
    (run : Run α) (start : Nat) : (rest : List α) → Arranging m α (Run α)
  | [] => do return (← collapse less plan 0 pending run).2
  | x :: rest => do
    let ⟨(next, after), _⟩ ←
      (cutRun less plan (goodLength n) (n - start) (goodLength_pos n) x rest).adapt
        (pending.elements ++ run.elements ++ ·)
    let stop := start + next.elements.length
    let depth := nodeDepth n (start - run.elements.length) start stop
    let (pending, run) ←
      (collapse less plan depth pending run).adapt (· ++ next.elements ++ after)
    mergeRuns less plan n ((run, depth) :: pending) next stop after
termination_by rest => rest.length
decreasing_by assumption

/-- Makes one run of a list. -/
@[specialize]
def runOf (less : α → α → m Bool) (plan : Plan m α) (xs : List α) : Arranging m α (Run α) :=
  mergeRuns less plan xs.length [] ⟨[], true⟩ 0 xs

end StableSort
end ExternalSort
