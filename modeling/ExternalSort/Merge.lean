/-
  ExternalSort.Merge

  Merging sorted sources.

  The merge keeps the next record of every source in a heap with the smallest
  record on top; equal records leave in the order of their sources. A source is
  closed as soon as it runs dry, so that what closing finds comes out before the
  merge goes on. After an error nothing more comes out, and closing or
  releasing the merge closes the sources that are left.
-/

import ExternalSort.Order.Check
import ExternalSort.Order.Heap
import ExternalSort.Source

namespace ExternalSort

/-- A source with the record that it will give next, and its place among the sources. -/
structure MergeStream (σ ρ : Type) where
  index : Nat
  current : ρ
  source : σ

/-- A merge of sources `σ` of records `ρ`. -/
structure Merge (σ ρ : Type) where
  heap : Array (MergeStream σ ρ)
  /-- How many records may still come out. -/
  remaining : Nat
  order : Comparator ρ
  verify : Bool

namespace Merge

variable {m : Type → Type} [Monad m] {σ ρ : Type}

/-- The number of records that an unlimited merge gives out at most. -/
def unlimited : Nat := UInt64.size - 1

/-! ## The heap -/

/-- Whether one stream's record comes after another's; the heap has the greatest on top, so this is
    its order the other way round. -/
def comesAfter (order : Comparator ρ) (verify : Bool) (a b : MergeStream σ ρ) : Checked Bool := do
  return (← checkedCompare order verify a.current b.current).then (compare a.index b.index) == .gt

/-- Makes a heap of streams. -/
def arrange (order : Comparator ρ) (verify : Bool) (heap : Array (MergeStream σ ρ)) :
    Checked (Array (MergeStream σ ρ)) :=
  Heap.onArray (Heap.make (comesAfter order verify)) heap

/-- Takes the stream on top out of the heap. -/
def takeTop (q : Merge σ ρ) : Checked (Option (MergeStream σ ρ) × Merge σ ρ) := do
  let heap ← Heap.onArray (Heap.pop (comesAfter q.order q.verify)) q.heap
  return (heap.back?, { q with heap := heap.pop })

/-- Puts a stream back into the heap. -/
def putBack (q : Merge σ ρ) (stream : MergeStream σ ρ) : Checked (Merge σ ρ) := do
  let heap ← Heap.onArray (Heap.push (comesAfter q.order q.verify)) (q.heap.push stream)
  return { q with heap := heap }

/-! ## Closing -/

variable [SortedSource m σ ρ]

/-- Releases the sources of streams, first to last, without closing them. -/
def releaseStreams (streams : List (MergeStream σ ρ)) : m Unit :=
  SortedSource.releaseAll (streams.map (·.source))

/-- Closes and releases the sources of streams, first to last, and tells the first error. -/
def closeStreams : List (MergeStream σ ρ) → m (Except SortError Unit)
  | [] => return .ok ()
  | stream :: rest => do
    let (result, source) ← SortedSource.close stream.source
    SortedSource.release source
    let others ← closeStreams rest
    match result with
    | .error e => return .error e
    | .ok () => return others

/-- Closes every source that is left. -/
def closeAll (q : Merge σ ρ) : m (Except SortError Unit × Merge σ ρ) := do
  let result ← closeStreams q.heap.toList
  return (result, { q with heap := #[] })

/-- Ends the merge and closes every source that is left. -/
def close (q : Merge σ ρ) : m (Except SortError Unit × Merge σ ρ) :=
  closeAll { q with remaining := 0 }

/-- Gives up the merge; errors of its sources have no one to go to. -/
def release (q : Merge σ ρ) : m Unit := do
  let _ ← closeStreams q.heap.toList

/-! ## Making a merge -/

/-- Asks every source for its first record. A source without one is closed at once. -/
def collect (index : Nat) : List σ → Array (MergeStream σ ρ) →
    m (Except SortError (Array (MergeStream σ ρ)))
  | [], heap => return .ok heap
  | source :: rest, heap => do
    let (step, source) ← SortedSource.next source
    match step with
    | some (.ok first) => collect (index + 1) rest (heap.push ⟨index, first, source⟩)
    -- none of the others is closed, so none of them is verified
    | some (.error e) =>
      SortedSource.release source
      SortedSource.releaseAll rest
      releaseStreams heap.toList
      return .error e
    | none =>
      let (result, source) ← SortedSource.close source
      SortedSource.release source
      match result with
      | .ok () => collect (index + 1) rest heap
      | .error e =>
        SortedSource.releaseAll rest
        releaseStreams heap.toList
        return .error e

/-- A merge of sources; a limit of 0 means no limit. -/
def ofSources (sources : List σ) (limit : UInt64) (order : Comparator ρ) (verify : Bool) :
    m (Except SortError (Merge σ ρ)) := do
  match ← collect 0 sources #[] with
  | .error e => return .error e
  | .ok streams =>
    match (arrange order verify streams).runFresh with
    | (heap, some violation) =>
      releaseStreams heap.toList
      return .error (.comparatorInvariantViolation violation)
    | (heap, none) =>
      return .ok { heap, remaining := if limit = 0 then unlimited else limit.toNat, order, verify }

/-! ## Giving out records -/

/-- An error ends the merge. -/
def fail (q : Merge σ ρ) (e : SortError) : Step ρ × Merge σ ρ :=
  (some (.error e), { q with remaining := 0 })

/-- Gives out a record, unless the comparisons made for it met a violation. The last record of a
    limited merge closes the sources that are left. -/
def deliver (q : Merge σ ρ) (record : ρ) (violation : Option Violation) :
    m (Step ρ × Merge σ ρ) := do
  match violation with
  | some v => return q.fail (.comparatorInvariantViolation v)
  | none =>
    -- what closing finds comes instead of the last record
    if q.remaining = 0 then
      match ← closeAll q with
      | (.ok (), q) => return (some (.ok record), q)
      | (.error e, q) => return q.fail e
    else return (some (.ok record), q)

/-- The next record. Its source is advanced before it is given out. -/
def next (q : Merge σ ρ) : m (Step ρ × Merge σ ρ) := do
  if q.remaining = 0 || q.heap.isEmpty then return (none, q)
  let ((top, q), violation) := (takeTop { q with remaining := q.remaining - 1 }).runFresh
  -- a heap that is not empty has a top
  match top with
  | none => return (none, q)
  | some stream =>
    let (step, source) ← SortedSource.next stream.source
    match step with
    | some (.ok record) =>
      let (q, violation) := (putBack q { stream with current := record, source }).run violation
      deliver q stream.current violation
    -- the record that was taken is lost to the error behind it
    | some (.error e) =>
      SortedSource.release source
      return q.fail e
    | none =>
      let (result, source) ← SortedSource.close source
      SortedSource.release source
      match result with
      | .error e => return q.fail e
      | .ok () => deliver q stream.current violation

instance : SortedSource m (Merge σ ρ) ρ where
  next := next
  close := close
  release := release
  extent? _ := none

end Merge

/-! ## Merges of merges -/

/-- Sources `σ` and merges of them, of merges of them, and so on, up to a depth. -/
def Cascade (σ ρ : Type) : (depth : Nat) → Type
  | 0 => σ
  | depth + 1 => Cascade σ ρ depth ⊕ Merge (Cascade σ ρ depth) ρ

namespace Cascade

variable {m : Type → Type} [Monad m] {σ ρ : Type}

instance sortedSource [SortedSource m σ ρ] : (depth : Nat) → SortedSource m (Cascade σ ρ depth) ρ
  | 0 => inferInstanceAs (SortedSource m σ ρ)
  | depth + 1 =>
    letI := sortedSource depth
    inferInstanceAs (SortedSource m (Cascade σ ρ depth ⊕ Merge (Cascade σ ρ depth) ρ) ρ)

/-- The same source, at a greater depth. -/
def raise {depth : Nat} (c : Cascade σ ρ depth) : (more : Nat) → Cascade σ ρ (depth + more)
  | 0 => c
  | more + 1 => .inl (c.raise more)

end Cascade
end ExternalSort
