/-
  ExternalSort.Sorter.SingleBest

  The sorter that keeps only the best record. It never touches the disk, and of
  equal records it keeps the first.
-/

import ExternalSort.Sorter.Backing

namespace ExternalSort

/-- A sorter with the limit 1. -/
structure SingleBest (ρ : Type) where
  options : Options
  order : Comparator ρ
  best : Option ρ := none
  sorted : Nat := 0
  dataSize : Nat := 0
  /-- No more records are taken. -/
  finished : Bool := false

namespace SingleBest

variable {ρ : Type} [Storable ρ]

/-- A sorter with the given options. -/
def ofOptions (options : Options) (order : Comparator ρ) : SpillM (SingleBest ρ) := do
  options.validate (← get).spillForbidden
  if options.limit ≠ 1 then throw (.configuration (.singleBestLimit options.limit))
  return { options, order }

/-- Whether a record is better than the best one so far. -/
def beatsBest (s : SingleBest ρ) (record : ρ) : Checked Bool := do
  match s.best with
  | none => return true
  | some best => return (← checkedCompare s.order s.options.verifyOrder best record) == .gt

/-- Takes a record, with what its buffers hold in reserve. Only the footprints of records that were
    the best for a while are counted. -/
def add (record : ρ) (spare : Nat := 0) : SorterM (SingleBest ρ) Unit := do
  if (← get).finished then throw (.misuse .addAfterDone)
  modify fun s => { s with sorted := s.sorted + 1 }
  if ← SorterM.checked ((← get).beatsBest record) then
    let size := (⟨record, spare⟩ : Resident ρ).footprint
    modify fun s => { s with best := some record, dataSize := s.dataSize + size }

/-- Ends the input and gives out the best record. -/
def done : SorterM (SingleBest ρ) (Sorted ρ) := do
  if (← get).finished then throw (.misuse .doneTwice)
  let s ← get
  set { s with finished := true, best := if s.options.moveResults then none else s.best }
  return .inl ⟨s.best.toList⟩

/-- There is nothing to persist. -/
def persist : SorterM (SingleBest ρ) Manifest := throw (.misuse .persistSingleBest)

/-- The statistics so far. -/
def statistics (s : SingleBest ρ) : Statistics where
  sorted := s.sorted
  dataSize := s.dataSize

end SingleBest
end ExternalSort
