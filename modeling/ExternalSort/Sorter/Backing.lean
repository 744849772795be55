/-
  ExternalSort.Sorter.Backing

  The disk side of a sorter: its spill file, the runs written so far, and the
  counts that its statistics show.

  Operations on a sorter change it also when they fail, so they run in a state
  monad below the errors.
-/

import ExternalSort.Merge
import ExternalSort.Order.StableSort
import ExternalSort.Run.Writer
import ExternalSort.Statistics

namespace ExternalSort

/-- Operations on a sorter of type `S`. -/
abbrev SorterM (S : Type) := ExceptT Failure (StateT S StoreM)

namespace SorterM

variable {S α : Type}

/-- An operation with spill files, within one on a sorter. -/
def spill (op : SpillM α) : SorterM S α := do
  match ← (op.run : StoreM (Except SortError α)) with
  | .ok a => return a
  | .error e => throw (.error e)

/-- Fails with a violation that checked comparisons met. -/
def report (violation : Option Violation) : SorterM S Unit := do
  match violation with
  | some v => throw (.error (.comparatorInvariantViolation v))
  | none => return ()

/-- Runs checked comparisons, which must not meet a violation. -/
def checked (c : Checked α) : SorterM S α := do
  let (a, violation) := c.runFresh
  report violation
  return a

/-- Sorts with checked comparisons, and puts the elements back as they are arranged then. Fails if
    the comparisons met a violation or contradicted each other. -/
def arrange {β : Type} (sort : StableSort.Arranging Checked β (List β))
    (replace : List β → S → S) : SorterM S Unit := do
  let (result, violation) := sort.run.runFresh
  match result with
  | .ok sorted =>
    modify (replace sorted)
    report violation
  | .error arranged =>
    modify (replace arranged)
    throw (.misuse .contradictoryOrder)

end SorterM

/-- What a sorter gives out when it is done: records that stayed in memory, or a merge of runs. -/
abbrev Sorted (ρ : Type) := InMemory ρ ⊕ Merge (RunReader ρ) ρ

/-- A record in memory, and the bytes that its buffers hold in reserve beyond their content. -/
structure Resident (ρ : Type) where
  record : ρ
  spare : Nat := 0

/-- The memory that a record in memory is charged for. -/
def Resident.footprint {ρ : Type} [Storable ρ] (r : Resident ρ) : Nat :=
  Storable.footprint r.record + r.spare

/-- The disk side of a sorter of records `ρ`. -/
structure Backing (ρ : Type) where
  options : Options
  file : Option FileRef
  runs : Array (RunReader ρ) := #[]
  spills : Nat := 0
  sorted : Nat := 0
  dataSize : Nat := 0
  /-- No more records are taken. -/
  finished : Bool := false

namespace Backing

variable {ρ : Type}

/-- A backing whose file is named now and made on the first spill. -/
def ofOptions (options : Options) : StoreM (Backing ρ) := do
  match options.spillDirectory, options.spillAllowed with
  | some directory, true =>
    let name ← Store.freshName
    let file ← Store.register (directory.join ⟨name⟩)
    return { options, file := some file }
  | _, _ => return { options, file := none }

/-- Records can be added until the sorter is done. -/
def requireAccepting (b : Backing ρ) : Except Failure Unit :=
  if b.finished then .error (.misuse .addAfterDone) else .ok ()

/-- A sorter is done once. -/
def requireUnfinished (b : Backing ρ) : Except Failure Unit :=
  if b.finished then .error (.misuse .doneTwice) else .ok ()

/-- Whether the options allow a spill. -/
def requireSpillAllowed (b : Backing ρ) : Except Failure Unit :=
  if b.options.spillAllowed then .ok ()
  else .error (.error (.memoryLimitExceeded b.options.memoryBudget))

/-- The spill file. -/
def spillFile (b : Backing ρ) : Except SortError FileRef :=
  match b.file with
  | some file => .ok file
  | none => .error (.configuration .noSpillFile)

/-- Writes records as one run. If that fails, the bytes written so far belong to no run. -/
def writeRun [Storable ρ] (b : Backing ρ) (records : List ρ) : SpillM (RunReader ρ) := do
  let file ← b.spillFile
  let writer ← RunWriter.begin b.options file
  match ← ((RunWriter.addAll records).run.run writer : StoreM _) with
  | (.ok (), writer) => writer.finish
  | (.error e, writer) => do
    writer.release
    throw e

/-- Makes the spill file stay on disk, and describes its runs. -/
def manifest (b : Backing ρ) : SpillM Manifest := do
  let file ← b.spillFile
  Store.onFile file SpillFile.flush
  Store.onFile file SpillFile.keep
  return { fileName := ((← get).file file).fileName, extents := b.runs.toList.map (·.extent) }

/-- Merges the runs; the merge takes them over. -/
def mergeRuns [Storable ρ] (b : Backing ρ) (order : Comparator ρ) : SpillM (Sorted ρ) := do
  let merge ← ExceptT.mk
    (Merge.ofSources b.runs.toList b.options.limit order b.options.verifyOrder)
  return .inr merge

/-- The statistics so far. -/
def statistics (b : Backing ρ) (s : Store) : Statistics where
  spills := b.spills
  sorted := b.sorted
  dataSize := b.dataSize
  io := b.file.map fun file => (s.file file).io

/-- Lets go of the file and of the runs. -/
def release [Storable ρ] (b : Backing ρ) : StoreM Unit := do
  match b.file with
  | some file => Store.release file
  | none => pure ()
  SortedSource.releaseAll b.runs.toList

end Backing
end ExternalSort
