/-
  ExternalSort.Sorter.Unbounded

  The sorter that returns every record.

  Records gather in memory. When their footprint passes the budget they are
  sorted and written as a run; in the end the runs are merged. What was spilled
  can be kept on disk and taken up by another sorter.
-/

import ExternalSort.Sorter.Backing

namespace ExternalSort

/-- A sorter without a limit. -/
structure Unbounded (ρ : Type) where
  backing : Backing ρ
  order : Comparator ρ
  /-- The records in memory, in the order of arrival. -/
  data : Array (Resident ρ) := #[]
  /-- Their footprint. -/
  memoryUsed : Nat := 0

namespace Unbounded

variable {ρ : Type} [Storable ρ]

/-- A sorter with the given options. -/
def ofOptions (options : Options) (order : Comparator ρ) : SpillM (Unbounded ρ) := do
  options.validate (← get).spillForbidden
  if options.limit ≠ 0 then throw (.configuration (.unboundedLimit options.limit))
  return { backing := ← Backing.ofOptions options, order }

/-! ## Resuming -/

/-- Whether options and a file name allow to resume, and in which directory. -/
def resumeDirectory (options : Options) (fileName : String) (forbidden : Bool) :
    Except SortError Path := do
  if options.limit ≠ 0 then throw (.configuration .resumeLimit)
  if !options.spillAllowed then throw (.configuration .resumeInMemory)
  if fileName.isEmpty then throw (.configuration .resumeUnnamed)
  options.validate forbidden
  match options.spillDirectory with
  | some directory => return directory
  | none => throw (.configuration .resumeNoDirectory)

/-- A file that runs are said to be in must be there and must not be empty. -/
def requireContent (disk : Disk) (path : Path) : Except SortError Unit :=
  match disk.fileSize path with
  | .error e => .error (.missingResumableState path (.fileMissing e))
  | .ok 0 => .error (.missingResumableState path .fileEmpty)
  | .ok _ => .ok ()

/-- A reader for each extent; every reader holds the file. -/
def readersOf (options : Options) (file : FileRef) (path : Path) :
    List Extent → StoreM (List (RunReader ρ))
  | [] => return []
  | extent :: rest => do
    Store.retain file
    let readers ← readersOf options file path rest
    return RunReader.ofExtent file path extent options.activeProtector options.database :: readers

/-- A sorter that takes up the runs of a manifest. They are trusted now and verified when they are
    read to the end. -/
def resume (manifest : Manifest) (options : Options) (order : Comparator ρ) :
    SpillM (Unbounded ρ) := do
  let directory ← resumeDirectory options manifest.fileName (← get).spillForbidden
  let path := directory.join ⟨manifest.fileName⟩
  manifest.checkExtents
  -- without extents the file is not needed, and need not be there
  if !manifest.extents.isEmpty then requireContent (← get).disk path
  let file ← Store.register path
  let runs ← (readersOf options file path manifest.extents : StoreM (List (RunReader ρ)))
  return {
    backing :=
      { options, file := some file, runs := runs.toArray, spills := manifest.extents.length }
    order }

/-! ## Sorting and spilling -/

/-- Whether one record is less than another. -/
def less (u : Unbounded ρ) (a b : Resident ρ) : Checked Bool := do
  return (← checkedCompare u.order u.backing.options.verifyOrder a.record b.record) == .lt

/-- Sorts the records in memory. -/
def sortData : SorterM (Unbounded ρ) Unit := do
  let u ← get
  SorterM.arrange (StableSort.sort u.less u.data.toList) fun records u =>
    { u with data := records.toArray }
  modify fun u => { u with
    backing := { u.backing with sorted := u.backing.sorted + u.data.size } }

/-- Writes the records in memory as a run. -/
def spill : SorterM (Unbounded ρ) Unit := do
  modify fun u => { u with backing := { u.backing with spills := u.backing.spills + 1 } }
  let u ← get
  if u.data.isEmpty then return ()
  u.backing.requireSpillAllowed
  sortData
  let u ← get
  -- the buffer is given up before the run is written, whatever comes of it
  set { u with data := #[] }
  let run ← SorterM.spill (u.backing.writeRun (u.data.toList.map (·.record)))
  modify fun u => { u with
    backing := { u.backing with runs := u.backing.runs.push run }
    memoryUsed := 0 }

/-- Takes a record. One that is handed over keeps what its buffers hold in reserve; a copy has
    none. -/
def add (record : ρ) (spare : Nat := 0) : SorterM (Unbounded ρ) Unit := do
  (← get).backing.requireAccepting
  let resident : Resident ρ := ⟨record, spare⟩
  let size := resident.footprint
  modify fun u => { u with
    memoryUsed := u.memoryUsed + size
    backing := { u.backing with dataSize := u.backing.dataSize + size }
    data := u.data.push resident }
  let u ← get
  if u.backing.options.memoryBudget.toNat < u.memoryUsed then spill

/-- Ends the input and gives out the sorted records. -/
def done : SorterM (Unbounded ρ) (Sorted ρ) := do
  (← get).backing.requireUnfinished
  modify fun u => { u with backing := { u.backing with finished := true } }
  if (← get).backing.runs.isEmpty then
    sortData
    let u ← get
    if u.backing.options.moveResults then set { u with data := #[] }
    return .inl ⟨u.data.toList.map (·.record)⟩
  else
    spill
    let u ← get
    -- the merge closes the runs from here on
    set { u with backing := { u.backing with runs := #[] } }
    SorterM.spill (u.backing.mergeRuns u.order)

/-- Spills what is in memory, keeps the spill file, and describes its runs. -/
def persist : SorterM (Unbounded ρ) Manifest := do
  (← get).backing.requireAccepting
  let _ ← SorterM.spill (liftExcept (← get).backing.spillFile)
  spill
  SorterM.spill (← get).backing.manifest
where
  liftExcept {α : Type} (r : Except SortError α) : SpillM α := r

end Unbounded
end ExternalSort
