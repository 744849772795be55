/-
  ExternalSort.Sorter.TopK

  The sorter that keeps the best `limit` records.

  The records in memory form a heap with the worst on top once there are
  `limit` of them. Every spill also maintains a cutoff: a record that at least
  `limit` records already on disk are no worse than. What does not beat the
  cutoff is dropped at once. Two anchors feed the cutoff: the worst record seen,
  and the median of the spill that started the current count. Each becomes the
  cutoff when `limit` spilled records are known to be no worse than it.
-/

import ExternalSort.Order.Heap
import ExternalSort.Order.Partition
import ExternalSort.Sorter.Backing

namespace ExternalSort

/-- A record in memory with its number of arrival, which decides between equal records. -/
structure Entry (ρ : Type) extends Resident ρ where
  seq : Nat

/-- A sorter with a limit above 1. -/
structure TopK (ρ : Type) where
  backing : Backing ρ
  order : Comparator ρ
  limit : Nat
  /-- The records kept in memory: a heap once there are `limit` of them. -/
  data : Array (Entry ρ) := #[]
  /-- Their footprint. -/
  memoryUsed : Nat := 0
  nextSeq : Nat := 0
  /-- Records that do not beat this one cannot be among the best. -/
  cutoff : Option (Entry ρ) := none
  worstSeen : Option (Entry ρ) := none
  /-- The records spilled since the worst one was last chosen anew. -/
  worstCount : Nat := 0
  lastMedian : Option (Entry ρ) := none
  /-- The spilled records that are no worse than the median, since it was last chosen. -/
  medianCount : Nat := 0

namespace TopK

variable {ρ : Type} [Storable ρ]

/-- A sorter with the given options. -/
def ofOptions (options : Options) (order : Comparator ρ) : SpillM (TopK ρ) := do
  options.validate (← get).spillForbidden
  if options.limit ≤ 1 then throw (.configuration (.topKLimit options.limit))
  return { backing := ← Backing.ofOptions options, order, limit := options.limit.toNat }

/-! ## Comparing entries -/

/-- The order of entries: by record, then by arrival. -/
def compareEntries (t : TopK ρ) (a b : Entry ρ) : Checked Ordering := do
  return (← checkedCompare t.order t.backing.options.verifyOrder a.record b.record).then
    (compare a.seq b.seq)

/-- Whether one entry is better than another. -/
def less (t : TopK ρ) (a b : Entry ρ) : Checked Bool := do
  return (← t.compareEntries a b) == .lt

/-- Whether an entry is better than another one, if there is another one. -/
def beats (t : TopK ρ) (a : Entry ρ) : Option (Entry ρ) → Checked Bool
  | some b => t.less a b
  | none => return true

/-! ## Spilling -/

/-- Sorts the records in memory, best first. -/
def sortData : SorterM (TopK ρ) Unit := do
  let t ← get
  let sort : StableSort.Arranging Checked (Entry ρ) (List (Entry ρ)) :=
    -- as many as the limit are a heap already
    if t.data.size = t.limit then do
      return (← (Heap.onArray (Heap.sort t.less) t.data : Checked (Array (Entry ρ)))).toList
    else StableSort.sort t.less t.data.toList
  SorterM.arrange sort fun entries t => { t with data := entries.toArray }

/-- Whether the worst record of a spill is the worst one since it was last chosen anew. -/
def replacesWorst (t : TopK ρ) (worst : Entry ρ) : Checked Bool :=
  match t.worstSeen with
  | some seen => if 0 < t.worstCount then t.less seen worst else return true
  | none => return true

/-- The anchors after a spill of the sorted records in memory, before they are promoted. -/
def trackAnchors (t : TopK ρ) (worst median : Entry ρ) : Checked (TopK ρ) := do
  let replaceWorst ← t.replacesWorst worst
  let worstSeen := if replaceWorst then some worst else t.worstSeen
  -- a count that starts anew starts with the median of this spill
  let anchor := if t.medianCount = 0 then median else t.lastMedian.getD median
  let noWorse ← partitionPoint (fun e => do return !(← t.less anchor e)) t.data
  return { t with
    worstSeen
    worstCount := t.worstCount + t.data.size
    lastMedian := some anchor
    medianCount := t.medianCount + noWorse }

/-- The cutoff after an anchor was promoted: it becomes the cutoff if it is better. -/
def promote (t : TopK ρ) (anchor : Option (Entry ρ)) : Checked (Option (Entry ρ)) := do
  match anchor with
  | none => return t.cutoff
  | some anchor => return if ← t.beats anchor t.cutoff then some anchor else t.cutoff

/-- Promotes the worst record seen if enough spilled records are no worse. -/
def promoteWorst (t : TopK ρ) : Checked (TopK ρ) := do
  if t.limit ≤ t.worstCount then
    return { t with cutoff := ← t.promote t.worstSeen, worstCount := 0 }
  else return t

/-- Promotes the median if enough spilled records are no worse. -/
def promoteMedian (t : TopK ρ) : Checked (TopK ρ) := do
  if t.limit ≤ t.medianCount then
    return { t with cutoff := ← t.promote t.lastMedian, medianCount := 0 }
  else return t

/-- Learns the cutoff from the sorted records in memory, which are about to be spilled. -/
def updateCutoff : SorterM (TopK ρ) Unit := do
  let t ← get
  match t.data.back?, t.data[t.data.size / 2]? with
  | some worst, some median =>
    let (t, violation) := (do
      (← (← t.trackAnchors worst median).promoteWorst).promoteMedian : Checked _).runFresh
    set t
    SorterM.report violation
  | _, _ => return ()

/-- Writes the records in memory as a run, if there are any. -/
def writeOut : SorterM (TopK ρ) Unit := do
  let t ← get
  if t.data.isEmpty then return ()
  t.backing.requireSpillAllowed
  sortData
  updateCutoff
  let t ← get
  -- the memory is given up before the run is written, whatever comes of it
  set { t with data := #[] }
  let run ← SorterM.spill (t.backing.writeRun (t.data.toList.map (·.record)))
  modify fun t => { t with
    backing := { t.backing with runs := t.backing.runs.push run }
    memoryUsed := 0 }

/-- Counts a spill, and writes out what is in memory. -/
def spill : SorterM (TopK ρ) Unit := do
  modify fun t => { t with backing := { t.backing with spills := t.backing.spills + 1 } }
  writeOut

/-! ## Taking records -/

/-- Whether a record can still be among the best. -/
def admits (t : TopK ρ) (resident : Resident ρ) : Checked Bool :=
  let contender : Entry ρ := ⟨resident, t.nextSeq⟩
  if t.data.size < t.limit then t.beats contender t.cutoff
  else t.beats contender t.data[0]?

/-- Puts an entry among those in memory. When there are `limit` of them the worst one leaves. -/
def place (t : TopK ρ) (entry : Entry ρ) : Checked (TopK ρ) := do
  if t.data.size < t.limit then
    let data := t.data.push entry
    -- from here on the worst entry has to be at hand
    if data.size = t.limit then
      return { t with data := ← Heap.onArray (Heap.make t.less) data }
    else return { t with data }
  else
    let data ← Heap.onArray (Heap.pop t.less) t.data
    -- what was popped stands at the end, and the new entry takes its place
    let leaving := data.back?.elim 0 fun worst => worst.footprint
    let data ← Heap.onArray (Heap.push t.less) (data.pop.push entry)
    return { t with data, memoryUsed := t.memoryUsed - leaving }

/-- Takes a record that can be among the best. -/
def insert (resident : Resident ρ) : SorterM (TopK ρ) Unit := do
  let size := resident.footprint
  let t ← get
  let entry : Entry ρ := ⟨resident, t.nextSeq⟩
  let t := { t with
    nextSeq := t.nextSeq + 1
    memoryUsed := t.memoryUsed + size
    backing := { t.backing with dataSize := t.backing.dataSize + size } }
  let (t, violation) := (t.place entry).runFresh
  -- the entry is in, even if a comparison met a violation
  set t
  SorterM.report violation
  if t.backing.options.memoryBudget.toNat < t.memoryUsed then spill

/-- Takes a record. One that is handed over keeps what its buffers hold in reserve; a copy has
    none. -/
def add (record : ρ) (spare : Nat := 0) : SorterM (TopK ρ) Unit := do
  (← get).backing.requireAccepting
  modify fun t => { t with backing := { t.backing with sorted := t.backing.sorted + 1 } }
  let resident : Resident ρ := ⟨record, spare⟩
  if ← SorterM.checked ((← get).admits resident) then insert resident

/-- Ends the input and gives out the best records. -/
def done : SorterM (TopK ρ) (Sorted ρ) := do
  (← get).backing.requireUnfinished
  modify fun t => { t with backing := { t.backing with finished := true } }
  if (← get).backing.runs.isEmpty then
    sortData
    let t ← get
    if t.backing.options.moveResults then set { t with data := #[] }
    return .inl ⟨t.data.toList.map (·.record)⟩
  else
    spill
    let t ← get
    set { t with backing := { t.backing with runs := #[] } }
    SorterM.spill (t.backing.mergeRuns t.order)

/-- Spills what is in memory, keeps the spill file, and describes its runs. -/
def persist : SorterM (TopK ρ) Manifest := do
  (← get).backing.requireAccepting
  let _ ← SorterM.spill (liftExcept (← get).backing.spillFile)
  spill
  SorterM.spill (← get).backing.manifest
where
  liftExcept {α : Type} (r : Except SortError α) : SpillM α := r

end TopK
end ExternalSort
