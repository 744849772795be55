/-
  ExternalSort.CommandLine.Sort

  The command: sort the lines of an input, or save them as runs to be resumed.

  Everything is a computation with the disk; what the command prints is its
  result. When it fails in the middle of its output, what was already written
  stays written.
-/

import ExternalSort.CommandLine.Arguments
import ExternalSort.CommandLine.LineKey
import ExternalSort.Manifest
import ExternalSort.Sorter.Basic

namespace ExternalSort
namespace CommandLine

/-- Why the command fails. -/
inductive Fault
  | persistSingleBest
  | system (e : OsError)
  | sort (e : SortError)
  | line (number : Nat) (fault : LineFault)
  | misuse (m : Misuse)
deriving DecidableEq, Repr

/-- The wording of a fault. -/
def Fault.message : Fault → String
  | .persistSingleBest => "--persist-to cannot be combined with --limit 1"
  | .system e => e.message
  | .sort e => e.message
  | .line number fault => s!"line {number}: " ++ fault.message
  | .misuse m => m.message

/-- The fault behind a failed operation on a sorter. -/
def Fault.ofFailure : Failure → Fault
  | .error e => .sort e
  | .misuse m => .misuse m

/-- What the command printed, and why it failed if it did. -/
structure Outcome where
  out : ByteArray := ByteArray.empty
  err : String := ""
  fault : Option Fault := none

/-- Steps of the command. -/
abbrev Action := ExceptT Fault StoreM

/-- A step that fails with an error of the sorter. -/
def sorting {α : Type} (op : SpillM α) : Action α := do
  match ← (op.run : StoreM (Except SortError α)) with
  | .ok a => return a
  | .error e => throw (.sort e)

/-- A step that fails as the disk does. -/
def reading {α : Type} (result : Except OsError α) : Action α :=
  match result with
  | .ok a => return a
  | .error e => throw (.system e)

variable {α : Type} [Storable α] [LineKey α]

/-- The options that arguments ask for. -/
def options (a : Arguments) (defaultDirectory : Path) : Options where
  limit := a.limit
  memoryBudget := a.memoryBudget
  spillAllowed := !a.noSpill
  spillDirectory := some ((a.spillDirectory.map Path.mk).getD defaultDirectory)
  moveResults := true

/-- The order that arguments ask for. -/
def order (a : Arguments) : Comparator (α × Unit) :=
  if a.descending then fun x y => LineKey.compare y.1 x.1
  else fun x y => LineKey.compare x.1 y.1

/-- The manifest in a file. -/
def readManifest (path : Path) : Action Manifest := do
  let bytes ← reading ((← get).disk.contentAt path)
  match Utf8.decode bytes with
  | .error _ => throw (.system .notText)
  | .ok text => sorting (ExceptT.mk (pure (Manifest.ofJsonText text)))

/-- The sorter to feed: a new one, or one that resumes. -/
def openSorter (a : Arguments) (defaultDirectory : Path) : Action (Sorter (α × Unit)) := do
  let o := options a defaultDirectory
  match a.resumeFrom with
  | some path =>
    let manifest ← readManifest ⟨path⟩
    sorting (Sorter.resume manifest o (order a))
  | none => sorting (Sorter.ofOptions o (order a))

/-- The input to read. -/
def openInput (a : Arguments) (standardInput : ByteArray) : Action ByteArray := do
  match a.input with
  | some path => reading ((← get).disk.contentAt ⟨path⟩)
  | none => return standardInput

/-- An operation on a sorter, with the sorter after it. -/
def onSorter {β : Type} (sorter : Sorter (α × Unit)) (op : SorterM (Sorter (α × Unit)) β) :
    StoreM (Except Fault β × Sorter (α × Unit)) := do
  let (result, sorter) ← op.run.run sorter
  return (result.mapError Fault.ofFailure, sorter)

/-- Adds the keys on lines, of which the first has the given number. -/
def addLines (sorter : Sorter (α × Unit)) (number : Nat) : List ByteArray →
    StoreM (Except Fault Unit × Sorter (α × Unit))
  | [] => return (.ok (), sorter)
  | line :: rest => do
    match (LineKey.parse line : Except LineFault α) with
    | .error fault => return (.error (.line number fault), sorter)
    | .ok key =>
      match ← onSorter sorter (Sorter.add (key, ())) with
      | (.ok (), sorter) => addLines sorter (number + 1) rest
      | (.error fault, sorter) => return (.error fault, sorter)

/-- The lines of sorted records. -/
def outputLines (records : List (α × Unit)) : ByteArray :=
  records.foldl (fun out r => out ++ LineKey.line r.1) ByteArray.empty

/-- Writes out everything that a finished sorter gives, then closes it. -/
def printSorted (sorted : Sorted (α × Unit)) : StoreM Outcome := do
  let ((records, ending), sorted) ← SortedSource.drain (Merge.unlimited + 1) sorted
  let out := outputLines records
  -- after an error there is nothing left to close
  let (closed, sorted) ← match ending with
    | .failed e => pure (Except.error e, sorted)
    | _ => SortedSource.close sorted
  SortedSource.release sorted
  match closed with
  | .ok () => return { out }
  | .error e => return { out, fault := some (.sort e) }

/-- Saves what the sorter holds, and writes the manifest to a file. -/
def saveRuns (sorter : Sorter (α × Unit)) (path : Path) :
    StoreM (Except Fault Unit × Sorter (α × Unit)) := do
  match ← onSorter sorter Sorter.persist with
  | (.error fault, sorter) => return (.error fault, sorter)
  | (.ok manifest, sorter) =>
    let written ← Store.onDisk (Disk.writeFile path manifest.jsonText.toUTF8).run
    return (written.mapError Fault.system, sorter)

/-- Produces the output of a sorter that has all its input, with the sorter after it. -/
def conclude (a : Arguments) (sorter : Sorter (α × Unit)) :
    StoreM (Outcome × Sorter (α × Unit)) := do
  match a.persistTo with
  | some path =>
    match ← saveRuns sorter ⟨path⟩ with
    | (.ok (), sorter) => return ({}, sorter)
    | (.error fault, sorter) => return ({ fault := some fault }, sorter)
  | none =>
    match ← onSorter sorter Sorter.done with
    | (.error fault, sorter) => return ({ fault := some fault }, sorter)
    | (.ok sorted, sorter) => return (← printSorted sorted, sorter)

/-- Feeds a sorter and produces its output; the statistics come last. -/
def feed (a : Arguments) (standardInput : ByteArray) (sorter : Sorter (α × Unit)) :
    StoreM (Outcome × Sorter (α × Unit)) := do
  match ← (openInput a standardInput).run with
  | .error fault => return ({ fault := some fault }, sorter)
  | .ok input =>
    match ← addLines sorter 1 (LineKey.lines input) with
    | (.error fault, sorter) => return ({ fault := some fault }, sorter)
    | (.ok (), sorter) =>
      let (outcome, sorter) ← conclude a sorter
      -- statistics are shown of what succeeded
      if a.showStatistics && outcome.fault.isNone then
        return ({ outcome with err := (sorter.statistics (← get)).report }, sorter)
      else return (outcome, sorter)

/-- Sorts lines as keys of type `α`. -/
def sortLines (α : Type) [Storable α] [LineKey α] (a : Arguments) (defaultDirectory : Path)
    (standardInput : ByteArray) : StoreM Outcome := do
  if a.persistTo.isSome && a.limit == 1 then return { fault := some .persistSingleBest }
  match ← (openSorter a defaultDirectory : Action (Sorter (α × Unit))).run with
  | .error fault => return { fault := some fault }
  | .ok sorter =>
    let (outcome, sorter) ← feed a standardInput sorter
    sorter.release
    return outcome

/-- Runs the command with the given arguments. -/
def sort (a : Arguments) (defaultDirectory : Path) (standardInput : ByteArray) : StoreM Outcome :=
  match a.keyType with
  | .number => sortLines UInt64 a defaultDirectory standardInput
  | .bytes => sortLines ByteArray a defaultDirectory standardInput

end CommandLine
end ExternalSort
