/-
  ExternalSort.Run.Writer

  Appending one sorted run to a spill file.

  Records gather in a buffer that is cut into a chunk once it passes a
  threshold. The checksum of the run covers the written form of its records,
  before compression and protection.
-/

import ExternalSort.Options.Basic
import ExternalSort.Run.Reader

namespace ExternalSort

/-- A writer of one run. -/
structure RunWriter where
  file : FileRef
  path : Path
  protector : Option Protector
  database : Option String
  /-- Where the run begins. -/
  start : Nat
  /-- Written records that are not in a chunk yet. -/
  buffer : ByteArray := ByteArray.empty
  checksum : Crc32 := .start

namespace RunWriter

/-- A buffer longer than this is cut into a chunk. -/
def chunkThreshold : Nat := 65536

/-- Operations on a writer. -/
abbrev Action := ExceptT SortError (StateT RunWriter StoreM)

/-- An operation with spill files, within one on a writer. -/
def spill {α : Type} (op : SpillM α) : Action α := do
  match ← (op.run : StoreM (Except SortError α)) with
  | .ok a => return a
  | .error e => throw e

/-- Begins a run at the end of a file, which the writer then holds. -/
def begin (options : Options) (file : FileRef) : SpillM RunWriter := do
  options.checkPermitted (← get).spillForbidden
  if !options.hasSpillDirectory then throw (.configuration .noSpillDirectory)
  let start ← Store.onFile file SpillFile.currentOffset
  Store.retain file
  return {
    file, start
    path := ((← get).file file).path
    protector := options.activeProtector
    database := options.database }

/-- Writes the buffered records as a chunk. The buffer is emptied only if that succeeds. -/
def cutChunk : Action Unit := do
  let w ← get
  if w.buffer.isEmpty then return ()
  -- nothing is written if the hook refuses the chunk
  let (header, payload) ← Chunk.encode w.protector w.database w.path w.buffer
  let _ ← spill (Store.onFile w.file (SpillFile.write header))
  let _ ← spill (Store.onFile w.file (SpillFile.write payload))
  set { w with buffer := ByteArray.empty }

/-- Appends a record. Records must come in the order in which they are to be read back. -/
def add {ρ : Type} [Storable ρ] (record : ρ) : Action Unit := do
  let bytes := Storable.encode record
  modify fun w => { w with buffer := w.buffer ++ bytes, checksum := w.checksum.update bytes }
  if chunkThreshold < (← get).buffer.size then cutChunk

/-- Appends records, first to last. -/
def addAll {ρ : Type} [Storable ρ] : List ρ → Action Unit
  | [] => return ()
  | r :: rest => do
    add r
    addAll rest

/-- Lets go of the file. -/
def release (w : RunWriter) : StoreM Unit := Store.release w.file

/-- The extent of a run that ends where the file ends now. -/
def finishExtent : Action Extent := do
  cutChunk
  let w ← get
  let stop ← spill (Store.onFile w.file SpillFile.currentOffset)
  return ⟨UInt64.ofNat w.start, UInt64.ofNat stop, w.checksum.value⟩

/-- Writes what is buffered and turns into a reader of the run, which takes over the file. -/
def finish {ρ : Type} (w : RunWriter) : SpillM (RunReader ρ) := do
  match ← (finishExtent.run.run w : StoreM _) with
  | (.ok extent, w) => return RunReader.ofExtent w.file w.path extent w.protector w.database
  | (.error e, w) => do
    w.release
    throw e

end RunWriter
end ExternalSort
