/-
  ExternalSort.Spill.File

  An append-only file for sorted runs.

  Nothing touches the disk until the first write or read. Writes gather in a
  buffer that goes to disk when it is full, before a read, or on request; a
  failed write leaves the buffer as it was. The file is removed when it is no
  longer held, unless it is kept.
-/

import ExternalSort.Disk.Basic
import ExternalSort.Error
import ExternalSort.Spill.Counters

namespace ExternalSort

/-- A file that runs are appended to. -/
structure SpillFile where
  path : Path
  handle : Option Handle := none
  /-- The end of the file as writers see it, buffered bytes included. -/
  offset : Nat := 0
  /-- Bytes that were written and are not yet on disk. -/
  pending : ByteArray := ByteArray.empty
  /-- Whether the file stays when it is no longer held. -/
  kept : Bool := false
  io : IoCounters := {}
deriving Inhabited

namespace SpillFile

/-- Operations on one spill file. -/
abbrev Action := ExceptT SortError (StateT SpillFile (StateM Disk))

/-- The buffer is written out once it holds this many bytes. -/
def bufferLimit : Nat := 1048576

/-- The last name of the path, under which a manifest lists the file. -/
def fileName (f : SpillFile) : String := f.path.fileName

/-- An operation on the disk, with its failure described. -/
def attempt {α : Type} (describe : OsError → SortError) (op : DiskM α) : Action α := do
  match ← (op.run : StateM Disk (Except OsError α)) with
  | .ok a => return a
  | .error e => throw (describe e)

/-- The disk that the file is on. -/
def disk : Action Disk := (get : StateM Disk Disk)

/-- Opens the file unless it is open; its size then is where the first write goes. -/
def ensureOpen : Action Handle := do
  let file ← get
  match file.handle with
  | some handle => return handle
  | none =>
    attempt (.io .makingDirectory file.path <| .system ·) (Disk.makeParents file.path)
    let handle ← attempt (.io .opening file.path <| .system ·) (Disk.openAppend file.path)
    -- what a file of this name has already stays in front of what is written
    set { file with handle := some handle, offset := (← disk).sizeOf handle }
    return handle

/-- Writes the buffer out. It is emptied only if that succeeds. -/
def flush : Action Unit := do
  let file ← get
  if file.pending.isEmpty then return ()
  match file.handle with
  | none => pure ()
  | some handle =>
    attempt (SortError.ofWrite file.path) (Disk.append handle file.pending)
  set { file with
    pending := ByteArray.empty
    io :=
      if file.handle.isSome then file.io.addWrite (UInt64.ofNat file.pending.size) else file.io }

/-- Appends bytes, and tells where the file ends then. -/
def write (data : ByteArray) : Action Nat := do
  let _ ← ensureOpen
  -- the bytes count from now on, also if writing the buffer out fails
  modify fun file =>
    { file with pending := file.pending ++ data, offset := file.offset + data.size }
  if bufferLimit ≤ (← get).pending.size then flush
  return (← get).offset

/-- Where the next write will begin. -/
def currentOffset : Action Nat := do
  let _ ← ensureOpen
  return (← get).offset

/-- Up to `length` bytes of the open file from `offset` on. -/
def fetch (handle : Handle) (offset length : Nat) : Action ByteArray := do
  if length = 0 then pure ByteArray.empty
  else match (← disk).readAt handle offset length with
    | .ok bytes => pure bytes
    | .error e => throw (.io .reading (← get).path (.system e))

/-- The `length` bytes from `offset` on. Fewer mean that the file no longer holds what was
    written. -/
def read (offset length : Nat) : Action ByteArray := do
  let handle ← ensureOpen
  -- what is asked for may still be in the buffer
  flush
  let bytes ← fetch handle offset length
  let file ← get
  if bytes.size < length then
    throw (.corruptData file.path (.shortRead bytes.size length offset))
  set { file with io := file.io.addRead (UInt64.ofNat length) }
  return bytes

/-- Leaves the file on disk when it is no longer held. -/
def keep : Action Unit := modify fun file => { file with kept := true }

/-- What happens when the last holder is gone. Failures have no one to go to. -/
def close (file : SpillFile) : StateM Disk Unit := do
  if file.kept then
    let _ ← (flush.run.run file : StateM Disk _)
  else
    -- what is still in the buffer goes with the file
    let _ ← (Disk.remove file.path).run

end SpillFile
end ExternalSort
