/-
  ExternalSort.Run.Reader

  Reading one run back, a chunk at a time.

  The reader keeps the checksum of the bytes it decoded. When the whole extent
  was read and decoded, closing compares it with the recorded one; a run that is
  closed earlier is not verified. Nothing is trusted after a failure.
-/

import ExternalSort.Crc32
import ExternalSort.Record.Storable
import ExternalSort.Run.Chunk
import ExternalSort.Source
import ExternalSort.Spill.Store

namespace ExternalSort

/-- A reader of one run of records `ρ`. -/
structure RunReader (ρ : Type) where
  file : FileRef
  path : Path
  protector : Option Protector
  database : Option String
  extent : Extent
  /-- Where the next chunk begins. -/
  readOffset : Nat
  /-- The records of the current chunk. -/
  buffer : ByteArray := ByteArray.empty
  /-- The position of the next record in the buffer. -/
  position : Nat := 0
  /-- Every chunk of the extent has been loaded. -/
  loaded : Bool := false
  closed : Bool := false
  checksum : Crc32 := .start

namespace RunReader

variable {ρ : Type}

/-- A reader at the beginning of an extent. -/
def ofExtent (file : FileRef) (path : Path) (extent : Extent) (protector : Option Protector)
    (database : Option String) : RunReader ρ :=
  { file, path, protector, database, extent, readOffset := extent.start.toNat }

/-- Where the extent ends. -/
def stop (r : RunReader ρ) : Nat := r.extent.stop.toNat

/-- A measure of what was not loaded yet. -/
def unread (r : RunReader ρ) : Nat := (r.stop - r.readOffset) + (if r.loaded then 0 else 1)

/-- Whether the current chunk has been used up. -/
def drained (r : RunReader ρ) : Bool := r.buffer.size ≤ r.position

/-- The reader after a failure. -/
def fail (r : RunReader ρ) : RunReader ρ := { r with closed := true, buffer := ByteArray.empty }

/-- An error about the bytes of the run. -/
def damage (r : RunReader ρ) (d : Damage) : SortError := .corruptData r.path d

/-- Loads the next chunk, or notes that there is none. -/
def loadChunk (r : RunReader ρ) (open_ : r.loaded = false) :
    SpillM { r' : RunReader ρ // r'.unread < r.unread } := do
  if past : r.stop < r.readOffset then throw (r.damage (.pastEnd r.readOffset))
  else if atEnd : r.readOffset = r.stop then
    return ⟨{ r with loaded := true, buffer := ByteArray.empty, position := 0 }, by
      simp [unread, open_, stop]⟩
  else if r.stop - r.readOffset < Chunk.headerSize then
    throw (r.damage (.truncatedHeader r.readOffset r.stop))
  else
    let header ← Store.onFile r.file (SpillFile.read r.readOffset Chunk.headerSize)
    let body := r.readOffset + Chunk.headerSize
    let (compressed, length) := Chunk.readHeader header
    -- the payload must end inside the extent
    if r.stop - body < length then throw (r.damage (.overrun length body r.stop))
    let payload ← Store.onFile r.file (SpillFile.read body length)
    let records ← Chunk.decode r.protector r.database r.path compressed payload
    return ⟨{ r with readOffset := body + length, buffer := records, position := 0 }, by
      simp only [unread, open_, stop, body, Chunk.headerSize] at *
      omega⟩

/-- Loads chunks until one has records left, or every chunk was loaded. -/
def ensureChunk (r : RunReader ρ) : SpillM (RunReader ρ) :=
  if r.drained then
    if open_ : r.loaded = false then do
      let ⟨r', _⟩ ← r.loadChunk open_
      ensureChunk r'
    else return r
  else return r
termination_by r.unread

/-- Closes the reader. A run that was read to its end must have the recorded checksum. -/
def close (r : RunReader ρ) : Except SortError Unit × RunReader ρ :=
  if r.closed then (.ok (), r)
  else
    -- only a run that was decoded to its end has a checksum to compare
    let exhausted := r.loaded && r.drained
    let found := r.checksum.value
    let result : Except SortError Unit :=
      if exhausted && found != r.extent.checksum then
        .error (r.damage (.checksum found r.extent.checksum))
      else .ok ()
    (result, { r with closed := true, buffer := ByteArray.empty, position := 0 })

/-- Takes the next record from the current chunk. -/
def decodeRecord [Storable ρ] (r : RunReader ρ) : Except SortError ρ × RunReader ρ :=
  let (result, cursor) := Reader.runOn Storable.decode ⟨r.buffer, r.position, r.position⟩
  match result with
  | .ok record =>
    (.ok record,
     { r with
       position := cursor.position
       checksum := r.checksum.update (r.buffer.extract r.position cursor.position) })
  | .error fault => (.error (r.damage (.record fault)), r.fail)

/-- The next record of the run. -/
def next [Storable ρ] (r : RunReader ρ) : StoreM (Step ρ × RunReader ρ) := do
  if r.closed then return (none, r)
  match ← r.ensureChunk.run with
  | .error e => return (some (.error e), r.fail)
  | .ok r =>
    if r.drained then
      match r.close with
      | (.ok (), r) => return (none, r)
      | (.error e, r) => return (some (.error e), r.fail)
    else
      let (result, r) := r.decodeRecord
      return (some result, r)

instance [Storable ρ] : SortedSource StoreM (RunReader ρ) ρ where
  next := next
  close r := return r.close
  release r := Store.release r.file
  extent? r := some r.extent

end RunReader
end ExternalSort
