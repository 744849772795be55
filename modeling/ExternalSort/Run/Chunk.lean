/-
  ExternalSort.Run.Chunk

  Chunks: the pieces in which a run lies on disk.

  A chunk is a signed length in four bytes and a payload. The payload is the
  records of the chunk, compressed if that saves about a tenth (a negative
  length says so), and then protected if there is a hook. Reading undoes these
  steps in the opposite order and distrusts the length that compressed data
  claims for itself.
-/

import ExternalSort.Error
import ExternalSort.Protection
import ExternalSort.Snappy.Compress
import ExternalSort.Snappy.Decompress

namespace ExternalSort
namespace Chunk

/-- The size of the length in front of a payload. -/
def headerSize : Nat := 4

/-- The longest payload that a header can tell. -/
def payloadLimit : Nat := UInt32.size / 2

/-- Compressed data does not expand more than this, or its length is damaged. -/
def expansionLimit : Nat := 24

/-! ## Writing -/

/-- The bytes to store for records, and whether they are compressed. -/
def shrink (records : ByteArray) : Bool × ByteArray :=
  let compressed := Snappy.compress records
  if compressed.size < records.size / 10 * 9 then (true, compressed) else (false, records)

/-- The header of a payload: its length, negative for a compressed one. -/
def header (compressed : Bool) (length : Nat) : ByteArray :=
  Word.bytes headerSize (if compressed then UInt32.size - length else length)

/-- A payload after the protection hook. -/
def protect (hook : Option Protector) (database : Option String) (payload : ByteArray) :
    Except SortError ByteArray :=
  match hook with
  | none => .ok payload
  | some p =>
    match p.protect payload database with
    | .ok bytes => .ok bytes
    | .error reason => .error (.dataProtection .protect reason)

/-- The failure to compress `length` bytes. -/
def tooLongToCompress (length : Nat) : IoCause :=
  .stated (s!"snappy: input buffer (size = {length}) is larger than allowed " ++
    s!"(size = {UInt32.size - 1})")

/-- The header and the payload that store the given records; a failure to compress them is reported
    for the file at `path`. -/
def encode (hook : Option Protector) (database : Option String) (path : Path)
    (records : ByteArray) : Except SortError (ByteArray × ByteArray) := do
  -- the compressor is always asked, also when its result is not used
  if Snappy.tooLong records then
    throw (.io .compressing path (tooLongToCompress records.size))
  let (compressed, payload) := shrink records
  let payload ← protect hook database payload
  if payloadLimit ≤ payload.size then throw (.configuration (.chunkTooLong payload.size))
  return (header compressed payload.size, payload)

/-! ## Reading -/

/-- Whether the payload behind a header is compressed, and its length. -/
def readHeader (bytes : ByteArray) : Bool × Nat :=
  let word := Word.ofBytes bytes
  if word < payloadLimit then (false, word) else (true, UInt32.size - word)

/-- A payload before the protection hook. -/
def unprotect (hook : Option Protector) (database : Option String) (payload : ByteArray) :
    Except SortError ByteArray :=
  match hook with
  | none => .ok payload
  | some p =>
    match p.unprotect payload database with
    | .ok bytes => .ok bytes
    | .error reason => .error (.dataProtection .unprotect reason)

/-- The text of compressed data whose claimed length is believable. -/
def expand (data : ByteArray) : Except Damage ByteArray :=
  match Snappy.claimedLength? data with
  | none => .error .compression
  | some claimed =>
    -- a damaged length must not ask for more space than such data can fill
    if data.size * expansionLimit < claimed then .error (.falseLength data.size claimed)
    else match Snappy.decompress? data with
      | none => .error .compression
      | some text => .ok text

/-- The records that a payload stores; damage is reported for the file at `path`. -/
def decode (hook : Option Protector) (database : Option String) (path : Path) (compressed : Bool)
    (payload : ByteArray) : Except SortError ByteArray := do
  let data ← unprotect hook database payload
  if compressed then
    match expand data with
    | .ok records => return records
    | .error damage => throw (.corruptData path damage)
  else return data

end Chunk
end ExternalSort
