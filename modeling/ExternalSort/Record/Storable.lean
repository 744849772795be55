/-
  ExternalSort.Record.Storable

  Values that can go through the sorter: they have a byte form that a reader
  finds the end of, and a footprint in memory.

  Records are written back to back with no separators, so the byte form itself
  has to tell where it ends: words have a fixed width, and byte strings and
  texts carry their length. A pair is written as its first part followed by its
  second.
-/

import ExternalSort.Record.Cursor

namespace ExternalSort

/-- What the sorter needs of a value. -/
class Storable (α : Type) where
  /-- The byte form. -/
  encode : α → ByteArray
  /-- Reads a value from the front of the bytes ahead. -/
  decode : Reader α
  /-- The number of bytes of memory that a value is charged for. -/
  footprint : α → Nat

export Storable (footprint)

namespace Storable

/-- The memory charged for the header of a byte string or text. -/
def headerFootprint : Nat := 24

/-- A byte string behind its length in four bytes. -/
def encodeCounted (bytes : ByteArray) : ByteArray := Word.bytes 4 bytes.size ++ bytes

instance : Storable Int32 where
  encode x := Word.bytes 4 x.toUInt32.toNat
  decode := return Int32.ofUInt32 (UInt32.ofNat (← Reader.word 4))
  footprint _ := 4

instance : Storable Int64 where
  encode x := Word.bytes 8 x.toUInt64.toNat
  decode := return Int64.ofUInt64 (UInt64.ofNat (← Reader.word 8))
  footprint _ := 8

instance : Storable UInt32 where
  encode x := Word.bytes 4 x.toNat
  decode := return UInt32.ofNat (← Reader.word 4)
  footprint _ := 4

instance : Storable UInt64 where
  encode x := Word.bytes 8 x.toNat
  decode := return UInt64.ofNat (← Reader.word 8)
  footprint _ := 8

instance : Storable ByteArray where
  encode := encodeCounted
  decode := Reader.counted
  footprint x := headerFootprint + x.size

instance : Storable String where
  encode x := encodeCounted x.toUTF8
  decode := Reader.text
  footprint x := headerFootprint + x.utf8ByteSize

/-- The value that takes no space, for records that are keys only. -/
instance : Storable Unit where
  encode _ := ByteArray.empty
  decode := return ()
  footprint _ := 0

instance {α β : Type} [Storable α] [Storable β] : Storable (α × β) where
  encode x := encode x.1 ++ encode x.2
  decode := do
    let first ← decode
    let second ← decode
    return (first, second)
  footprint x := footprint x.1 + footprint x.2

end Storable
end ExternalSort
