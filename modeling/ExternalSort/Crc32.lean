/-
  ExternalSort.Crc32

  The cyclic redundancy check CRC-32 (IEEE 802.3, reflected).

  A running check is a 32-bit remainder. Feeding a byte divides eight more bits
  by the generator polynomial; the remainder starts as all ones and is inverted
  at the end. Feeding two strings one after the other is feeding their
  concatenation (`update_append`).
-/

namespace ExternalSort

/-- A running check: the remainder so far. -/
structure Crc32 where
  remainder : UInt32
deriving DecidableEq, Repr

namespace Crc32

/-- The generator polynomial, lowest power in the highest bit. -/
def polynomial : UInt32 := 0xEDB88320

/-- Nothing was fed yet. -/
def start : Crc32 := ⟨0xFFFFFFFF⟩

/-- Divides by one more bit. -/
def shift (r : UInt32) : UInt32 :=
  if r &&& 1 = 1 then (r >>> 1) ^^^ polynomial else r >>> 1

/-- The remainder after one more byte. -/
def step (r : UInt32) (b : UInt8) : UInt32 :=
  shift (shift (shift (shift (shift (shift (shift (shift (r ^^^ b.toUInt32))))))))

/-- Feeds a byte string. -/
def update (c : Crc32) (bytes : ByteArray) : Crc32 :=
  ⟨bytes.data.foldl step c.remainder⟩

/-- The checksum of what was fed. -/
def value (c : Crc32) : UInt32 := c.remainder ^^^ 0xFFFFFFFF

/-- The checksum of one byte string. -/
def ofBytes (bytes : ByteArray) : UInt32 := (start.update bytes).value

@[simp] theorem update_empty (c : Crc32) : c.update ByteArray.empty = c := rfl

/-- The check depends only on the bytes fed, not on how they were cut. -/
theorem update_append (c : Crc32) (a b : ByteArray) :
    c.update (a ++ b) = (c.update a).update b := by
  simp [update, ByteArray.data_append]

end Crc32
end ExternalSort
