/-
  ExternalSort.Record.Kind

  The kinds of keys and values, and records of given kinds.

  Every kind has its type of values, a byte form and a natural order: numbers
  by value, byte strings and texts by their bytes, and the empty value equal to
  itself.
-/

import ExternalSort.Bytes.Lexicographic
import ExternalSort.Record.Storable

namespace ExternalSort

/-- A kind of keys or values. -/
inductive Kind
  | int32
  | int64
  | word32
  | word64
  | bytes
  | text
  | null
deriving DecidableEq, Repr

namespace Kind

/-- The values of a kind. -/
abbrev Carrier : Kind → Type
  | .int32 => Int32
  | .int64 => Int64
  | .word32 => UInt32
  | .word64 => UInt64
  | .bytes => ByteArray
  | .text => String
  | .null => Unit

instance storable : (k : Kind) → Storable k.Carrier
  | .int32 => inferInstanceAs (Storable Int32)
  | .int64 => inferInstanceAs (Storable Int64)
  | .word32 => inferInstanceAs (Storable UInt32)
  | .word64 => inferInstanceAs (Storable UInt64)
  | .bytes => inferInstanceAs (Storable ByteArray)
  | .text => inferInstanceAs (Storable String)
  | .null => inferInstanceAs (Storable Unit)

/-- The natural order of a kind. -/
def compare : (k : Kind) → k.Carrier → k.Carrier → Ordering
  | .int32, a, b => Ord.compare a.toInt b.toInt
  | .int64, a, b => Ord.compare a.toInt b.toInt
  | .word32, a, b => Ord.compare a.toNat b.toNat
  | .word64, a, b => Ord.compare a.toNat b.toNat
  | .bytes, a, b => compareBytes a b
  | .text, a, b => compareBytes a.toUTF8 b.toUTF8
  | .null, _, _ => .eq

end Kind

/-- Records with keys of one kind and values of another. -/
abbrev Record (key value : Kind) : Type := key.Carrier × value.Carrier

end ExternalSort
