/-
  ExternalSort.Bytes.Word

  Unsigned words as little-endian byte strings of a given width.

  `encode` writes the low bytes of a number, least significant byte first, and
  `decode` reads such a string back. Reading what was written gives the number
  modulo `range width` (`decode_encode`), and writing what was read gives the
  same bytes (`encode_decode`), so each width has exactly one written form per
  number.
-/

namespace ExternalSort
namespace Word

/-- The number of words of a width. -/
def range : (width : Nat) → Nat
  | 0 => 1
  | width + 1 => 256 * range width

/-- The `width` low bytes of `n`, least significant first. -/
def encode : (width : Nat) → (n : Nat) → List UInt8
  | 0, _ => []
  | width + 1, n => UInt8.ofNat n :: encode width (n / 256)

/-- The number that a little-endian byte string denotes. -/
def decode : List UInt8 → Nat
  | [] => 0
  | b :: rest => b.toNat + 256 * decode rest

@[simp] theorem length_encode (width n : Nat) : (encode width n).length = width := by
  induction width generalizing n with
  | zero => rfl
  | succ width ih => simp [encode, ih]

/-- Reading back what was written gives the number modulo the range of the width. -/
theorem decode_encode (width n : Nat) : decode (encode width n) = n % range width := by
  induction width generalizing n with
  | zero => simp [encode, decode, range, Nat.mod_one]
  | succ width ih =>
    simp only [encode, decode, range, ih, UInt8.toNat_ofNat']
    rw [Nat.mod_mul]

/-- Writing what was read gives the same bytes again. -/
theorem encode_decode (bytes : List UInt8) : encode bytes.length (decode bytes) = bytes := by
  induction bytes with
  | nil => rfl
  | cons b rest ih =>
    have hb : b.toNat < 256 := b.toNat_lt
    have low : UInt8.ofNat (b.toNat + 256 * decode rest) = b := by
      apply UInt8.toNat_inj.mp
      simp only [UInt8.toNat_ofNat']
      omega
    have high : (b.toNat + 256 * decode rest) / 256 = decode rest := by omega
    simp only [List.length_cons, encode, decode, low, high, ih]

theorem decode_lt (bytes : List UInt8) : decode bytes < range bytes.length := by
  induction bytes with
  | nil => simp [decode, range]
  | cons b rest ih =>
    have hb : b.toNat < 256 := b.toNat_lt
    simp only [decode, range, List.length_cons]
    omega

/-- The written form as a byte array. -/
def bytes (width n : Nat) : ByteArray := (encode width n).toByteArray

@[simp] theorem size_bytes (width n : Nat) : (bytes width n).size = width := by
  simp [bytes]

/-- The number that a byte array denotes. -/
def ofBytes (b : ByteArray) : Nat := decode b.data.toList

theorem ofBytes_bytes (width n : Nat) : ofBytes (bytes width n) = n % range width := by
  simp [ofBytes, bytes, decode_encode]

end Word
end ExternalSort
