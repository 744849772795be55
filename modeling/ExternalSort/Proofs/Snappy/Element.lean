/-
  ExternalSort.Proofs.Snappy.Element

  Reading back a written element.

  A tag holds the kind of an element in its two low bits. Lengths and offsets
  that the compressor makes fit the forms it chooses, so the element that is
  read is the one that was written, and the position behind it is where the
  next one begins.
-/

import ExternalSort.Proofs.Bytes.StandsAt
import ExternalSort.Snappy.Element

namespace ExternalSort
namespace Snappy
namespace Element

/-! ## Words of the input -/

theorem wordAt?_eq {input : ByteArray} {pos width n : Nat}
    (h : StandsAt (Word.encode width n).toByteArray input pos) :
    wordAt? input pos width = some (n % Word.range width) := by
  have size : (Word.encode width n).toByteArray.size = width := by simp
  have le := h.le_size
  have eq := h.extract_eq
  rw [size] at le eq
  rw [wordAt?, if_pos le, eq]
  exact congrArg some (Word.ofBytes_bytes width n)

/-- One byte. -/
theorem byteAt?_eq {input : ByteArray} {pos n : Nat}
    (h : StandsAt [UInt8.ofNat n].toByteArray input pos) :
    wordAt? input pos 1 = some (n % 256) :=
  wordAt?_eq (n := n) h

theorem literalAt?_eq {input bytes : ByteArray} {pos length : Nat} (h : StandsAt bytes input pos)
    (hlen : bytes.size = length) :
    literalAt? input pos length = some (.literal bytes, pos + length) := by
  subst hlen
  rw [literalAt?, if_pos h.le_size, h.extract_eq]

theorem toByteArray_cons (b : UInt8) (rest : List UInt8) :
    (b :: rest).toByteArray = [b].toByteArray ++ rest.toByteArray := by
  rw [← List.toByteArray_append, List.singleton_append]

/-! ## Elements -/

/-- The elements that the compressor makes. -/
def Writable : Element → Prop
  | .literal bytes => 0 < bytes.size ∧ bytes.size ≤ 65536
  | .copy offset length => 0 < offset ∧ offset < 65536 ∧ 4 ≤ length ∧ length ≤ 64

theorem read?_literal {input bytes : ByteArray} {pos : Nat} (hpos : 0 < bytes.size)
    (hsize : bytes.size ≤ 65536)
    (h : StandsAt ((literalTag bytes.size).toByteArray ++ bytes) input pos) :
    read? input pos =
      some (.literal bytes, pos + (literalTag bytes.size).toByteArray.size + bytes.size) := by
  have body := h.right
  have tag := h.left
  simp only [literalTag] at tag body ⊢
  -- the length stands in the tag, in one byte behind it, or in two
  by_cases hshort : bytes.size - 1 ≤ 59
  · simp only [hshort, if_true, List.size_toByteArray, List.length_singleton] at tag body ⊢
    have tagValue : (bytes.size - 1) * 4 % 256 = (bytes.size - 1) * 4 := by omega
    have high : (bytes.size - 1) * 4 / 4 = bytes.size - 1 := by omega
    rw [read?, byteAt?_eq tag, tagValue]
    simp [high, Nat.lt_succ_of_le hshort, literalAt?_eq body, Nat.sub_add_cancel hpos]
  · by_cases hbyte : bytes.size - 1 < 256
    · simp only [hshort, hbyte, if_true, if_false, List.size_toByteArray, List.length_cons,
        List.length_nil] at tag body ⊢
      rw [toByteArray_cons] at tag
      have first : wordAt? input pos 1 = some 240 := byteAt?_eq (n := 240) tag.left
      have word := byteAt?_eq tag.right
      rw [Nat.mod_eq_of_lt hbyte] at word
      simp only [List.size_toByteArray, List.length_singleton] at word
      rw [read?, first]
      simp [word, literalAt?_eq body, Nat.sub_add_cancel hpos]
    · simp only [hshort, hbyte, if_false, List.size_toByteArray, List.length_cons,
        Word.length_encode] at tag body ⊢
      rw [toByteArray_cons] at tag
      have first : wordAt? input pos 1 = some 244 := byteAt?_eq (n := 244) tag.left
      have word := wordAt?_eq tag.right
      have range : Word.range 2 = 65536 := rfl
      rw [range, Nat.mod_eq_of_lt (by omega)] at word
      simp only [List.size_toByteArray, List.length_singleton] at word
      rw [read?, first]
      simp [word, literalAt?_eq body, Nat.sub_add_cancel hpos]

theorem read?_copy {input : ByteArray} {pos offset length : Nat} (hoffset : offset < 65536)
    (hmin : 4 ≤ length) (hmax : length ≤ 64)
    (h : StandsAt (copyTag offset length).toByteArray input pos) :
    read? input pos =
      some (.copy offset length, pos + (copyTag offset length).toByteArray.size) := by
  simp only [copyTag] at h ⊢
  -- a short copy of near bytes takes two bytes, any other one three
  by_cases hshort : length ≤ 11 ∧ offset ≤ 2047
  · simp only [hshort, and_self, if_true, List.size_toByteArray, List.length_cons,
      List.length_nil] at h ⊢
    rw [toByteArray_cons] at h
    have tag := byteAt?_eq h.left
    have low := byteAt?_eq h.right
    simp only [List.size_toByteArray, List.length_singleton] at low
    have tagValue : (offset / 256 * 32 + (length - 4) * 4 + 1) % 256
        = 4 * (offset / 256 * 8 + (length - 4)) + 1 := by omega
    rw [tagValue] at tag
    have kind : (4 * (offset / 256 * 8 + (length - 4)) + 1) % 4 = 1 := by omega
    have high : (4 * (offset / 256 * 8 + (length - 4)) + 1) / 4
        = offset / 256 * 8 + (length - 4) := by omega
    have back : (offset / 256 * 8 + (length - 4)) / 8 * 256 + offset % 256 = offset := by omega
    have long : (length - 4) % 8 + 4 = length := by omega
    rw [read?, tag]
    simp [kind, high, low, back, long]
  · simp only [hshort, if_false, List.size_toByteArray, List.length_cons,
      Word.length_encode] at h ⊢
    rw [toByteArray_cons] at h
    have tag := byteAt?_eq h.left
    have word := wordAt?_eq h.right
    have range : Word.range 2 = 65536 := rfl
    rw [range, Nat.mod_eq_of_lt hoffset] at word
    simp only [List.size_toByteArray, List.length_singleton] at word
    have tagValue : ((length - 1) * 4 + 2) % 256 = 4 * (length - 1) + 2 := by omega
    rw [tagValue] at tag
    have kind : (4 * (length - 1) + 2) % 4 = 2 := by omega
    have high : (4 * (length - 1) + 2) / 4 = length - 1 := by omega
    rw [read?, tag]
    simp [kind, high, word, Nat.sub_add_cancel (show 1 ≤ length by omega)]

/-- What was written is read back, and the next element begins behind it. -/
theorem read?_encode {e : Element} (he : e.Writable) {input : ByteArray} {pos : Nat}
    (h : StandsAt e.encode input pos) : read? input pos = some (e, pos + e.encode.size) := by
  cases e with
  | literal bytes =>
    rw [encode, ByteArray.size_append, ← Nat.add_assoc]
    exact read?_literal he.1 he.2 h
  | copy offset length => exact read?_copy he.2.1 he.2.2.1 he.2.2.2 h

/-! ## Sizes -/

theorem length_literalTag_pos (length : Nat) : 0 < (literalTag length).length := by
  rw [literalTag]
  split
  · simp
  · split <;> simp

theorem size_encode_pos (e : Element) : 0 < e.encode.size := by
  cases e with
  | literal bytes =>
    rw [encode, ByteArray.size_append, List.size_toByteArray]
    exact Nat.add_pos_left (length_literalTag_pos _) _
  | copy offset length =>
    rw [encode, copyTag, List.size_toByteArray]
    split <;> simp

/-- No element stands for much more than its written form: a copy stands for at most 64 bytes in
    three, or 11 in two. -/
theorem size_le (e : Element) (he : e.Writable) : 3 * e.size ≤ 64 * e.encode.size := by
  cases e with
  | literal bytes =>
    simp only [encode, size, ByteArray.size_append]
    omega
  | copy offset length =>
    obtain ⟨-, -, -, hmax⟩ := he
    simp only [encode, copyTag, size, List.size_toByteArray]
    split
    · rename_i hshort
      simp only [List.length_cons, List.length_nil]
      omega
    · simp only [List.length_cons, Word.length_encode]
      omega

end Element
end Snappy
end ExternalSort
