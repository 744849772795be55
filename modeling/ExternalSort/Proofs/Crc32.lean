/-
  ExternalSort.Proofs.Crc32

  A few wrong bytes change the checksum.

  Dividing by one bit respects differences of remainders, and it loses nothing:
  the bit that is shifted out is found again in the highest bit, which the
  generator polynomial sets. So remainders that differ after some bytes differ
  after all the bytes behind them. Remainders that `n` bytes make equal again
  differ in their lowest `n` bytes at most, and the first wrong byte of at most
  four leaves a difference higher up.
-/

import Mathlib.Algebra.Group.Nat.Defs
import ExternalSort.Crc32
import ExternalSort.Proofs.Bytes.DiffersAt

namespace ExternalSort

namespace Crc32

/-! ## One bit -/

theorem and_one_eq_one (r : UInt32) : r &&& 1 = 1 ↔ r.toNat.testBit 0 = true := by
  rw [← UInt32.toNat_inj, UInt32.toNat_and, UInt32.toNat_one, Nat.and_one_is_mod, Nat.testBit_zero,
    decide_eq_true_iff]

theorem toNat_shiftRight_one (r : UInt32) : (r >>> 1).toNat = r.toNat / 2 := by
  rw [UInt32.toNat_shiftRight]
  exact Nat.shiftRight_eq_div_pow _ 1

/-- The polynomial is taken off if the lowest bit is set. -/
theorem shift_eq (r : UInt32) :
    shift r = (r >>> 1) ^^^ (if r.toNat.testBit 0 then polynomial else 0) := by
  rw [shift]
  simp only [and_one_eq_one]
  split
  · rfl
  · rw [UInt32.xor_zero]

/-- A division by one bit sets the highest bit if it shifted a bit out. -/
theorem testBit_shift (r : UInt32) : (shift r).toNat.testBit 31 = r.toNat.testBit 0 := by
  have low : (r >>> 1).toNat.testBit 31 = false := by
    refine Nat.testBit_lt_two_pow ?_
    have := r.toNat_lt
    rw [toNat_shiftRight_one]
    omega
  rw [shift_eq, UInt32.toNat_xor, Nat.testBit_xor, low]
  cases r.toNat.testBit 0 <;> decide

/-- A division by one bit respects differences. -/
theorem shift_xor (a b : UInt32) : shift (a ^^^ b) = shift a ^^^ shift b := by
  have bits (p q : Bool) : (if p ^^ q then polynomial else 0) =
      (if p then polynomial else 0) ^^^ (if q then polynomial else 0) := by
    revert p q
    decide
  rw [shift_eq, shift_eq a, shift_eq b, UInt32.shiftRight_xor, UInt32.toNat_xor, Nat.testBit_xor,
    bits]
  ac_rfl

/-- A division that leaves the highest bit clear has halved the remainder. -/
theorem eq_two_mul_shift {v : UInt32} {m : Nat} (le : m < 32) (small : (shift v).toNat < 2 ^ m) :
    v.toNat = 2 * (shift v).toNat := by
  have even : v.toNat.testBit 0 = false := by
    rw [← testBit_shift]
    refine Nat.testBit_lt_two_pow (Nat.lt_of_lt_of_le small ?_)
    exact Nat.pow_le_pow_right (by decide) (by omega)
  have half : shift v = v >>> 1 := by
    rw [shift_eq, even, if_neg Bool.false_ne_true, UInt32.xor_zero]
  rw [half, toNat_shiftRight_one]
  rw [Nat.testBit_zero, decide_eq_false_iff_not] at even
  omega

/-! ## One byte -/

/-- Divides by several more bits. -/
def shifts : Nat → UInt32 → UInt32
  | 0, r => r
  | k + 1, r => shifts k (shift r)

theorem step_eq (r : UInt32) (x : UInt8) : step r x = shifts 8 (r ^^^ x.toUInt32) := rfl

theorem shifts_xor (k : Nat) (a b : UInt32) : shifts k (a ^^^ b) = shifts k a ^^^ shifts k b := by
  induction k generalizing a b with
  | zero => rfl
  | succ k ih => rw [shifts, shift_xor, ih, ← shifts, ← shifts]

/-- Divisions that leave the highest bits clear have shifted the remainder. -/
theorem eq_mul_shifts {k m : Nat} {v : UInt32} (le : m + k ≤ 32)
    (small : (shifts k v).toNat < 2 ^ m) : v.toNat = 2 ^ k * (shifts k v).toNat := by
  induction k generalizing v with
  | zero => rw [shifts, pow_zero, Nat.one_mul]
  | succ k ih =>
    have later := ih (by omega) small
    have small' : (shift v).toNat < 2 ^ (k + m) := by
      rw [later, pow_add]
      exact Nat.mul_lt_mul_of_pos_left small (Nat.two_pow_pos k)
    rw [eq_two_mul_shift (by omega) small', later, pow_succ, shifts, Nat.mul_comm (2 ^ k) 2,
      Nat.mul_assoc]

/-- How the difference of two remainders goes on with a byte on each side. -/
theorem step_xor_step (a b : UInt32) (x y : UInt8) :
    step a x ^^^ step b y = shifts 8 ((a ^^^ b) ^^^ (x.toUInt32 ^^^ y.toUInt32)) := by
  rw [step_eq, step_eq, ← shifts_xor]
  congr 1
  ac_rfl

theorem toNat_xor_lt (x y : UInt8) : (x.toUInt32 ^^^ y.toUInt32).toNat < 2 ^ 8 := by
  rw [UInt32.toNat_xor, UInt8.toNat_toUInt32, UInt8.toNat_toUInt32]
  exact Nat.xor_lt_two_pow x.toNat_lt y.toNat_lt

/-! ## Several bytes -/

/-- Remainders that `n` bytes on each side make equal differ in their lowest `n` bytes at most. -/
theorem xor_lt_of_foldl_eq {a b : UInt32} {xs ys : List UInt8} (same : xs.length = ys.length)
    (few : xs.length ≤ 4) (h : xs.foldl step a = ys.foldl step b) :
    (a ^^^ b).toNat < 2 ^ (8 * xs.length) := by
  induction xs generalizing a b ys with
  | nil =>
    obtain rfl := List.length_eq_zero_iff.mp same.symm
    obtain rfl : a = b := h
    simp
  | cons x xs ih =>
    obtain _ | ⟨y, ys⟩ := ys
    · exact absurd same (by simp)
    rw [List.length_cons] at few same ⊢
    have later := ih (Nat.succ.inj same) (by omega) h
    rw [step_xor_step] at later
    have whole := eq_mul_shifts (by omega) later
    have small : ((a ^^^ b) ^^^ (x.toUInt32 ^^^ y.toUInt32)).toNat < 2 ^ (8 * (xs.length + 1)) := by
      rw [whole, Nat.mul_succ, Nat.add_comm, pow_add]
      exact Nat.mul_lt_mul_of_pos_left later (Nat.two_pow_pos 8)
    have least : 2 ^ 8 ≤ 2 ^ (8 * (xs.length + 1)) := Nat.pow_le_pow_right (by decide) (by omega)
    -- the bytes themselves change the lowest byte only
    have back : a ^^^ b = ((a ^^^ b) ^^^ (x.toUInt32 ^^^ y.toUInt32)) ^^^
        (x.toUInt32 ^^^ y.toUInt32) := by
      rw [UInt32.xor_assoc, UInt32.xor_self, UInt32.xor_zero]
    rw [back, UInt32.toNat_xor]
    exact Nat.xor_lt_two_pow small (Nat.lt_of_lt_of_le (toNat_xor_lt x y) least)

theorem eq_of_toNat_xor {a b : UInt32} (h : (a ^^^ b).toNat = 0) : a = b := by
  rw [← UInt32.toNat_zero, UInt32.toNat_inj, UInt32.xor_eq_zero_iff] at h
  exact h

/-- Different remainders stay different. -/
theorem foldl_step_injective {a b : UInt32} {bytes : List UInt8}
    (h : bytes.foldl step a = bytes.foldl step b) : a = b := by
  induction bytes generalizing a b with
  | nil => exact h
  | cons x rest ih =>
    have none : (step a x ^^^ step b x).toNat = 0 := by
      rw [ih h, UInt32.xor_self, UInt32.toNat_zero]
    rw [step_xor_step, UInt32.xor_self, UInt32.xor_zero] at none
    have whole := eq_mul_shifts (k := 8) (m := 0) (by decide) (by rw [none]; decide)
    rw [none] at whole
    exact eq_of_toNat_xor whole

/-- At most four bytes are told by the remainders before and after them. -/
theorem eq_of_foldl_eq {a : UInt32} {xs ys : List UInt8} (same : xs.length = ys.length)
    (few : xs.length ≤ 4) (h : xs.foldl step a = ys.foldl step a) : xs = ys := by
  induction xs generalizing a ys with
  | nil => exact (List.length_eq_zero_iff.mp same.symm).symm
  | cons x xs ih =>
    obtain _ | ⟨y, ys⟩ := ys
    · exact absurd same (by simp)
    rw [List.length_cons] at few same
    -- the first bytes leave no difference in the highest byte, where theirs would be now
    have later := xor_lt_of_foldl_eq (Nat.succ.inj same) (by omega) h
    rw [step_xor_step, UInt32.xor_self, UInt32.zero_xor] at later
    have whole := eq_mul_shifts (by omega) later
    have byte := toNat_xor_lt x y
    have none : (x.toUInt32 ^^^ y.toUInt32).toNat = 0 := by omega
    obtain rfl := UInt8.toUInt32_inj.mp (eq_of_toNat_xor none)
    rw [ih (Nat.succ.inj same) (by omega) h]

/-- At most four neighbouring wrong bytes change the checksum. -/
theorem ofBytes_ne_of_differsWithin {p n : Nat} (few : n ≤ 4) {a b : ByteArray}
    (h : DiffersWithin p n a b) : ofBytes a ≠ ofBytes b := by
  obtain ⟨before, x, y, behind, left, right, same, le, differ⟩ := h.exists_parts
  intro equal
  rw [ofBytes, ofBytes, value, value, UInt32.xor_left_inj, update, update, ← Array.foldl_toList,
    ← Array.foldl_toList, left, right, List.foldl_append, List.foldl_append, List.foldl_append,
    List.foldl_append] at equal
  exact differ (eq_of_foldl_eq same (Nat.le_trans le few) (foldl_step_injective equal))

end Crc32
end ExternalSort
