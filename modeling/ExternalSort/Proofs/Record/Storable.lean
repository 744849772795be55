/-
  ExternalSort.Proofs.Record.Storable

  Byte forms are read back as what was written.

  A reader needs nothing but its own bytes ahead of the cursor: wherever the
  byte form of a value stands, reading there gives the value and leaves the
  cursor behind it. So records can be written back to back.
-/

import ExternalSort.Proofs.Bytes.StandsAt
import ExternalSort.Proofs.Failing
import ExternalSort.Record.Kind

namespace ExternalSort

open Storable (encode decode)

/-- Values whose byte form, where it fits the length words, is read back. -/
class LawfulStorable (α : Type) [Storable α] : Prop where
  decode_encode {x : α} {input : ByteArray} {pos : Nat} (origin : Nat) :
    (encode x).size < UInt32.size → StandsAt (encode x) input pos →
      Reader.runOn decode ⟨input, pos, origin⟩ = (.ok x, ⟨input, pos + (encode x).size, origin⟩)

/-- Values that have at least one byte. -/
class TakesSpace (α : Type) [Storable α] : Prop where
  size_encode_pos : ∀ x : α, 0 < (encode x).size

theorem TakesSpace.forall_mem {α : Type} [Storable α] [TakesSpace α] (xs : List α) :
    ∀ x ∈ xs, 0 < (encode x).size :=
  fun x _ => size_encode_pos x

theorem Storable.size_encodeCounted (bytes : ByteArray) :
    (encodeCounted bytes).size = 4 + bytes.size := by
  rw [encodeCounted, ByteArray.size_append, Word.size_bytes]

namespace Reader

variable {α β : Type}

theorem runOn_bind {r : Reader α} {f : α → Reader β} {c c' : Cursor} {a : α}
    (h : runOn r c = (.ok a, c')) : runOn (r >>= f) c = runOn (f a) c' := by
  have := Failing.runOn_bind r f c
  rwa [show Failing.runOn r c = (.ok a, c') from h] at this

/-- Taking what stands ahead. -/
theorem runOn_take {bytes input : ByteArray} {pos n : Nat} (origin : Nat)
    (h : StandsAt bytes input pos) (hn : bytes.size = n) :
    runOn (take n) ⟨input, pos, origin⟩ = (.ok bytes, ⟨input, pos + n, origin⟩) := by
  subst hn
  have le := h.le_size
  have enough : ¬ (⟨input, pos, origin⟩ : Cursor).remaining < bytes.size := by
    simp only [Cursor.remaining]
    omega
  have got : runOn (get : Reader Cursor) ⟨input, pos, origin⟩
      = (.ok ⟨input, pos, origin⟩, ⟨input, pos, origin⟩) := rfl
  rw [take, runOn_bind got, if_neg enough]
  exact congrArg (fun b => (Except.ok b, _)) h.extract_eq

theorem runOn_word {input : ByteArray} {pos n : Nat} (width origin : Nat)
    (hn : n < Word.range width) (h : StandsAt (Word.bytes width n) input pos) :
    runOn (word width) ⟨input, pos, origin⟩ = (.ok n, ⟨input, pos + width, origin⟩) := by
  rw [word, runOn_bind (runOn_take origin h (Word.size_bytes width n)),
    Word.ofBytes_bytes, Nat.mod_eq_of_lt hn]
  rfl

theorem runOn_counted {bytes input : ByteArray} {pos : Nat} (origin : Nat)
    (fits : bytes.size < UInt32.size) (h : StandsAt (Storable.encodeCounted bytes) input pos) :
    runOn counted ⟨input, pos, origin⟩
      = (.ok bytes, ⟨input, pos + (Storable.encodeCounted bytes).size, origin⟩) := by
  have small : bytes.size < Word.range 4 := by
    have : Word.range 4 = UInt32.size := by decide
    omega
  have body := h.right
  rw [Word.size_bytes] at body
  rw [counted, runOn_bind (runOn_word 4 origin small h.left), runOn_take origin body rfl,
    Storable.size_encodeCounted, Nat.add_assoc]

theorem runOn_text {x : String} {input : ByteArray} {pos : Nat} (origin : Nat)
    (fits : x.toUTF8.size < UInt32.size)
    (h : StandsAt (Storable.encodeCounted x.toUTF8) input pos) :
    runOn text ⟨input, pos, origin⟩
      = (.ok x, ⟨input, pos + (Storable.encodeCounted x.toUTF8).size, origin⟩) := by
  rw [text, runOn_bind (runOn_counted origin fits h), Utf8.decode_toUTF8]
  rfl

end Reader

/-! ## Every kind -/

open Reader

instance : LawfulStorable Int32 where
  decode_encode {x input pos} origin _ h := by
    have fits : x.toUInt32.toNat < Word.range 4 := x.toUInt32.toNat_lt
    rw [show (encode x).size = 4 from Word.size_bytes 4 _]
    show runOn (word 4 >>= fun n => pure (Int32.ofUInt32 (UInt32.ofNat n))) _ = _
    rw [runOn_bind (runOn_word 4 origin fits h), UInt32.ofNat_toNat]
    rfl

instance : LawfulStorable Int64 where
  decode_encode {x input pos} origin _ h := by
    have fits : x.toUInt64.toNat < Word.range 8 := x.toUInt64.toNat_lt
    rw [show (encode x).size = 8 from Word.size_bytes 8 _]
    show runOn (word 8 >>= fun n => pure (Int64.ofUInt64 (UInt64.ofNat n))) _ = _
    rw [runOn_bind (runOn_word 8 origin fits h), UInt64.ofNat_toNat]
    rfl

instance : LawfulStorable UInt32 where
  decode_encode {x input pos} origin _ h := by
    have fits : x.toNat < Word.range 4 := x.toNat_lt
    rw [show (encode x).size = 4 from Word.size_bytes 4 _]
    show runOn (word 4 >>= fun n => pure (UInt32.ofNat n)) _ = _
    rw [runOn_bind (runOn_word 4 origin fits h), UInt32.ofNat_toNat]
    rfl

instance : LawfulStorable UInt64 where
  decode_encode {x input pos} origin _ h := by
    have fits : x.toNat < Word.range 8 := x.toNat_lt
    rw [show (encode x).size = 8 from Word.size_bytes 8 _]
    show runOn (word 8 >>= fun n => pure (UInt64.ofNat n)) _ = _
    rw [runOn_bind (runOn_word 8 origin fits h), UInt64.ofNat_toNat]
    rfl

instance : LawfulStorable ByteArray where
  decode_encode {x _ _} origin hsize h := by
    have size : (encode x).size = 4 + x.size := Storable.size_encodeCounted x
    exact runOn_counted origin (by omega) h

instance : LawfulStorable String where
  decode_encode {x _ _} origin hsize h := by
    have size : (encode x).size = 4 + x.toUTF8.size := Storable.size_encodeCounted x.toUTF8
    exact runOn_text origin (by omega) h

instance : LawfulStorable Unit where
  decode_encode _ _ _ := rfl

instance {α β : Type} [Storable α] [Storable β] [LawfulStorable α] [LawfulStorable β] :
    LawfulStorable (α × β) where
  decode_encode {x input pos} origin hsize h := by
    have size : (encode x).size = (encode x.1).size + (encode x.2).size := ByteArray.size_append
    show runOn (decode >>= fun first => decode >>= fun second => pure (first, second)) _ = _
    rw [runOn_bind (LawfulStorable.decode_encode origin (by omega) h.left),
      runOn_bind (LawfulStorable.decode_encode origin (by omega) h.right), size, ← Nat.add_assoc]
    rfl

instance : (k : Kind) → LawfulStorable k.Carrier
  | .int32 => inferInstanceAs (LawfulStorable Int32)
  | .int64 => inferInstanceAs (LawfulStorable Int64)
  | .word32 => inferInstanceAs (LawfulStorable UInt32)
  | .word64 => inferInstanceAs (LawfulStorable UInt64)
  | .bytes => inferInstanceAs (LawfulStorable ByteArray)
  | .text => inferInstanceAs (LawfulStorable String)
  | .null => inferInstanceAs (LawfulStorable Unit)

/-! ## Space -/

/-- Only the empty value takes no space. -/
theorem Kind.size_encode_pos {k : Kind} (hk : k ≠ .null) (x : k.Carrier) : 0 < (encode x).size := by
  have counted (b : ByteArray) : 0 < (Storable.encodeCounted b).size := by
    rw [Storable.size_encodeCounted]
    omega
  cases k with
  | int32 => exact (Word.size_bytes 4 _).symm ▸ (by decide : 0 < 4)
  | int64 => exact (Word.size_bytes 8 _).symm ▸ (by decide : 0 < 8)
  | word32 => exact (Word.size_bytes 4 _).symm ▸ (by decide : 0 < 4)
  | word64 => exact (Word.size_bytes 8 _).symm ▸ (by decide : 0 < 8)
  | bytes => exact counted x
  | text => exact counted x.toUTF8
  | null => exact absurd rfl hk

/-- A record takes space unless both its parts are empty values. -/
theorem Record.takesSpace {key value : Kind} (h : ¬ (key = .null ∧ value = .null)) :
    TakesSpace (Record key value) where
  size_encode_pos x := by
    have size : (encode x).size = (encode x.1).size + (encode x.2).size := ByteArray.size_append
    by_cases hkey : key = .null
    · have := Kind.size_encode_pos (fun hvalue => h ⟨hkey, hvalue⟩) x.2
      omega
    · have := Kind.size_encode_pos hkey x.1
      omega

/-- Either every record takes space or none does. -/
theorem Record.takesSpace_or_blank (key value : Kind) :
    TakesSpace (Record key value) ∨ ∀ x : Record key value, encode x = .empty := by
  by_cases kinds : key = .null ∧ value = .null
  · obtain ⟨rfl, rfl⟩ := kinds
    exact .inr fun _ => rfl
  · exact .inl (Record.takesSpace kinds)

/-! ## The space of many items -/

section Charge

variable {α : Type} {size : α → Nat}

/-- What items of the given sizes take together. -/
def charge (size : α → Nat) : List α → Nat
  | [] => 0
  | x :: xs => size x + charge size xs

theorem charge_cons (x : α) (xs : List α) : charge size (x :: xs) = size x + charge size xs := rfl

theorem charge_append (xs ys : List α) :
    charge size (xs ++ ys) = charge size xs + charge size ys := by
  induction xs with
  | nil => exact (Nat.zero_add _).symm
  | cons x xs ih => rw [List.cons_append, charge_cons, charge_cons, ih, Nat.add_assoc]

theorem charge_concat (xs : List α) (x : α) :
    charge size (xs ++ [x]) = charge size xs + size x := by
  rw [charge_append, charge_cons]
  rfl

theorem charge_perm {xs ys : List α} (h : xs.Perm ys) : charge size xs = charge size ys := by
  induction h with
  | nil => rfl
  | cons x _ ih => rw [charge_cons, charge_cons, ih]
  | swap x y xs => rw [charge_cons, charge_cons, charge_cons, charge_cons, Nat.add_left_comm]
  | trans _ _ ih₁ ih₂ => exact ih₁.trans ih₂

/-- Items that take memory are no more than the memory they take. -/
theorem length_le_charge (positive : ∀ x, 0 < size x) (xs : List α) :
    xs.length ≤ charge size xs := by
  induction xs with
  | nil => exact Nat.le_refl 0
  | cons x xs ih =>
    have first := positive x
    rw [charge_cons, List.length_cons]
    omega

theorem charge_mono {size' : α → Nat} (le : ∀ x, size x ≤ size' x) (xs : List α) :
    charge size xs ≤ charge size' xs := by
  induction xs with
  | nil => exact Nat.le_refl 0
  | cons x xs ih => exact Nat.add_le_add (le x) ih

theorem charge_sublist {xs ys : List α} (h : xs.Sublist ys) : charge size xs ≤ charge size ys := by
  induction h with
  | slnil => exact Nat.le_refl 0
  | cons x _ ih =>
    rw [charge_cons]
    omega
  | cons_cons x _ ih =>
    rw [charge_cons, charge_cons]
    omega

end Charge

end ExternalSort
