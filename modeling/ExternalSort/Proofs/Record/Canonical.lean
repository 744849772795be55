/-
  ExternalSort.Proofs.Record.Canonical

  Every value has one byte form.

  What a reader gives was written in the bytes that it moved over: those bytes
  are the byte form of the value. So writing again what was read gives the same
  bytes.
-/

import ExternalSort.Proofs.Record.Storable

namespace ExternalSort

open Storable (encode decode)

namespace StandsAt

variable {a b input : ByteArray} {pos : Nat}

/-- Two byte strings back to back. -/
theorem join (ha : StandsAt a input pos) (hb : StandsAt b input (pos + a.size)) :
    StandsAt (a ++ b) input pos := by
  have le := hb.le_size
  have whole : input.extract pos (pos + a.size + b.size) = a ++ b := by
    conv => rhs; rw [← ha.extract_eq, ← hb.extract_eq]
    rw [ByteArray.extract_append_extract, Nat.min_eq_left (by omega), Nat.max_eq_right (by omega)]
  rw [← whole]
  exact .of_extract (by omega) le

theorem nothing (inside : pos ≤ input.size) : StandsAt .empty input pos := by
  have h : StandsAt (input.extract pos pos) input pos := .of_extract (Nat.le_refl pos) inside
  have none : (input.extract pos pos).size = 0 := by
    rw [ByteArray.size_extract]
    omega
  rwa [ByteArray.size_eq_zero_iff.mp none] at h

end StandsAt

/-! ## Reading what stands there -/

/-- A reader moves over the byte form of what it gives. -/
def Reader.Reads {α : Type} (r : Reader α) (form : α → ByteArray) : Prop :=
  ∀ {input pos} (origin : Nat), pos ≤ input.size →
    Leads r ⟨input, pos, origin⟩
      (fun x c => StandsAt (form x) input pos ∧ c = ⟨input, pos + (form x).size, origin⟩)
      fun _ _ => True

/-- Values whose byte form is the only one that is read as them. -/
class CanonicalStorable (α : Type) [Storable α] : Prop where
  reads : (decode : Reader α).Reads encode

namespace Reader

variable {α β : Type}

theorem Reads.pair {r : Reader α} {r' : Reader β} {form : α → ByteArray} {form' : β → ByteArray}
    (h : r.Reads form) (k : r'.Reads form') :
    Reads (r >>= fun x => r' >>= fun y => pure (x, y)) fun p => form p.1 ++ form' p.2 := by
  intro input pos origin inside
  refine Leads.seq (h origin inside) ?_ fun _ _ _ => trivial
  rintro x _ ⟨first, rfl⟩
  refine Leads.seq (k origin first.le_size) ?_ fun _ _ _ => trivial
  rintro y _ ⟨second, rfl⟩
  refine Leads.of_pure ⟨first.join second, ?_⟩
  rw [ByteArray.size_append, Nat.add_assoc]

theorem take_leads (n : Nat) {input : ByteArray} {pos : Nat} (origin : Nat)
    (inside : pos ≤ input.size) :
    Leads (take n) ⟨input, pos, origin⟩
      (fun bytes c => bytes.size = n ∧ StandsAt bytes input pos ∧ c = ⟨input, pos + n, origin⟩)
      fun _ _ => True := by
  rw [take]
  refine Leads.bind (Leads.of_get ?_)
  split
  · exact Leads.bind (Leads.of_throw trivial)
  · rename_i enough
    have stop : pos + n ≤ input.size := by
      have : ¬ input.size - pos < n := enough
      omega
    refine Leads.bind (Leads.of_set (Leads.of_pure ⟨?_, .of_extract (Nat.le_add_right _ _) stop, rfl⟩))
    rw [ByteArray.size_extract]
    dsimp only
    omega

theorem bytes_ofBytes {width : Nat} {bytes : ByteArray} (h : bytes.size = width) :
    Word.bytes width (Word.ofBytes bytes) = bytes := by
  subst h
  have length : bytes.data.toList.length = bytes.size := by simp
  rw [Word.bytes, Word.ofBytes, ← length, Word.encode_decode]
  exact ByteArray.ext List.data_toByteArray

theorem word_leads (width : Nat) {input : ByteArray} {pos : Nat} (origin : Nat)
    (inside : pos ≤ input.size) :
    Leads (word width) ⟨input, pos, origin⟩
      (fun n c => n < Word.range width ∧ StandsAt (Word.bytes width n) input pos ∧
        c = ⟨input, pos + width, origin⟩)
      fun _ _ => True := by
  rw [word]
  refine Leads.seq (take_leads width origin inside) ?_ fun _ _ _ => trivial
  rintro bytes _ ⟨size, stands, rfl⟩
  refine Leads.of_pure ⟨?_, ?_, rfl⟩
  · have := Word.decode_lt bytes.data.toList
    rwa [show bytes.data.toList.length = width by simpa using size] at this
  · rwa [bytes_ofBytes size]

/-- Reading a word, and giving the value that is written as it. -/
theorem reads_word {width : Nat} {f : Nat → α} {g : α → Nat}
    (same : ∀ n < Word.range width, g (f n) = n) :
    Reads (word width >>= fun n => pure (f n)) fun x => Word.bytes width (g x) := by
  intro input pos origin inside
  refine Leads.seq (word_leads width origin inside) ?_ fun _ _ _ => trivial
  rintro n _ ⟨small, stands, rfl⟩
  refine Leads.of_pure ⟨?_, by rw [Word.size_bytes]⟩
  show StandsAt (Word.bytes width (g (f n))) input pos
  rwa [same n small]

theorem reads_counted : counted.Reads Storable.encodeCounted := by
  intro input pos origin inside
  rw [counted]
  refine Leads.seq (word_leads 4 origin inside) ?_ fun _ _ _ => trivial
  rintro n _ ⟨small, head, rfl⟩
  have inside' := head.le_size
  rw [Word.size_bytes] at inside'
  refine (take_leads n origin inside').mono ?_ fun _ _ _ => trivial
  rintro bytes _ ⟨rfl, body, rfl⟩
  refine ⟨head.join (by rwa [Word.size_bytes]), ?_⟩
  rw [Storable.encodeCounted, ByteArray.size_append, Word.size_bytes, Nat.add_assoc]

/-- Text is written as the bytes that it was decoded from. -/
theorem toUTF8_of_decode {bytes : ByteArray} {x : String} (h : Utf8.decode bytes = .ok x) :
    x.toUTF8 = bytes := by
  rw [Utf8.decode, String.fromUTF8?] at h
  split at h
  · rename_i found
    split at found
    · obtain rfl := Except.ok.inj h
      obtain rfl := Option.some.inj found
      rfl
    · exact absurd found (by simp)
  · exact absurd h (by simp)

theorem reads_text : text.Reads fun x => Storable.encodeCounted x.toUTF8 := by
  intro input pos origin inside
  rw [text]
  refine Leads.seq (reads_counted origin inside) ?_ fun _ _ _ => trivial
  rintro bytes _ ⟨stands, rfl⟩
  rcases h : Utf8.decode bytes with fault | x
  · exact Leads.of_throw trivial
  · rw [← toUTF8_of_decode h] at stands ⊢
    exact Leads.of_pure ⟨stands, rfl⟩

end Reader

/-! ## Every kind -/

open Reader

theorem toNat_ofNat32 {n : Nat} (small : n < Word.range 4) : (UInt32.ofNat n).toNat = n := by
  rw [UInt32.toNat_ofNat']
  exact Nat.mod_eq_of_lt small

theorem toNat_ofNat64 {n : Nat} (small : n < Word.range 8) : (UInt64.ofNat n).toNat = n := by
  rw [UInt64.toNat_ofNat']
  exact Nat.mod_eq_of_lt small

instance : CanonicalStorable Int32 where
  reads := reads_word (f := fun n => Int32.ofUInt32 (UInt32.ofNat n)) (g := (·.toUInt32.toNat))
    fun _ small => toNat_ofNat32 small

instance : CanonicalStorable Int64 where
  reads := reads_word (f := fun n => Int64.ofUInt64 (UInt64.ofNat n)) (g := (·.toUInt64.toNat))
    fun _ small => toNat_ofNat64 small

instance : CanonicalStorable UInt32 := ⟨reads_word fun _ small => toNat_ofNat32 small⟩

instance : CanonicalStorable UInt64 := ⟨reads_word fun _ small => toNat_ofNat64 small⟩

instance : CanonicalStorable ByteArray := ⟨reads_counted⟩

instance : CanonicalStorable String := ⟨reads_text⟩

instance : CanonicalStorable Unit where
  reads _ inside := Leads.of_pure ⟨.nothing inside, rfl⟩

instance {α β : Type} [Storable α] [Storable β] [CanonicalStorable α] [CanonicalStorable β] :
    CanonicalStorable (α × β) :=
  ⟨CanonicalStorable.reads.pair CanonicalStorable.reads⟩

instance : (k : Kind) → CanonicalStorable k.Carrier
  | .int32 => inferInstanceAs (CanonicalStorable Int32)
  | .int64 => inferInstanceAs (CanonicalStorable Int64)
  | .word32 => inferInstanceAs (CanonicalStorable UInt32)
  | .word64 => inferInstanceAs (CanonicalStorable UInt64)
  | .bytes => inferInstanceAs (CanonicalStorable ByteArray)
  | .text => inferInstanceAs (CanonicalStorable String)
  | .null => inferInstanceAs (CanonicalStorable Unit)

end ExternalSort
