/-
  ExternalSort.Proofs.Bytes.StandsAt

  Byte strings that stand at a place of a longer one.

  What is written back to back is read back piece by piece: a piece of what
  stands at a place stands at its own place (`left`, `right`), and stays there
  when more is written behind it (`append`).
-/

import ExternalSort.Bytes.Word

namespace ExternalSort

theorem bytes_isEmpty_iff {bytes : ByteArray} : bytes.isEmpty = true ↔ bytes = .empty := by
  rw [ByteArray.isEmpty, beq_iff_eq, ByteArray.size_eq_zero_iff]

/-- The bytes stand in the input from `pos` on. -/
def StandsAt (bytes input : ByteArray) (pos : Nat) : Prop :=
  ∃ before after, input = before ++ (bytes ++ after) ∧ before.size = pos

namespace StandsAt

variable {a b bytes input : ByteArray} {pos : Nat}

theorem self (bytes : ByteArray) : StandsAt bytes bytes 0 :=
  ⟨.empty, .empty, by simp, rfl⟩

theorem le_size (h : StandsAt bytes input pos) : pos + bytes.size ≤ input.size := by
  obtain ⟨before, after, rfl, rfl⟩ := h
  simp only [ByteArray.size_append]
  omega

theorem extract_eq (h : StandsAt bytes input pos) :
    input.extract pos (pos + bytes.size) = bytes := by
  obtain ⟨before, after, rfl, rfl⟩ := h
  rw [← ByteArray.append_assoc, ByteArray.extract_append,
    ByteArray.extract_append_eq_right rfl rfl]
  simp

theorem of_extract {stop : Nat} (hpos : pos ≤ stop) (hstop : stop ≤ input.size) :
    StandsAt (input.extract pos stop) input pos := by
  refine ⟨input.extract 0 pos, input.extract stop input.size, ?_, ?_⟩
  · rw [ByteArray.extract_append_extract, Nat.min_eq_left hpos, Nat.max_eq_right hstop,
      ByteArray.extract_append_extract, Nat.zero_min,
      Nat.max_eq_right (Nat.le_trans hpos hstop), ByteArray.extract_zero_size]
  · rw [ByteArray.size_extract]
    omega

theorem left (h : StandsAt (a ++ b) input pos) : StandsAt a input pos := by
  obtain ⟨before, after, rfl, rfl⟩ := h
  exact ⟨before, b ++ after, by rw [ByteArray.append_assoc], rfl⟩

theorem right (h : StandsAt (a ++ b) input pos) : StandsAt b input (pos + a.size) := by
  obtain ⟨before, after, rfl, rfl⟩ := h
  exact ⟨before ++ a, after, by simp only [ByteArray.append_assoc], ByteArray.size_append⟩

theorem append (h : StandsAt bytes input pos) (more : ByteArray) :
    StandsAt bytes (input ++ more) pos := by
  obtain ⟨before, after, rfl, rfl⟩ := h
  exact ⟨before, after ++ more, by simp only [ByteArray.append_assoc], rfl⟩

theorem prepend (h : StandsAt bytes input pos) (more : ByteArray) :
    StandsAt bytes (more ++ input) (more.size + pos) := by
  obtain ⟨before, after, rfl, rfl⟩ := h
  exact ⟨more ++ before, after, by rw [ByteArray.append_assoc], ByteArray.size_append⟩

theorem getElem {c : UInt8} {rest : List UInt8} (h : StandsAt (c :: rest).toByteArray input pos) :
    ∃ hlt : pos < input.size, input[pos] = c := by
  have size : (c :: rest).toByteArray.size = rest.length + 1 := by simp
  have le := h.le_size
  obtain ⟨before, after, rfl, rfl⟩ := h
  refine ⟨by omega, ?_⟩
  rw [ByteArray.getElem_append_right (Nat.le_refl _), ByteArray.getElem_append_left (by omega)]
  simp

/-- What is appended stands behind what was there. -/
theorem behind (input bytes : ByteArray) : StandsAt bytes (input ++ bytes) input.size :=
  ⟨input, .empty, by simp, rfl⟩

end StandsAt
end ExternalSort
