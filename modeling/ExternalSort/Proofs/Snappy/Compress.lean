/-
  ExternalSort.Proofs.Snappy.Compress

  The compressor loses nothing.

  Whatever the table remembers, a copy is made only of bytes that were compared.
  So at every point the elements made so far stand for the bytes before that
  point, and in the end for the whole text, which decompression gives back.

  Decompression does not ask how the elements were chosen. What it needs of a
  stream is said by `Genuine`, and holds of what the compressor writes.
-/

import ExternalSort.Proofs.Snappy.Decompress

namespace ExternalSort
namespace Snappy

open Element

variable {src base : ByteArray}

/-! ## Copies -/

/-- The bytes from `s` to `stop` equal those `offset` places before. -/
def Repeats (src : ByteArray) (offset s stop : Nat) : Prop :=
  ∀ k, s ≤ k → k < stop → src[k]? = src[k - offset]?

theorem extract_succ {s : Nat} (hs : s < src.size) :
    src.extract 0 (s + 1) = (src.extract 0 s).push src[s] := by
  rw [← ByteArray.append_toByteArray_singleton, ← ByteArray.extract_add_one hs,
    ByteArray.extract_append_extract, Nat.zero_min, Nat.max_eq_right (Nat.le_succ s)]

theorem append_push (a b : ByteArray) (c : UInt8) : (a ++ b).push c = a ++ b.push c := by
  rw [← ByteArray.append_toByteArray_singleton, ← ByteArray.append_toByteArray_singleton,
    ByteArray.append_assoc]

theorem repeatBack_eq {offset s length : Nat} (hpos : 0 < offset) (hle : offset ≤ s)
    (hend : s + length ≤ src.size) (h : Repeats src offset s (s + length)) :
    repeatBack offset length (base ++ src.extract 0 s) = base ++ src.extract 0 (s + length) := by
  induction length generalizing s with
  | zero => rfl
  | succ length ih =>
    have hs : s < src.size := by omega
    have back : (base ++ src.extract 0 s).size - offset = base.size + (s - offset) := by
      rw [ByteArray.size_append, ByteArray.size_extract]
      omega
    have byte : ((base ++ src.extract 0 s)[(base ++ src.extract 0 s).size - offset]?).getD 0
        = src[s] := by
      have same := h s (Nat.le_refl s) (by omega)
      rw [getElem?_pos src s hs, getElem?_pos src (s - offset) (by omega)] at same
      rw [back, getElem?_pos _ _ (by simp; omega), Option.getD_some,
        ByteArray.getElem_append_right (by omega), ByteArray.getElem_extract]
      simp only [Nat.add_sub_cancel_left, Nat.zero_add]
      exact (Option.some.inj same).symm
    rw [repeatBack, byte, append_push, ← extract_succ hs,
      ih (by omega) (by omega) fun k hk hlt => h k (by omega) (by omega),
      Nat.add_right_comm s 1 length, Nat.add_assoc]

theorem expand?_copy (base : ByteArray) {offset s : Nat} (length : Nat) (hpos : 0 < offset)
    (hle : offset ≤ s) (hend : s + length ≤ src.size) (h : Repeats src offset s (s + length)) :
    (Element.copy offset length).expand? (base ++ src.extract 0 s)
      = some (base ++ src.extract 0 (s + length)) := by
  have inside : offset ≤ (base ++ src.extract 0 s).size := by
    rw [ByteArray.size_append, ByteArray.size_extract]
    omega
  rw [expand?, if_pos ⟨hpos, inside⟩, repeatBack_eq hpos hle hend h]

theorem expandAll?_copyPieces (base src : ByteArray) {offset s : Nat} (length : Nat)
    (hpos : 0 < offset) (hle : offset ≤ s) (hend : s + length ≤ src.size)
    (h : Repeats src offset s (s + length)) :
    expandAll? (base ++ src.extract 0 s) (copyPieces offset length)
      = some (base ++ src.extract 0 (s + length)) := by
  induction length using Nat.strongRecOn generalizing s with
  | ind length ih =>
    rw [copyPieces]
    -- pieces of 64, and then one or two that are not too short for a copy
    split
    · have first := expand?_copy base 64 hpos hle (by omega)
        fun k hk hlt => h k hk (by omega)
      have others := ih (length - 64) (by omega) (s := s + 64) (by omega) (by omega)
        fun k hk hlt => h k (by omega) (by omega)
      rw [expandAll?, first, Option.bind_some, others]
      congr 3
      omega
    · split
      · have first := expand?_copy base 60 hpos hle (by omega)
          fun k hk hlt => h k hk (by omega)
        have last := expand?_copy base (length - 60) hpos (s := s + 60) (by omega)
          (by omega) fun k hk hlt => h k (by omega) (by omega)
        rw [expandAll?, first, Option.bind_some, expandAll?, last]
        simp only [Option.bind_some, expandAll?]
        congr 3
        omega
      · rw [expandAll?, expand?_copy base length hpos hle hend h]
        rfl

theorem writable_copyPieces {offset length : Nat} (hpos : 0 < offset) (hoffset : offset < 65536)
    (hlen : 4 ≤ length) : ∀ e ∈ copyPieces offset length, e.Writable := by
  induction length using Nat.strongRecOn with
  | ind length ih =>
    intro e he
    rw [copyPieces] at he
    split at he
    · rcases List.mem_cons.mp he with rfl | he
      · exact ⟨hpos, hoffset, by omega, by omega⟩
      · exact ih (length - 64) (by omega) (by omega) e he
    · split at he
      · rcases List.mem_cons.mp he with rfl | he
        · exact ⟨hpos, hoffset, by omega, by omega⟩
        · obtain rfl := List.mem_singleton.mp he
          exact ⟨hpos, hoffset, by omega, by omega⟩
      · obtain rfl := List.mem_singleton.mp he
        exact ⟨hpos, hoffset, by omega, by omega⟩

/-! ## Literals -/

theorem expandAll?_literalPiece {i j : Nat} (hij : i ≤ j) :
    expandAll? (base ++ src.extract 0 i) (literalPiece src i j)
      = some (base ++ src.extract 0 j) := by
  rw [literalPiece]
  split
  · simp only [expandAll?, expand?, Option.bind_some, ByteArray.append_assoc,
      ByteArray.extract_append_extract, Nat.zero_min, Nat.max_eq_right hij]
  · obtain rfl : i = j := by omega
    rfl

theorem writable_literalPiece {i j : Nat} (hj : j ≤ src.size) (hsize : src.size ≤ 65536) :
    ∀ e ∈ literalPiece src i j, e.Writable := by
  intro e he
  rw [literalPiece] at he
  split at he
  · obtain rfl := List.mem_singleton.mp he
    simp only [Writable, ByteArray.size_extract]
    omega
  · exact absurd he (List.not_mem_nil)

/-! ## Matches -/

/-- Bits that do not meet are added. -/
theorem or_shiftLeft {x i : Nat} (hx : x < Nat.pow 2 i) (y : Nat) :
    x ||| y <<< i = x + Nat.pow 2 i * y := by
  rw [Nat.or_comm, ← Nat.shiftLeft_add_eq_or_of_lt hx, Nat.shiftLeft_eq, Nat.mul_comm, Nat.add_comm]
  rfl

theorem toNat_fourBytes (src : ByteArray) (i : Nat) :
    (fourBytes src i).toNat = (src[i]?.getD 0).toNat + 256 * (src[i + 1]?.getD 0).toNat
      + 65536 * (src[i + 2]?.getD 0).toNat + 16777216 * (src[i + 3]?.getD 0).toNat := by
  have h0 := (src[i]?.getD 0).toNat_lt
  have h1 := (src[i + 1]?.getD 0).toNat_lt
  have h2 := (src[i + 2]?.getD 0).toNat_lt
  have h3 := (src[i + 3]?.getD 0).toNat_lt
  have shifted (y k : Nat) (hy : y < 2 ^ 8) (hk : k ≤ 24) : y <<< k % 2 ^ 32 = y <<< k := by
    have : y <<< k < 2 ^ 32 := by
      rw [Nat.shiftLeft_eq]
      calc y * 2 ^ k < 2 ^ 8 * 2 ^ k := Nat.mul_lt_mul_of_pos_right hy (Nat.two_pow_pos k)
        _ = 2 ^ (8 + k) := (Nat.pow_add 2 8 k).symm
        _ ≤ 2 ^ 32 := Nat.pow_le_pow_right (by decide) (by omega)
    exact Nat.mod_eq_of_lt this
  simp only [fourBytes, Nat.add_zero, UInt32.toNat_or, UInt32.toNat_shiftLeft,
    UInt8.toNat_toUInt32, UInt32.reduceToNat, Nat.reduceMod]
  have two : (src[i]?.getD 0).toNat ||| (src[i + 1]?.getD 0).toNat <<< 8
      = (src[i]?.getD 0).toNat + 256 * (src[i + 1]?.getD 0).toNat := or_shiftLeft h0 _
  have three (x : Nat) (hx : x < 65536) (y : Nat) : x ||| y <<< 16 = x + 65536 * y :=
    or_shiftLeft hx y
  have four (x : Nat) (hx : x < 16777216) (y : Nat) : x ||| y <<< 24 = x + 16777216 * y :=
    or_shiftLeft hx y
  rw [shifted _ 8 h1 (by decide), shifted _ 16 h2 (by decide), shifted _ 24 h3 (by decide), two,
    three _ (by omega), four _ (by omega)]

/-- Four bytes are known from their word. -/
theorem fourBytes_inj {i j k : Nat} (h : fourBytes src i = fourBytes src j) (hk : k < 4) :
    src[i + k]?.getD 0 = src[j + k]?.getD 0 := by
  have same := congrArg UInt32.toNat h
  rw [toNat_fourBytes, toNat_fourBytes] at same
  have bound (n : Nat) : (src[n]?.getD 0).toNat < 256 := UInt8.toNat_lt _
  have := bound i; have := bound (i + 1); have := bound (i + 2); have := bound (i + 3)
  have := bound j; have := bound (j + 1); have := bound (j + 2); have := bound (j + 3)
  apply UInt8.toNat_inj.mp
  -- the four bytes are the digits of the word
  match k, hk with
  | 0, _ => rw [Nat.add_zero, Nat.add_zero]; omega
  | 1, _ => omega
  | 2, _ => omega
  | 3, _ => omega

theorem repeats_of_matchesAt {s c : Nat} (h : matchesAt src s c = true) :
    Repeats src (s - c) s (s + 4) := by
  have hlt := matchesAt_lt h
  have hle := matchesAt_le h
  simp only [matchesAt, Bool.and_eq_true, beq_iff_eq] at h
  intro k hk hk4
  have same := fourBytes_inj h.2 (k := k - s) (by omega)
  rw [show s + (k - s) = k by omega, show c + (k - s) = k - (s - c) by omega] at same
  rw [getElem?_pos src k (by omega), getElem?_pos src (k - (s - c)) (by omega)] at same ⊢
  exact congrArg some same

theorem agreementEnd_le {c s : Nat} (hs : s ≤ src.size) : agreementEnd src c s ≤ src.size := by
  fun_induction agreementEnd src c s with
  | case1 c s h _ ih => exact ih (by omega)
  | case2 => exact hs
  | case3 => exact hs

theorem repeats_agreementEnd {c s : Nat} (hc : c ≤ s) :
    Repeats src (s - c) s (agreementEnd src c s) := by
  fun_induction agreementEnd src c s with
  | case1 c s h same ih =>
    intro k hk hlt
    by_cases hks : k = s
    · subst hks
      rw [Nat.sub_sub_self hc, getElem?_pos src k h.2, getElem?_pos src c h.1, same]
    · have := ih (by omega) k (by omega) hlt
      rwa [Nat.add_sub_add_right] at this
  | case2 => exact fun k hk hlt => by omega
  | case3 => exact fun k hk hlt => by omega

/-- A match goes on as far as the bytes agree. -/
theorem repeats_match {s c : Nat} (h : matchesAt src s c = true) :
    Repeats src (s - c) s (agreementEnd src (c + 4) (s + 4)) := by
  have hlt := matchesAt_lt h
  intro k hk hstop
  by_cases hk4 : k < s + 4
  · exact repeats_of_matchesAt h k hk hk4
  · have := repeats_agreementEnd (c := c + 4) (s := s + 4) (by omega) k (by omega)
      hstop
    rwa [Nat.add_sub_add_right] at this

theorem expandAll?_match (base : ByteArray) {s c : Nat} (h : matchesAt src s c = true) :
    expandAll? (base ++ src.extract 0 s)
        (copyPieces (s - c) (agreementEnd src (c + 4) (s + 4) - s))
      = some (base ++ src.extract 0 (agreementEnd src (c + 4) (s + 4))) := by
  have hlt := matchesAt_lt h
  have far := le_agreementEnd src (c + 4) (s + 4)
  have inside := agreementEnd_le (c := c + 4) (matchesAt_le h)
  have whole : s + (agreementEnd src (c + 4) (s + 4) - s) = agreementEnd src (c + 4) (s + 4) := by
    omega
  have agree : Repeats src (s - c) s (s + (agreementEnd src (c + 4) (s + 4) - s)) := by
    rw [whole]
    exact repeats_match h
  have copies := expandAll?_copyPieces base src _ (by omega) (by omega) (by omega) agree
  rwa [whole] at copies

theorem writable_match {s c : Nat} (h : matchesAt src s c = true) (hsize : src.size ≤ 65536) :
    ∀ e ∈ copyPieces (s - c) (agreementEnd src (c + 4) (s + 4) - s), e.Writable := by
  have hlt := matchesAt_lt h
  have hle := matchesAt_le h
  have far := le_agreementEnd src (c + 4) (s + 4)
  exact writable_copyPieces (by omega) (by omega) (by omega)

/-! ## Blocks -/

/-- The elements from `emit` on stand for the bytes from `emit` on. -/
theorem expandAll?_elementsFrom (base : ByteArray) {bits limit : Nat} {table : Table} {emit s : Nat}
    {known : Option { c : Nat // matchesAt src s c = true }} (hemit : emit ≤ src.size)
    (hs : emit ≤ s) (hknown : known.isSome → s = emit) :
    expandAll? (base ++ src.extract 0 emit) (elementsFrom src bits limit table emit s known)
      = some (base ++ src) := by
  fun_induction elementsFrom src bits limit table emit s known with
  -- nothing is found any more, and the rest is a literal
  | case1 table emit s table' hsearch =>
    rw [expandAll?_literalPiece hemit, ByteArray.extract_zero_size]
  | case2 table emit s m table' hsearch ih =>
    have := m.later
    have := matchesAt_le m.found
    rw [expandAll?_append, expandAll?_literalPiece (by omega), Option.bind_some]
    exact ih (by omega) (Nat.le_refl _) fun _ => rfl
  -- the copy ends too close to the end of the input to search behind it
  | case3 table emit s c stop copies hstop =>
    obtain rfl := hknown rfl
    have inside : stop ≤ src.size := agreementEnd_le (matchesAt_le c.2)
    rw [expandAll?_append, expandAll?_match base c.2, Option.bind_some,
      expandAll?_literalPiece inside, ByteArray.extract_zero_size]
  | case4 table emit s c stop copies hstop table' h candidate table'' found ih =>
    obtain rfl := hknown rfl
    rw [expandAll?_append, expandAll?_match base c.2, Option.bind_some]
    exact ih (agreementEnd_le (matchesAt_le c.2)) (Nat.le_refl _) fun _ => rfl
  | case5 table emit s c stop copies hstop table' h candidate table'' found ih =>
    obtain rfl := hknown rfl
    rw [expandAll?_append, expandAll?_match base c.2, Option.bind_some]
    exact ih (agreementEnd_le (matchesAt_le c.2)) (Nat.le_succ _) (by simp)

theorem writable_elementsFrom {bits limit : Nat} {table : Table} {emit s : Nat}
    {known : Option { c : Nat // matchesAt src s c = true }} (hsize : src.size ≤ 65536) :
    ∀ e ∈ elementsFrom src bits limit table emit s known, e.Writable := by
  fun_induction elementsFrom src bits limit table emit s known with
  | case1 => exact writable_literalPiece (Nat.le_refl _) hsize
  | case2 table emit s m table' hsearch ih =>
    have := matchesAt_le m.found
    exact List.forall_mem_append.mpr ⟨writable_literalPiece (by omega) hsize, ih⟩
  | case3 table emit s c stop copies hstop =>
    exact List.forall_mem_append.mpr
      ⟨writable_match c.2 hsize, writable_literalPiece (Nat.le_refl _) hsize⟩
  | case4 table emit s c stop copies hstop table' h candidate table'' found ih =>
    exact List.forall_mem_append.mpr ⟨writable_match c.2 hsize, ih⟩
  | case5 table emit s c stop copies hstop table' h candidate table'' found ih =>
    exact List.forall_mem_append.mpr ⟨writable_match c.2 hsize, ih⟩

theorem expandAll?_blockElements (base : ByteArray) (src : ByteArray) :
    expandAll? base (blockElements src) = some (base ++ src) := by
  have start : base = base ++ src.extract 0 0 := by simp
  rw [blockElements]
  split
  · rw [start, expandAll?_literalPiece (Nat.zero_le _), ByteArray.extract_zero_size, ← start]
  · conv => lhs; rw [start]
    exact expandAll?_elementsFrom base (Nat.zero_le _) (Nat.zero_le _) (by simp)

theorem writable_blockElements (hsize : src.size ≤ 65536) :
    ∀ e ∈ blockElements src, e.Writable := by
  rw [blockElements]
  split
  · exact writable_literalPiece (Nat.le_refl _) hsize
  · exact writable_elementsFrom hsize

/-! ## Texts -/

/-- The elements of a text stand for it. -/
theorem expandAll?_elements (base src : ByteArray) :
    expandAll? base (elements src) = some (base ++ src) := by
  fun_induction elements src generalizing base with
  | case1 src hzero =>
    rw [ByteArray.size_eq_zero_iff.mp hzero, expandAll?, ByteArray.append_empty]
  | case2 src hpos ih =>
    have whole : src.extract 0 blockSize ++ src.extract blockSize src.size = src := by
      rw [ByteArray.extract_append_extract, Nat.zero_min, ByteArray.extract_zero_max_size]
    rw [expandAll?_append, expandAll?_blockElements, Option.bind_some, ih,
      ByteArray.append_assoc, whole]

theorem writable_elements (src : ByteArray) : ∀ e ∈ elements src, e.Writable := by
  fun_induction elements src with
  | case1 => exact fun e he => absurd he List.not_mem_nil
  | case2 src hpos ih =>
    refine List.forall_mem_append.mpr ⟨writable_blockElements ?_, ih⟩
    rw [ByteArray.size_extract, blockSize]
    omega

/-! ## Streams -/

/-- A stream of a text as a compressor may write it: the length of the text, and literals and copies
    that stand for it, however they were chosen. -/
def Genuine (text stream : ByteArray) : Prop :=
  ∃ es : List Element, (∀ e ∈ es, e.Writable) ∧ expandAll? .empty es = some text ∧
    stream = (writeLength text.size).toByteArray ++ encodeAll es

theorem genuine_compress (src : ByteArray) : Genuine src (compress src) := by
  have whole : expandAll? .empty (elements src) = some src := by
    rw [expandAll?_elements, ByteArray.empty_append]
  exact ⟨elements src, writable_elements src, whole, foldl_encode _ _⟩

theorem size_lt_of_tooLong {src : ByteArray} (h : tooLong src = false) : src.size < UInt32.size := by
  have := of_decide_eq_false h
  rw [streamBound] at this
  omega

namespace Genuine

variable {text stream : ByteArray}

theorem size_pos (h : Genuine text stream) : 0 < stream.size := by
  obtain ⟨es, -, -, rfl⟩ := h
  have : 0 < (writeLength text.size).length := by
    rw [writeLength]
    split <;> simp
  rw [ByteArray.size_append, List.size_toByteArray]
  omega

theorem header?_eq (h : Genuine text stream) (fits : text.size < UInt32.size) :
    header? stream = some (text.size, (writeLength text.size).length) := by
  obtain ⟨es, -, -, rfl⟩ := h
  have stands := (StandsAt.self (writeLength text.size).toByteArray).append (encodeAll es)
  have short : (writeLength text.size).length ≤ lengthLimit :=
    length_writeLength_le (by decide) (Nat.lt_trans fits (by decide))
  rw [header?, readLength?_writeLength stands short]
  simp [fits]

/-- Decompressing a stream gives its text back. -/
theorem decompress?_eq (h : Genuine text stream) (fits : text.size < UInt32.size) :
    decompress? stream = some text := by
  have header := h.header?_eq fits
  obtain ⟨es, writable, whole, rfl⟩ := h
  have stands := (StandsAt.self ((writeLength text.size).toByteArray ++ encodeAll es)).right
  rw [Nat.zero_add, List.size_toByteArray] at stands
  have size : (writeLength text.size).length + (encodeAll es).size
      = ((writeLength text.size).toByteArray ++ encodeAll es).size := by
    rw [ByteArray.size_append, List.size_toByteArray]
  have few := length_le_size_encodeAll es
  have expanded := expandFrom?_encodeAll writable stands size
    (show es.length < ((writeLength text.size).toByteArray ++ encodeAll es).size + 1 by omega) whole
    (Nat.le_refl _)
  simp only [decompress?, header, Option.bind_eq_bind, Option.bind_some, expanded, if_true]
  rfl

/-- A stream is not much shorter than its text: 64 bytes of the text take three bytes at least. -/
theorem size_le (h : Genuine text stream) : 3 * text.size ≤ 64 * stream.size := by
  obtain ⟨es, writable, whole, rfl⟩ := h
  have total := totalSize_le writable
  have size := size_expandAll? whole
  rw [ByteArray.size_empty, Nat.zero_add] at size
  rw [ByteArray.size_append]
  omega

end Genuine
end Snappy
end ExternalSort
