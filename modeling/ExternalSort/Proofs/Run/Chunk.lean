/-
  ExternalSort.Proofs.Run.Chunk

  Chunks are read back as what was written.

  The header tells the length of the payload and whether it is compressed, and
  the payload gives the records of the chunk back. The guard against false
  lengths lets every stream pass that the compressor made.
-/

import ExternalSort.Proofs.Bytes.StandsAt
import ExternalSort.Proofs.Snappy.Compress
import ExternalSort.Record.Storable
import ExternalSort.Run.Chunk

namespace ExternalSort

/-- No hook, or one that undoes what it does. -/
def FaithfulHook (hook : Option Protector) : Prop := ∀ p ∈ hook, p.Faithful

theorem FaithfulHook.of_none {hook : Option Protector} (none : hook = .none) : FaithfulHook hook := by
  rw [none]
  exact fun _ => nofun

namespace Chunk

/-! ## Payloads -/

/-- The guard against false lengths lets a genuine stream pass. -/
theorem size_le_of_genuine {text stream : ByteArray} (genuine : Snappy.Genuine text stream) :
    text.size ≤ expansionLimit * stream.size := by
  have := genuine.size_le
  rw [expansionLimit]
  omega

theorem expand_of_genuine {text stream : ByteArray} (genuine : Snappy.Genuine text stream)
    (fits : text.size < UInt32.size) : expand stream = .ok text := by
  have pos := genuine.size_pos
  have nonempty : stream.isEmpty = false := by
    simp only [ByteArray.isEmpty, beq_eq_false_iff_ne]
    omega
  have claimed : Snappy.claimedLength? stream = some text.size := by
    rw [Snappy.claimedLength?, nonempty, genuine.header?_eq fits]
    rfl
  have believable : ¬ stream.size * expansionLimit < text.size := by
    rw [Nat.mul_comm]
    exact Nat.not_lt.mpr (size_le_of_genuine genuine)
  simp only [expand, claimed, believable, if_false, genuine.decompress?_eq fits]

theorem expand_compress {records : ByteArray} (h : Snappy.tooLong records = false) :
    expand (Snappy.compress records) = .ok records :=
  expand_of_genuine (Snappy.genuine_compress records) (Snappy.size_lt_of_tooLong h)

theorem unprotect_protect {hook : Option Protector} (faithful : FaithfulHook hook)
    {database : Option String} {payload bytes : ByteArray}
    (h : protect hook database payload = .ok bytes) :
    unprotect hook database bytes = .ok payload := by
  cases hook with
  | none =>
    obtain rfl := Except.ok.inj h
    rfl
  | some p =>
    rw [protect] at h
    rcases hp : p.protect payload database with reason | output
    · simp only [hp] at h
      exact absurd h (by simp)
    · simp only [hp] at h
      obtain rfl := Except.ok.inj h
      have := (faithful p rfl).unprotect_protect database payload output hp
      simp only [unprotect, this]

theorem size_protect_pos {hook : Option Protector} (faithful : FaithfulHook hook)
    {database : Option String} {payload bytes : ByteArray}
    (h : protect hook database payload = .ok bytes) (hpos : 0 < payload.size) :
    0 < bytes.size := by
  cases hook with
  | none =>
    obtain rfl := Except.ok.inj h
    exact hpos
  | some p =>
    rw [protect] at h
    rcases hp : p.protect payload database with reason | output
    · simp only [hp] at h
      exact absurd h (by simp)
    · simp only [hp] at h
      obtain rfl := Except.ok.inj h
      exact (faithful p rfl).nonempty database payload output hp hpos

theorem readHeader_header {compressed : Bool} {length : Nat} (h : length < payloadLimit)
    (hpos : compressed = true → 0 < length) :
    readHeader (header compressed length) = (compressed, length) := by
  have range : Word.range 4 = 4294967296 := by decide
  have limit : payloadLimit = 2147483648 := by decide
  have size : UInt32.size = 4294967296 := rfl
  cases compressed with
  | false =>
    simp only [header, headerSize, readHeader, Word.ofBytes_bytes, range, Bool.false_eq_true,
      if_false]
    rw [Nat.mod_eq_of_lt (by omega), if_pos h]
  | true =>
    have := hpos rfl
    simp only [header, headerSize, readHeader, Word.ofBytes_bytes, range, if_true, size]
    rw [Nat.mod_eq_of_lt (by omega), if_neg (by omega)]
    congr 1
    omega

/-! ## Chunks -/

/-- What a chunk of records is: a header and a payload that give the records back. -/
structure Holds (hook : Option Protector) (database : Option String)
    (header payload records : ByteArray) : Prop where
  size_header : header.size = headerSize
  size_records : records.size < UInt32.size
  read : ∃ compressed, readHeader header = (compressed, payload.size) ∧
    ∀ path, decode hook database path compressed payload = .ok records

theorem shrink_cases (records : ByteArray) :
    shrink records = (true, Snappy.compress records) ∨ shrink records = (false, records) := by
  rw [shrink]
  split
  · exact .inl rfl
  · exact .inr rfl

/-- A chunk comes out unless the records are too long, the hook refuses them, or the payload is too
    long. -/
theorem encode_cases (hook : Option Protector) (database : Option String) (path : Path)
    (records : ByteArray) :
    (Snappy.tooLong records = true ∧ encode hook database path records =
      .error (.io .compressing path (tooLongToCompress records.size))) ∨
    (∃ e, protect hook database (shrink records).2 = .error e ∧
      encode hook database path records = .error e) ∨
    ∃ payload, protect hook database (shrink records).2 = .ok payload ∧
      ((payloadLimit ≤ payload.size ∧ encode hook database path records =
          .error (.configuration (.chunkTooLong payload.size))) ∨
        (Snappy.tooLong records = false ∧ payload.size < payloadLimit ∧
          encode hook database path records =
            .ok (header (shrink records).1 payload.size, payload))) := by
  rw [encode]
  cases long : Snappy.tooLong records with
  | true => exact .inl ⟨rfl, rfl⟩
  | false =>
    rw [if_neg Bool.false_ne_true]
    rcases shrink records with ⟨compressed, data⟩
    dsimp only
    cases hprotect : protect hook database data with
    | error e => exact .inr (.inl ⟨e, rfl, rfl⟩)
    | ok payload =>
      refine .inr (.inr ⟨payload, rfl, ?_⟩)
      by_cases limit : payloadLimit ≤ payload.size
      · refine .inl ⟨limit, ?_⟩
        show (if payloadLimit ≤ payload.size then _ else _ : Except SortError _) = _
        rw [if_pos limit]
        rfl
      · refine .inr ⟨rfl, Nat.lt_of_not_le limit, ?_⟩
        show (if payloadLimit ≤ payload.size then _ else _ : Except SortError _) = _
        rw [if_neg limit]
        rfl

theorem of_encode_eq_ok {hook : Option Protector} {database : Option String} {path : Path}
    {records head payload : ByteArray}
    (h : encode hook database path records = .ok (head, payload)) :
    Snappy.tooLong records = false ∧ protect hook database (shrink records).2 = .ok payload ∧
      payload.size < payloadLimit ∧ head = header (shrink records).1 payload.size := by
  rcases encode_cases hook database path records with
    ⟨-, fails⟩ | ⟨e, -, fails⟩ | ⟨payload', hprotect, ⟨-, fails⟩ | ⟨short, limit, succeeds⟩⟩
  · cases fails.symm.trans h
  · cases fails.symm.trans h
  · cases fails.symm.trans h
  · obtain ⟨rfl, rfl⟩ := Prod.mk.inj (Except.ok.inj (succeeds.symm.trans h))
    exact ⟨short, hprotect, limit, rfl⟩

/-- Whatever the hook does, a chunk begins with a header. -/
theorem size_head_encode {hook : Option Protector} {database : Option String} {path : Path}
    {records head payload : ByteArray}
    (h : encode hook database path records = .ok (head, payload)) : head.size = headerSize := by
  obtain ⟨-, -, -, rfl⟩ := of_encode_eq_ok h
  exact Word.size_bytes _ _

theorem holds_encode {hook : Option Protector} (faithful : FaithfulHook hook)
    {database : Option String} {path : Path} {records head payload : ByteArray}
    (h : encode hook database path records = .ok (head, payload)) :
    Holds hook database head payload records := by
  obtain ⟨short, hprotect, limit, rfl⟩ := of_encode_eq_ok h
  have size := Snappy.size_lt_of_tooLong short
  -- compressed data is never empty, so its length can be told from the header
  have pos : (shrink records).1 = true → 0 < payload.size := by
    intro compressed
    refine size_protect_pos faithful hprotect ?_
    rcases shrink_cases records with eq | eq <;> rw [eq] at compressed ⊢
    · exact (Snappy.genuine_compress records).size_pos
    · exact absurd compressed Bool.false_ne_true
  refine ⟨Word.size_bytes _ _, size, _, readHeader_header limit pos, fun path => ?_⟩
  rw [decode, unprotect_protect faithful hprotect]
  rcases shrink_cases records with eq | eq <;> rw [eq]
  · simp [expand_compress short, pure, Except.pure, bind, Except.bind]
  · rfl

/-! ## Expansion -/

/-- A buffer that is stored compressed is at most 64/3 times as long as its compressed form, which
    is less than the guard against false lengths allows. So whenever such a buffer was stored, the
    guard lets its compressed form pass, and the buffer is read back from the payload. -/
theorem expands_within_limit {records : ByteArray} (compressed : (shrink records).1 = true) :
    Snappy.Genuine records (shrink records).2 ∧
      3 * records.size ≤ 64 * (shrink records).2.size ∧
      records.size ≤ expansionLimit * (shrink records).2.size ∧
      ∀ hook database path head payload, encode hook database path records = .ok (head, payload) →
        expand (shrink records).2 = .ok records ∧
          (FaithfulHook hook → ∀ path', decode hook database path' true payload = .ok records) := by
  have genuine : Snappy.Genuine records (shrink records).2 := by
    rcases shrink_cases records with eq | eq <;> rw [eq] at compressed ⊢
    · exact Snappy.genuine_compress records
    · exact absurd compressed Bool.false_ne_true
  refine ⟨genuine, genuine.size_le, size_le_of_genuine genuine, ?_⟩
  intro hook database path head payload stored
  obtain ⟨short, hprotect, -, -⟩ := of_encode_eq_ok stored
  have expanded := expand_of_genuine genuine (Snappy.size_lt_of_tooLong short)
  refine ⟨expanded, fun faithful path' => ?_⟩
  rw [decode, unprotect_protect faithful hprotect]
  simp [expanded, pure, Except.pure, bind, Except.bind]

/-- A buffer of zeros. -/
def blanks : ByteArray := (List.replicate 40 0).toByteArray

theorem blanks_expand_within_limit :
    (shrink blanks).1 = true ∧
      Snappy.Genuine blanks (shrink blanks).2 ∧
      3 * blanks.size ≤ 64 * (shrink blanks).2.size ∧
      blanks.size ≤ expansionLimit * (shrink blanks).2.size ∧
      ∀ hook database path head payload, encode hook database path blanks = .ok (head, payload) →
        expand (shrink blanks).2 = .ok blanks ∧
          (FaithfulHook hook → ∀ path', decode hook database path' true payload = .ok blanks) := by
  have compressed : (shrink blanks).1 = true := by decide +kernel
  exact ⟨compressed, expands_within_limit compressed⟩

end Chunk
end ExternalSort
