/-
  ExternalSort.Snappy.Compress

  Compression into Snappy elements.

  A text is cut into blocks of 64 KiB that are compressed on their own. Within a
  block a table, indexed by a hash of four bytes, remembers where such bytes
  were last seen. A remembered position is only a candidate: it becomes a copy
  if the four bytes there are equal (`matchesAt`), and the copy goes on as far
  as the bytes agree. The search strides faster the longer it finds nothing.
-/

import ExternalSort.Snappy.Element

namespace ExternalSort
namespace Snappy

/-- The size of a block. -/
def blockSize : Nat := 65536

/-- Where sequences of four bytes were last seen, by hash. -/
abbrev Table := Array Nat

/-- The number of bits of a hash for a block of `n` bytes. -/
def hashBits (n : Nat) : Nat :=
  if n ≤ 256 then 8 else if n ≤ 512 then 9 else if n ≤ 1024 then 10 else if n ≤ 2048 then 11
  else if n ≤ 4096 then 12 else if n ≤ 8192 then 13 else 14

/-- The four bytes at `i` as a word. -/
def fourBytes (src : ByteArray) (i : Nat) : UInt32 :=
  let byte (k : Nat) : UInt32 := (src[i + k]?.getD 0).toUInt32
  byte 0 ||| byte 1 <<< 8 ||| byte 2 <<< 16 ||| byte 3 <<< 24

/-- The hash of the four bytes at `i`, of the given number of bits. -/
def hashAt (src : ByteArray) (bits i : Nat) : Nat :=
  ((fourBytes src i * 0x1E35A7BD) >>> UInt32.ofNat (32 - bits)).toNat

/-- Whether the four bytes at `s` stand already at the earlier position `candidate`. -/
def matchesAt (src : ByteArray) (s candidate : Nat) : Bool :=
  decide (candidate < s) && decide (s + 4 ≤ src.size) &&
    fourBytes src s == fourBytes src candidate

theorem matchesAt_lt {src : ByteArray} {s c : Nat} (h : matchesAt src s c = true) : c < s := by
  simp only [matchesAt, Bool.and_eq_true, decide_eq_true_eq] at h
  exact h.1.1

theorem matchesAt_le {src : ByteArray} {s c : Nat} (h : matchesAt src s c = true) :
    s + 4 ≤ src.size := by
  simp only [matchesAt, Bool.and_eq_true, decide_eq_true_eq] at h
  exact h.1.2

/-- A place from `start` on whose four bytes were seen before. -/
structure Match (src : ByteArray) (start : Nat) where
  position : Nat
  candidate : Nat
  later : start ≤ position
  found : matchesAt src position candidate = true

/-- Looks for a match from `s` on, up to `limit`. After `idle` wasted probes the stride has grown
    to `(32 + idle) / 32`. -/
def search (src : ByteArray) (bits limit : Nat) (table : Table) (idle s : Nat) :
    Option (Match src s) × Table :=
  let stride := (32 + idle) / 32
  if s + stride > limit then (none, table)
  else
    let h := hashAt src bits s
    let candidate := table.getD h 0
    -- the table learns the place, whether or not it is a match
    let table := table.setIfInBounds h s
    if found : matchesAt src s candidate = true then
      (some ⟨s, candidate, Nat.le_refl s, found⟩, table)
    else
      match search src bits limit table (idle + stride) (s + stride) with
      | (some m, table) =>
        (some ⟨m.position, m.candidate, by have := m.later; omega, m.found⟩, table)
      | (none, table) => (none, table)
termination_by limit + 1 - s
decreasing_by omega

/-- The end of the longest agreement of the bytes from `s` on with those from `c` on. -/
def agreementEnd (src : ByteArray) (c s : Nat) : Nat :=
  if h : c < src.size ∧ s < src.size then
    if src[c] = src[s] then agreementEnd src (c + 1) (s + 1) else s
  else s
termination_by src.size - s
decreasing_by omega

theorem le_agreementEnd (src : ByteArray) (c s : Nat) : s ≤ agreementEnd src c s := by
  fun_induction agreementEnd src c s <;> omega

/-- A long copy in pieces of at most 64 bytes, the last of at least four. -/
def copyPieces (offset : Nat) : (length : Nat) → List Element
  | length =>
    if 68 ≤ length then .copy offset 64 :: copyPieces offset (length - 64)
    else if 64 < length then [.copy offset 60, .copy offset (length - 60)]
    else [.copy offset length]
termination_by length => length

/-- The bytes from `i` to `j` as a literal, or nothing if there are none. -/
def literalPiece (src : ByteArray) (i j : Nat) : List Element :=
  if i < j then [.literal (src.extract i j)] else []

/-- The elements of a block from `emit` on. Bytes before `emit` are covered already; the search
    stands at `s`, and `known` is the candidate when a match at `s` was already seen. -/
def elementsFrom (src : ByteArray) (bits limit : Nat) (table : Table) (emit s : Nat)
    (known : Option { c : Nat // matchesAt src s c = true }) : List Element :=
  match known with
  | none =>
    match search src bits limit table 0 s with
    | (none, _) => literalPiece src emit src.size
    | (some m, table) =>
      literalPiece src emit m.position ++
        elementsFrom src bits limit table m.position m.position (some ⟨m.candidate, m.found⟩)
  | some c =>
    let stop := agreementEnd src (c.1 + 4) (s + 4)
    let copies := copyPieces (s - c.1) (stop - s)
    if stop ≥ limit then copies ++ literalPiece src stop src.size
    else
      let table := table.setIfInBounds (hashAt src bits (stop - 1)) (stop - 1)
      let h := hashAt src bits stop
      let candidate := table.getD h 0
      let table := table.setIfInBounds h stop
      -- a match right behind a copy needs no literal between them
      if found : matchesAt src stop candidate = true then
        copies ++ elementsFrom src bits limit table stop stop (some ⟨candidate, found⟩)
      else copies ++ elementsFrom src bits limit table stop (stop + 1) none
termination_by 2 * (src.size - s) + (if known.isNone then 1 else 0)
decreasing_by
  · have := m.later
    have := matchesAt_le m.found
    simp only [Option.isNone_some, Option.isNone_none, if_true, Bool.false_eq_true, if_false]
    omega
  · have := le_agreementEnd src (c.1 + 4) (s + 4)
    have := matchesAt_le c.2
    simp only [Option.isNone_some, Bool.false_eq_true, if_false]
    omega
  · have := le_agreementEnd src (c.1 + 4) (s + 4)
    have := matchesAt_le c.2
    simp only [Option.isNone_some, Option.isNone_none, if_true, Bool.false_eq_true, if_false]
    omega

/-- The elements of one block. -/
def blockElements (src : ByteArray) : List Element :=
  -- too short to be worth a search
  if src.size < 17 then literalPiece src 0 src.size
  else
    let bits := hashBits src.size
    -- no match is looked for in the last 15 bytes
    elementsFrom src bits (src.size - 15) (Array.replicate (1 <<< bits) 0) 0 1 none

/-- The elements of a text, block by block. -/
def elements (src : ByteArray) : List Element :=
  if _h : src.size = 0 then []
  else blockElements (src.extract 0 blockSize) ++ elements (src.extract blockSize src.size)
termination_by src.size
decreasing_by
  simp only [ByteArray.size_extract, blockSize]
  omega

/-- A length as seven bits a byte, low bits first; every byte but the last has its high bit set. -/
def writeLength (n : Nat) : List UInt8 :=
  if n < 128 then [UInt8.ofNat n] else UInt8.ofNat (n % 128 + 128) :: writeLength (n / 128)
termination_by n

/-- A bound on the size of the stream of a text of `n` bytes. -/
def streamBound (n : Nat) : Nat := 32 + n + n / 6

/-- Texts are refused if their stream might not fit into 32 bits. -/
def tooLong (src : ByteArray) : Bool := UInt32.size ≤ streamBound src.size

/-- The Snappy stream of a text. -/
def compress (src : ByteArray) : ByteArray :=
  (elements src).foldl (fun out e => out ++ e.encode) (writeLength src.size).toByteArray

end Snappy
end ExternalSort
