/-
  ExternalSort.Text.Utf8

  Where a byte string stops being UTF-8.

  A sequence is described by its lead byte: how many continuation bytes follow,
  and which values the first of them may take (this excludes overlong forms,
  surrogates and values above U+10FFFF). `firstFault` scans for the first
  sequence that is no such thing and says how many of its bytes were good, or
  that the input ended inside a sequence that was good so far.
-/

namespace ExternalSort
namespace Utf8

/-- Why a byte string is not UTF-8. -/
inductive Fault
  /-- The `length` bytes from `index` on are the longest beginning of a sequence that cannot be
      continued by the byte after them. -/
  | invalid (length index : Nat)
  /-- The input ends inside the sequence that begins at `index`. -/
  | incomplete (index : Nat)
deriving DecidableEq, Repr

/-- The wording of a fault. -/
def Fault.message : Fault → String
  | .invalid length index => s!"invalid utf-8 sequence of {length} bytes from index {index}"
  | .incomplete index => s!"incomplete utf-8 byte sequence from index {index}"

/-- For a lead byte: the number of continuation bytes, and the bounds of the first of them. -/
def leadByte (b : UInt8) : Option (Nat × UInt8 × UInt8) :=
  if b < 0x80 then some (0, 0, 0)
  else if b < 0xC2 then none
  else if b < 0xE0 then some (1, 0x80, 0xBF)
  else if b = 0xE0 then some (2, 0xA0, 0xBF)
  else if b = 0xED then some (2, 0x80, 0x9F)
  else if b < 0xF0 then some (2, 0x80, 0xBF)
  else if b = 0xF0 then some (3, 0x90, 0xBF)
  else if b < 0xF4 then some (3, 0x80, 0xBF)
  else if b = 0xF4 then some (3, 0x80, 0x8F)
  else none

/-- What stands at the head of a byte string. -/
inductive Sequence
  /-- A whole sequence of `length` bytes. -/
  | whole (length : Nat)
  /-- `good` bytes that no sequence continues as the input does. -/
  | broken (good : Nat)
  /-- The input ends inside the sequence. -/
  | cut

/-- Follows the continuation bytes of a sequence of which `good` bytes were read; `low` and `high`
    bound the next one, and the later ones have the plain bounds. -/
def continuation (low high : UInt8) (good : Nat) : (missing : Nat) → List UInt8 → Sequence
  | 0, _ => .whole good
  | _ + 1, [] => .cut
  | missing + 1, b :: rest =>
    if low ≤ b ∧ b ≤ high then continuation 0x80 0xBF (good + 1) missing rest else .broken good

/-- The sequence at the head of a nonempty byte string. -/
def headSequence (b : UInt8) (rest : List UInt8) : Sequence :=
  match leadByte b with
  | none => .broken 1
  | some (missing, low, high) => continuation low high 1 missing rest

/-- The first fault of `bytes`, whose first byte has position `index`; `fuel` bounds the number of
    sequences. -/
def firstFaultFrom : (fuel index : Nat) → List UInt8 → Option Fault
  | 0, _, _ => none
  | _ + 1, _, [] => none
  | fuel + 1, index, b :: rest =>
    match headSequence b rest with
    | .broken good => some (.invalid good index)
    | .cut => some (.incomplete index)
    | .whole length => firstFaultFrom fuel (index + length) (rest.drop (length - 1))

/-- The first fault of a byte string, if it has one. -/
def firstFault (bytes : ByteArray) : Option Fault :=
  firstFaultFrom bytes.size 0 bytes.data.toList

/-- Decodes UTF-8, or says where it fails. The scan for the fault runs on rejected input only. -/
def decode (bytes : ByteArray) : Except Fault String :=
  match String.fromUTF8? bytes with
  | some text => .ok text
  | none => .error ((firstFault bytes).getD (.incomplete 0))

/-- Encoded text decodes to itself. -/
theorem decode_toUTF8 (text : String) : decode text.toUTF8 = .ok text := by
  have valid : String.fromUTF8? text.toUTF8 = some text := by
    have h : text.toUTF8.IsValidUTF8 := text.isValidUTF8
    rw [String.fromUTF8?, dif_pos h]
    rfl
  simp only [decode, valid]

end Utf8
end ExternalSort
