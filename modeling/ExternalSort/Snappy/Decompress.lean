/-
  ExternalSort.Snappy.Decompress

  The text that a Snappy stream stands for.

  The length in front of the stream is believed only as an upper bound while
  elements are expanded, and must be met exactly at the end.
-/

import ExternalSort.Snappy.Element

namespace ExternalSort
namespace Snappy

/-- The longest length header in bytes; five hold every word of 32 bits. -/
def lengthLimit : Nat := 5

/-- Reads a variable-length number of seven bits a byte, low bits first, with the position after
    it. At most `fuel` bytes are read. -/
def readLength? (input : ByteArray) : (fuel pos : Nat) → Option (Nat × Nat)
  | 0, _ => none
  | fuel + 1, pos =>
    if h : pos < input.size then
      let b := input[pos].toNat
      if b < 128 then some (b, pos + 1)
      else do
        let (high, next) ← readLength? input fuel (pos + 1)
        return (b % 128 + 128 * high, next)
    else none

/-- The length header of a stream: the claimed length and where the elements begin. -/
def header? (input : ByteArray) : Option (Nat × Nat) := do
  let (length, pos) ← readLength? input lengthLimit 0
  if length < UInt32.size then return (length, pos) else none

/-- The length that a stream claims for its text; the empty stream claims nothing. -/
def claimedLength? (input : ByteArray) : Option Nat :=
  if input.isEmpty then some 0 else (header? input).map (·.1)

/-- Expands the elements from `pos` on, for a text of at most `bound` bytes; `fuel` bounds their
    number. -/
def expandFrom? (input : ByteArray) (bound : Nat) :
    (fuel pos : Nat) → (out : ByteArray) → Option ByteArray
  | 0, _, _ => none
  | fuel + 1, pos, out =>
    if pos < input.size then do
      let (element, next) ← Element.read? input pos
      if bound < out.size + element.size then none
      else expandFrom? input bound fuel next (← element.expand? out)
    else some out

/-- The text of a stream, if it is a valid stream. -/
def decompress? (input : ByteArray) : Option ByteArray := do
  let (length, pos) ← header? input
  let text ← expandFrom? input length (input.size + 1) pos ByteArray.empty
  if text.size = length then return text else none

end Snappy
end ExternalSort
