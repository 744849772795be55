/-
  ExternalSort.Snappy.Element

  The elements of a Snappy stream and their byte forms.

  A stream is the length of the text it stands for, followed by elements: a
  literal gives bytes, a copy repeats bytes that stand `offset` places back. An
  element has one written form here (`encode`) and several readable ones
  (`read`).
-/

import ExternalSort.Bytes.Word

namespace ExternalSort
namespace Snappy

/-- One instruction of a stream. -/
inductive Element
  | literal (bytes : ByteArray)
  | copy (offset length : Nat)

namespace Element

/-- The number of bytes an element stands for. -/
def size : Element → Nat
  | .literal bytes => bytes.size
  | .copy _ length => length

/-! ## Writing -/

/-- The tag of a literal of `length` bytes, with its length bytes. -/
def literalTag (length : Nat) : List UInt8 :=
  let n := length - 1
  if n ≤ 59 then [UInt8.ofNat (n * 4)]
  else if n < 256 then [240, UInt8.ofNat n]
  else 244 :: Word.encode 2 n

/-- A copy in its shortest form. -/
def copyTag (offset length : Nat) : List UInt8 :=
  if length ≤ 11 ∧ offset ≤ 2047 then
    [UInt8.ofNat (offset / 256 * 32 + (length - 4) * 4 + 1), UInt8.ofNat offset]
  else UInt8.ofNat ((length - 1) * 4 + 2) :: Word.encode 2 offset

/-- The written form of an element. -/
def encode : Element → ByteArray
  | .literal bytes => (literalTag bytes.size).toByteArray ++ bytes
  | .copy offset length => (copyTag offset length).toByteArray

/-! ## Reading -/

/-- The little-endian word of `width` bytes at `pos`, if the input holds it. -/
def wordAt? (input : ByteArray) (pos width : Nat) : Option Nat :=
  if pos + width ≤ input.size then some (Word.ofBytes (input.extract pos (pos + width))) else none

/-- A literal of `length` bytes at `pos`, with the position after it. -/
def literalAt? (input : ByteArray) (pos length : Nat) : Option (Element × Nat) :=
  if pos + length ≤ input.size then
    some (.literal (input.extract pos (pos + length)), pos + length)
  else none

/-- Reads the element whose tag stands at `pos`, with the position after it. A literal may have
    its length in one to four bytes behind the tag, also a length that the tag could hold. -/
def read? (input : ByteArray) (pos : Nat) : Option (Element × Nat) := do
  let tag ← wordAt? input pos 1
  let high := tag / 4
  match tag % 4 with
  | 0 =>
    -- a short length stands in the tag itself
    if high < 60 then literalAt? input (pos + 1) (high + 1)
    else
      let width := high - 59
      let word ← wordAt? input (pos + 1) width
      literalAt? input (pos + 1 + width) (word + 1)
  | 1 =>
    let low ← wordAt? input (pos + 1) 1
    return (.copy (high / 8 * 256 + low) (high % 8 + 4), pos + 2)
  | 2 =>
    let offset ← wordAt? input (pos + 1) 2
    return (.copy offset (high + 1), pos + 3)
  | _ =>
    let offset ← wordAt? input (pos + 1) 4
    return (.copy offset (high + 1), pos + 5)

/-! ## Meaning -/

/-- Appends `length` bytes to `out`, each the one `offset` places back. -/
def repeatBack (offset : Nat) : (length : Nat) → (out : ByteArray) → ByteArray
  | 0, out => out
  | length + 1, out => repeatBack offset length (out.push (out[out.size - offset]?.getD 0))

/-- Appends what an element stands for; a copy must stay inside what is there. -/
def expand? (out : ByteArray) : Element → Option ByteArray
  | .literal bytes => some (out ++ bytes)
  | .copy offset length =>
    if 0 < offset ∧ offset ≤ out.size then some (repeatBack offset length out) else none

end Element
end Snappy
end ExternalSort
