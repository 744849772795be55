/-
  ExternalSort.Record.Cursor

  A forward-only cursor over a decoded chunk.

  A read past the end is a fault and moves nothing: the length in front of the
  chunk said there was more than the record found. A fault inside a record
  leaves the cursor where the part that was read ends. Faults tell positions
  relative to where the record began.
-/

import ExternalSort.Bytes.Word
import ExternalSort.Text.Utf8

namespace ExternalSort

/-- A position in a byte string. -/
structure Cursor where
  bytes : ByteArray
  position : Nat := 0
  /-- Where the record began. -/
  origin : Nat := 0

/-- Why a record could not be read. -/
inductive ReadFault
  /-- `needed` bytes were asked for at `offset`, and only `left` are there. -/
  | short (needed offset left : Nat)
  /-- The bytes of a text are not UTF-8. -/
  | badText (fault : Utf8.Fault)
deriving DecidableEq, Repr

/-- The wording of a fault. -/
def ReadFault.message : ReadFault → String
  | .short needed offset left =>
    s!"record needs {needed} bytes at offset {offset}, only {left} left"
  | .badText fault => "invalid utf-8 in record: " ++ fault.message

/-- A reader moves a cursor, and keeps what it moved when it fails. -/
abbrev Reader := ExceptT ReadFault (StateM Cursor)

namespace Cursor

/-- The number of bytes not yet read. -/
def remaining (c : Cursor) : Nat := c.bytes.size - c.position

/-- The position within the record. -/
def offset (c : Cursor) : Nat := c.position - c.origin

/-- Whether every byte was read. -/
def atEnd (c : Cursor) : Bool := c.bytes.size ≤ c.position

end Cursor

namespace Reader

/-- The next `n` bytes. -/
def take (n : Nat) : Reader ByteArray := do
  let c ← get
  if c.remaining < n then throw (.short n c.offset c.remaining)
  set { c with position := c.position + n }
  return c.bytes.extract c.position (c.position + n)

/-- The little-endian word of the next `width` bytes. -/
def word (width : Nat) : Reader Nat := do
  return Word.ofBytes (← take width)

/-- A byte string behind its length in four bytes. -/
def counted : Reader ByteArray := do
  take (← word 4)

/-- A counted text. -/
def text : Reader String := do
  match Utf8.decode (← counted) with
  | .ok text => return text
  | .error fault => throw (.badText fault)

/-- Runs a reader on a cursor: the result, and where the cursor stands then. -/
def runOn {α : Type} (r : Reader α) (c : Cursor) : Except ReadFault α × Cursor := r.run.run c

end Reader
end ExternalSort
