/-
  ExternalSort.CommandLine.LineKey

  Keys that stand on lines: unsigned numbers, or the bytes of the line.

  A line ends at a newline or at the end of the input; the newline does not
  belong to it. Every key is written back as one line.
-/

import ExternalSort.Bytes.Lexicographic
import ExternalSort.Record.Storable
import ExternalSort.Text.Blank
import ExternalSort.Text.Decimal

namespace ExternalSort

/-- Why a line is no key. -/
inductive LineFault
  | notText (fault : Utf8.Fault)
  /-- The text of the line, without the white space around it, is no number. -/
  | notNumber (text : String) (fault : Decimal.Fault)
deriving DecidableEq, Repr

/-- The wording of a fault. -/
def LineFault.message : LineFault → String
  | .notText fault => fault.message
  | .notNumber text fault => "'" ++ text ++ "' is not an unsigned integer: " ++ fault.message

/-- A type of keys that are read from lines and written to lines. -/
class LineKey (α : Type) where
  /-- The key on a line. -/
  parse : ByteArray → Except LineFault α
  /-- The line of a key, with its newline. -/
  line : α → ByteArray
  /-- The natural order of keys. -/
  compare : α → α → Ordering

namespace LineKey

/-- The newline. -/
def newline : UInt8 := 10

instance : LineKey UInt64 where
  parse bytes :=
    match Utf8.decode bytes with
    | .error fault => .error (.notText fault)
    | .ok text =>
      let digits := trimBlanks text.toList
      match Decimal.read UInt64.size digits with
      | .ok n => .ok (UInt64.ofNat n)
      | .error fault => .error (.notNumber (String.ofList digits) fault)
  line n := (Nat.repr n.toNat).toUTF8.push newline
  compare a b := Ord.compare a.toNat b.toNat

instance : LineKey ByteArray where
  parse bytes := .ok bytes
  line bytes := bytes.push newline
  compare := compareBytes

/-- The lines of an input of which those before `start` were split off already; the bytes from
    `start` to before `i` hold no newline. -/
def linesFrom (input : ByteArray) (start i : Nat) : List ByteArray :=
  if h : i < input.size then
    if input[i] = newline then input.extract start i :: linesFrom input (i + 1) (i + 1)
    else linesFrom input start (i + 1)
  else if start < input.size then [input.extract start input.size]
  else []
termination_by input.size - i

/-- The lines of an input. -/
def lines (input : ByteArray) : List ByteArray := linesFrom input 0 0

end LineKey
end ExternalSort
