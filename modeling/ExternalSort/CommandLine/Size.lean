/-
  ExternalSort.CommandLine.Size

  Sizes on the command line: a number of bytes, or of binary kilo-, mega- or
  gigabytes with the letter K, M or G behind it.
-/

import ExternalSort.Text.Blank
import ExternalSort.Text.Decimal

namespace ExternalSort
namespace Size

/-- Why a text is no size. The text is kept without the white space around it. -/
inductive Fault
  | invalid (text : String) (fault : Decimal.Fault)
  | tooLarge (text : String)
deriving DecidableEq, Repr

/-- The wording of a fault. -/
def Fault.message : Fault → String
  | .invalid text fault => "invalid size '" ++ text ++ "': " ++ fault.message
  | .tooLarge text => "size '" ++ text ++ "' is too large"

/-- The factor that a last letter stands for. -/
def factor? (c : Char) : Option Nat :=
  if c = 'k' ∨ c = 'K' then some 1024
  else if c = 'm' ∨ c = 'M' then some (1024 * 1024)
  else if c = 'g' ∨ c = 'G' then some (1024 * 1024 * 1024)
  else none

/-- The digits of a size and the factor behind them. -/
def splitFactor (text : List Char) : List Char × Nat :=
  match text.getLast?.bind factor? with
  | some factor => (text.dropLast, factor)
  | none => (text, 1)

/-- Reads a size. -/
def read (text : String) : Except Fault UInt64 :=
  let trimmed := trimBlanks text.toList
  let (digits, factor) := splitFactor trimmed
  match Decimal.read UInt64.size digits with
  | .error fault => .error (.invalid (String.ofList trimmed) fault)
  | .ok n =>
    if n * factor < UInt64.size then .ok (UInt64.ofNat (n * factor))
    else .error (.tooLarge (String.ofList trimmed))

end Size
end ExternalSort
