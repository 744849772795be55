/-
  ExternalSort.Text.Decimal

  Unsigned decimal numbers of one machine word: an optional plus sign and one
  or more ASCII digits, with a value below a bound.

  The faults are told apart as a reader of the message expects: nothing at all,
  a character that is no digit (a lone sign too), or a value that does not fit.
  The first non-digit is looked for in the digits up to the point where the
  value no longer fits, so "too large" wins over a later stray character.
-/

namespace ExternalSort
namespace Decimal

/-- Why a text is no number. -/
inductive Fault
  | empty
  | invalidDigit
  | tooLarge
deriving DecidableEq, Repr

/-- The wording of a fault. -/
def Fault.message : Fault → String
  | .empty => "cannot parse integer from empty string"
  | .invalidDigit => "invalid digit found in string"
  | .tooLarge => "number too large to fit in target type"

/-- The value of an ASCII digit. -/
def digit? (c : Char) : Option Nat :=
  if '0' ≤ c ∧ c ≤ '9' then some (c.toNat - 48) else none

/-- Reads digits onto the value `acc`, keeping it below `bound`. -/
def readDigits (bound : Nat) : (acc : Nat) → List Char → Except Fault Nat
  | acc, [] => .ok acc
  | acc, c :: rest =>
    match digit? c with
    | none => .error .invalidDigit
    | some d => if acc * 10 + d < bound then readDigits bound (acc * 10 + d) rest
                else .error .tooLarge

/-- Reads an unsigned number below `bound`. -/
def read (bound : Nat) : List Char → Except Fault Nat
  | [] => .error .empty
  | [c] => if c = '+' then .error .invalidDigit else readDigits bound 0 [c]
  | c :: rest => if c = '+' then readDigits bound 0 rest else readDigits bound 0 (c :: rest)

end Decimal
end ExternalSort
