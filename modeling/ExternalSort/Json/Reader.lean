/-
  ExternalSort.Json.Reader

  Reading JSON text.

  The grammar is the strict one: no leading zeros, no plus sign, no trailing
  comma, no control characters inside strings, and nothing but white space
  around the document.
-/

import ExternalSort.Json.Basic

namespace ExternalSort
namespace Json

/-- The white space of JSON. -/
def isSpace (c : Char) : Bool := c == ' ' || c == '\t' || c == '\n' || c == '\r'

/-- Skips white space. -/
def skipSpace (cs : List Char) : List Char := cs.dropWhile isSpace

/-! ## Strings -/

/-- The value of a hexadecimal digit. -/
def hexValue? (c : Char) : Option Nat :=
  if '0' ≤ c ∧ c ≤ '9' then some (c.toNat - 48)
  else if 'a' ≤ c ∧ c ≤ 'f' then some (c.toNat - 87)
  else if 'A' ≤ c ∧ c ≤ 'F' then some (c.toNat - 55)
  else none

/-- The value of four hexadecimal digits. -/
def hexUnit? (a b c d : Char) : Option Nat := do
  return (((← hexValue? a) * 16 + (← hexValue? b)) * 16 + (← hexValue? c)) * 16 + (← hexValue? d)

/-- A piece of a string: a character, or a number of sixteen bits written in hexadecimal. -/
inductive Piece
  | char (c : Char)
  | unit (n : Nat)

/-- The character that a letter after a backslash stands for. -/
def escaped? (c : Char) : Option Char :=
  if c = '"' ∨ c = '\\' ∨ c = '/' then some c
  else if c = 'b' then some '\x08'
  else if c = 'f' then some '\x0c'
  else if c = 'n' then some '\n'
  else if c = 'r' then some '\r'
  else if c = 't' then some '\t'
  else none

/-- The pieces of a string up to its closing quote, and the rest of the input. -/
def pieces? : List Char → Option (List Piece × List Char)
  | [] => none
  | '"' :: rest => some ([], rest)
  | '\\' :: 'u' :: a :: b :: c :: d :: rest => do
    let unit ← hexUnit? a b c d
    let (more, rest) ← pieces? rest
    return (.unit unit :: more, rest)
  | '\\' :: e :: rest => do
    let c ← escaped? e
    let (more, rest) ← pieces? rest
    return (.char c :: more, rest)
  | c :: rest => do
    if c.toNat < 32 ∨ c = '\\' then none
    let (more, rest) ← pieces? rest
    return (.char c :: more, rest)

/-- The text of the pieces, if each half of a surrogate pair stands beside its other half. -/
def assemble? : List Piece → Option (List Char)
  | [] => some []
  | .char c :: rest => (assemble? rest).map (c :: ·)
  | .unit high :: .unit low :: rest =>
    -- a high half needs the low half behind it
    if 0xD800 ≤ high ∧ high < 0xDC00 then
      if 0xDC00 ≤ low ∧ low < 0xE000 then
        (assemble? rest).map (Char.ofNat (0x10000 + (high - 0xD800) * 0x400 + (low - 0xDC00)) :: ·)
      else none
    else if 0xDC00 ≤ high ∧ high < 0xE000 then none
    else (assemble? (.unit low :: rest)).map (Char.ofNat high :: ·)
  | .unit n :: rest =>
    if 0xD800 ≤ n ∧ n < 0xE000 then none else (assemble? rest).map (Char.ofNat n :: ·)

/-- A string after its opening quote: its text, or none if it is no text. -/
def stringTail? (cs : List Char) : Option (Option (List Char) × List Char) := do
  let (pieces, rest) ← pieces? cs
  return (assemble? pieces, rest)

/-! ## Numbers -/

/-- Splits off the leading decimal digits. -/
def digitsOf (cs : List Char) : List Char × List Char :=
  (cs.takeWhile Char.isDigit, cs.dropWhile Char.isDigit)

/-- The value of decimal digits. -/
def digitsValue (ds : List Char) : Nat := ds.foldl (fun n d => n * 10 + (d.toNat - 48)) 0

/-- The integer part of a number: one zero, or digits that do not begin with zero. -/
def integerPart? (cs : List Char) : Option (List Char × List Char) :=
  match cs with
  | '0' :: rest => if (digitsOf rest).1.isEmpty then some (['0'], rest) else none
  | _ => let (ds, rest) := digitsOf cs
         if ds.isEmpty then none else some (ds, rest)

/-- An optional fraction; tells whether there was one. -/
def fraction? : List Char → Option (Bool × List Char)
  | '.' :: cs => let (ds, rest) := digitsOf cs
                 if ds.isEmpty then none else some (true, rest)
  | cs => some (false, cs)

/-- The sign of an exponent is skipped. -/
def skipSign : List Char → List Char
  | '+' :: cs => cs
  | '-' :: cs => cs
  | cs => cs

/-- An optional exponent; tells whether there was one. -/
def exponent? : List Char → Option (Bool × List Char)
  | e :: cs =>
    if e = 'e' ∨ e = 'E' then
      let (ds, rest) := digitsOf (skipSign cs)
      if ds.isEmpty then none else some (true, rest)
    else some (false, e :: cs)
  | [] => some (false, [])

/-- A number without its sign. -/
def unsigned? (cs : List Char) : Option (Json × List Char) := do
  let (ds, rest) ← integerPart? cs
  let (fractional, rest) ← fraction? rest
  let (scaled, rest) ← exponent? rest
  return (if fractional ∨ scaled then .otherNumber else .natural (digitsValue ds), rest)

/-! ## Documents -/

/-- Drops a word that the input must begin with. -/
def word? : (word : List Char) → List Char → Option (List Char)
  | [], cs => some cs
  | w :: word, c :: cs => if w = c then word? word cs else none
  | _ :: _, [] => none

mutual

/-- A value after optional white space. -/
def value? : (fuel : Nat) → List Char → Option (Json × List Char)
  | 0, _ => none
  | fuel + 1, cs =>
    match skipSpace cs with
    | [] => none
    | c :: rest =>
      if c = '"' then (stringTail? rest).map fun (text, rest) => (.string text, rest)
      else if c = '[' then
        match skipSpace rest with
        | ']' :: rest => some (.array [], rest)
        | rest => (items? fuel rest).map fun (items, rest) => (.array items, rest)
      else if c = '\x7b' then
        match skipSpace rest with
        | '\x7d' :: rest => some (.object [], rest)
        | rest => (fields? fuel rest).map fun (fields, rest) => (.object fields, rest)
      else if c = 't' then (word? "rue".toList rest).map (.bool true, ·)
      else if c = 'f' then (word? "alse".toList rest).map (.bool false, ·)
      else if c = 'n' then (word? "ull".toList rest).map (.null, ·)
      else if c = '-' then (unsigned? rest).map fun (_, rest) => (.otherNumber, rest)
      else unsigned? (c :: rest)

/-- The items of a nonempty array, with the closing bracket. -/
def items? : (fuel : Nat) → List Char → Option (List Json × List Char)
  | 0, _ => none
  | fuel + 1, cs => do
    let (item, rest) ← value? fuel cs
    match skipSpace rest with
    | ',' :: rest => (items? fuel rest).map fun (items, rest) => (item :: items, rest)
    | ']' :: rest => some ([item], rest)
    | _ => none

/-- The fields of a nonempty object, with the closing brace. -/
def fields? : (fuel : Nat) → List Char → Option (List (Option (List Char) × Json) × List Char)
  | 0, _ => none
  | fuel + 1, cs => do
    let rest ← word? ['"'] (skipSpace cs)
    let (name, rest) ← stringTail? rest
    let rest ← word? [':'] (skipSpace rest)
    let (value, rest) ← value? fuel rest
    match skipSpace rest with
    | ',' :: rest => (fields? fuel rest).map fun (fields, rest) => ((name, value) :: fields, rest)
    | '\x7d' :: rest => some ([(name, value)], rest)
    | _ => none

end

/-- Reads a document. -/
def read? (cs : List Char) : Option Json := do
  -- every value and every item takes a character at least
  let (json, rest) ← value? (2 * cs.length + 1) cs
  if skipSpace rest = [] then return json else none

end Json
end ExternalSort
