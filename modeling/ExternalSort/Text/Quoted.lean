/-
  ExternalSort.Text.Quoted

  Text between double quotes, in one line and in visible characters.

  A quote and a backslash are marked by a backslash, the usual control
  characters have a letter, and every other character that is not printable
  stands as its number in hexadecimal.
-/

import ExternalSort.Text.Printable

namespace ExternalSort

/-- Lowercase hexadecimal digits, at least `width` of them. -/
def hexDigits (width n : Nat) : String :=
  let digits := Nat.toDigits 16 n
  String.ofList (List.replicate (width - digits.length) '0' ++ digits)

/-- The spelling of one character. -/
def quoteChar (c : Char) : String :=
  if c = '"' then "\\\""
  else if c = '\\' then "\\\\"
  else if c = '\t' then "\\t"
  else if c = '\r' then "\\r"
  else if c = '\n' then "\\n"
  else if c = '\x00' then "\\0"
  else if isPrintable c then c.toString
  else "\\u\x7b" ++ hexDigits 0 c.toNat ++ "\x7d"

/-- A text in quotes. -/
def quoteText (text : String) : String :=
  "\"" ++ String.join (text.toList.map quoteChar) ++ "\""

end ExternalSort
