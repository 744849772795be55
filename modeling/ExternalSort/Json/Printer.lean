/-
  ExternalSort.Json.Printer

  The compact form of a JSON document: no white space, and in strings only the
  escapes that JSON requires, with the short ones where they exist.
-/

import ExternalSort.Json.Basic

namespace ExternalSort
namespace Json

/-- A hexadecimal digit. -/
def hexDigit (n : Nat) : Char := Nat.digitChar n

/-- One character inside a string. -/
def escapeChar (c : Char) : List Char :=
  if c = '"' then ['\\', '"']
  else if c = '\\' then ['\\', '\\']
  else if c = '\n' then ['\\', 'n']
  else if c = '\r' then ['\\', 'r']
  else if c = '\t' then ['\\', 't']
  else if c = '\x08' then ['\\', 'b']
  else if c = '\x0c' then ['\\', 'f']
  else if c.toNat < 32 then ['\\', 'u', '0', '0', hexDigit (c.toNat / 16), hexDigit (c.toNat % 16)]
  else [c]

/-- A string between quotes. -/
def quoted (cs : List Char) : List Char := '"' :: (cs.flatMap escapeChar ++ ['"'])

mutual

/-- The compact form of a document. Numbers that are not natural and strings that are no text have
    no written form of their own; they are shown as `null`. -/
def compact : Json → List Char
  | .null => "null".toList
  | .bool true => "true".toList
  | .bool false => "false".toList
  | .natural n => Nat.toDigits 10 n
  | .otherNumber => "null".toList
  | .string none => "null".toList
  | .string (some cs) => quoted cs
  | .array items => '[' :: compactItems items
  | .object fields => '\x7b' :: compactFields fields

/-- The items of an array with what follows each, up to the closing bracket. -/
def compactItems : List Json → List Char
  | [] => [']']
  | [item] => compact item ++ [']']
  | item :: rest => compact item ++ ',' :: compactItems rest

/-- The fields of an object with what follows each, up to the closing brace. -/
def compactFields : List (Option (List Char) × Json) → List Char
  | [] => ['\x7d']
  | [(name, value)] => quoted (name.getD []) ++ ':' :: (compact value ++ ['\x7d'])
  | (name, value) :: rest =>
    quoted (name.getD []) ++ ':' :: (compact value ++ ',' :: compactFields rest)

end

end Json
end ExternalSort
