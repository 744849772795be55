/-
  ExternalSort.Json.Basic

  JSON documents, as far as records of settings and of runs need them.

  Natural numbers are exact and any other number is only known to be one. A
  string may escape half of a surrogate pair: it is then good JSON but no text
  (`string none`). An object keeps its fields in order, repetitions included.

  `recordFields?` reads a record with declared fields from an object (fields
  that are not declared are ignored, a repeated one is refused) or from an
  array of the values in the declared order.
-/

namespace ExternalSort

/-- A JSON document. -/
inductive Json
  | null
  | bool (value : Bool)
  | natural (value : Nat)
  | otherNumber
  | string (text : Option (List Char))
  | array (items : List Json)
  | object (fields : List (Option (List Char) × Json))

namespace Json

/-- A string that is text. -/
def text (s : String) : Json := .string (some s.toList)

/-- An object with the given fields. -/
def record (fields : List (String × Json)) : Json :=
  .object (fields.map fun (name, value) => (some name.toList, value))

/-! ## Reading records -/

/-- The value given for one declared field: absent, present, or refused because repeated. -/
def field? (name : String) (fields : List (Option (List Char) × Json)) : Option (Option Json) :=
  match fields.filter (·.1 == some name.toList) with
  | [] => some none
  | [(_, value)] => some (some value)
  | _ => none

/-- The values given for the declared fields, in their order. -/
def recordFields? (names : List String) : Json → Option (List (Option Json))
  | .object fields =>
    if fields.any (·.1.isNone) then none else names.mapM (field? · fields)
  | .array items =>
    if items.length ≤ names.length then
      some (items.map some ++ List.replicate (names.length - items.length) none)
    else none
  | _ => none

/-- A natural number below a bound. -/
def naturalBelow? (bound : Nat) : Json → Option Nat
  | .natural n => if n < bound then some n else none
  | _ => none

/-- A truth value. -/
def bool? : Json → Option Bool
  | .bool b => some b
  | _ => none

/-- A text. -/
def text? : Json → Option String
  | .string (some cs) => some (String.ofList cs)
  | _ => none

/-- A text, or `null` for none. -/
def optionalText? : Json → Option (Option String)
  | .null => some none
  | json => (json.text?).map some

end Json
end ExternalSort
