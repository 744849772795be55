/-
  ExternalSort.Options.Text

  Options as text: a JSON record, in which every field may be left out, and a
  line for debugging. The protection hook has no JSON form; the line only tells
  whether there is one.
-/

import ExternalSort.Json.Printer
import ExternalSort.Json.Reader
import ExternalSort.Options.Basic

namespace ExternalSort
namespace Options

/-- The names of the fields, in order. -/
def fieldNames : List String :=
  ["limit", "max_memory_usage_bytes", "ext_sort_allowed", "temp_dir", "db_name",
    "move_sorted_data_into_iterator", "verify_comparator"]

/-- Reads a field that keeps its default when it is left out. -/
def orDefault {α : Type} (read : Json → Option α) (default : α) : Option Json → Option α
  | none => some default
  | some json => read json

/-- A machine word. -/
def word? (json : Json) : Option UInt64 := (json.naturalBelow? UInt64.size).map UInt64.ofNat

/-- Options from a JSON document. -/
def ofJson? (json : Json) : Option Options := do
  match ← json.recordFields? fieldNames with
  | [limit, budget, spill, directory, database, move, verify] =>
    let o : Options := {}
    return {
      limit := ← orDefault word? o.limit limit
      memoryBudget := ← orDefault word? o.memoryBudget budget
      spillAllowed := ← orDefault Json.bool? o.spillAllowed spill
      spillDirectory := (← orDefault Json.optionalText? none directory).map Path.mk
      database := ← orDefault Json.optionalText? none database
      moveResults := ← orDefault Json.bool? o.moveResults move
      verifyOrder := ← orDefault Json.bool? o.verifyOrder verify }
  | _ => none

/-- Options from JSON text. -/
def ofJsonText? (text : String) : Option Options := do
  ofJson? (← Json.read? text.toList)

/-- A text, or `null` for none. -/
def textOrNull : Option String → Json
  | some text => Json.text text
  | none => .null

/-- The JSON record of options. -/
def toJson (o : Options) : Json :=
  Json.record
    [("limit", .natural o.limit.toNat),
     ("max_memory_usage_bytes", .natural o.memoryBudget.toNat),
     ("ext_sort_allowed", .bool o.spillAllowed),
     ("temp_dir", textOrNull (o.spillDirectory.map (·.text))),
     ("db_name", textOrNull o.database),
     ("move_sorted_data_into_iterator", .bool o.moveResults),
     ("verify_comparator", .bool o.verifyOrder)]

/-- The compact JSON text of options. -/
def jsonText (o : Options) : String := String.ofList o.toJson.compact

/-- An optional value, marked as such. -/
def optionText : Option String → String
  | some text => "Some(" ++ text ++ ")"
  | none => "None"

/-- A truth value. -/
def boolText (b : Bool) : String := if b then "true" else "false"

/-- Options in one line. In a path an apostrophe is marked, in a name it is not. -/
def debugText (o : Options) : String :=
  let fields :=
    [("limit", Nat.repr o.limit.toNat),
     ("max_memory_usage_bytes", Nat.repr o.memoryBudget.toNat),
     ("ext_sort_allowed", boolText o.spillAllowed),
     ("temp_dir", optionText (o.spillDirectory.map fun p => quoteText p.text)),
     ("db_name", optionText (o.database.map quoteText)),
     ("move_sorted_data_into_iterator", boolText o.moveResults),
     ("verify_comparator", boolText o.verifyOrder),
     ("protector", boolText o.protector.isSome)]
  "SortOptions \x7b " ++ ", ".intercalate (fields.map fun (name, value) => name ++ ": " ++ value) ++
    " \x7d"

end Options
end ExternalSort
