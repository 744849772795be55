/-
  ExternalSort.Manifest

  Where sorted runs live on disk: the extent of a run, and the manifest of a
  spill file, from which an unbounded sort can be resumed.

  A manifest is written as a JSON record and read back (`ofJsonText`). Its
  extents are good if each begins at or behind the end of the one before and
  none is inverted (`checkExtents`).
-/

import ExternalSort.Error
import ExternalSort.Json.Printer
import ExternalSort.Json.Reader

namespace ExternalSort

/-! ## Extents -/

/-- The bytes from `start` to before `stop` of a file, and the checksum of the records there. -/
structure Extent where
  start : UInt64
  stop : UInt64
  checksum : UInt32
deriving DecidableEq, Repr, Inhabited

namespace Extent

/-- The number of bytes; an inverted extent has none to tell. -/
def length (e : Extent) : Except Misuse UInt64 :=
  if e.start ≤ e.stop then .ok (e.stop - e.start) else .error .invertedLength

/-- Whether the extent has no bytes. -/
def isEmpty (e : Extent) : Bool := e.start == e.stop

/-- The JSON record of an extent. -/
def toJson (e : Extent) : Json :=
  Json.record [("start_offset", .natural e.start.toNat), ("end_offset", .natural e.stop.toNat),
    ("checksum", .natural e.checksum.toNat)]

/-- An extent from a JSON document. -/
def ofJson? (json : Json) : Option Extent := do
  match ← json.recordFields? ["start_offset", "end_offset", "checksum"] with
  | [some start, some stop, some checksum] =>
    let start ← start.naturalBelow? UInt64.size
    let stop ← stop.naturalBelow? UInt64.size
    let checksum ← checksum.naturalBelow? UInt32.size
    return ⟨UInt64.ofNat start, UInt64.ofNat stop, UInt32.ofNat checksum⟩
  | _ => none

end Extent

/-! ## Manifests -/

/-- The runs of a spill file, in the order in which they were written. -/
structure Manifest where
  fileName : String := ""
  extents : List Extent := []
deriving DecidableEq, Repr, Inhabited

namespace Manifest

/-- The JSON record of a manifest. -/
def toJson (m : Manifest) : Json :=
  Json.record [("file_name", .text m.fileName), ("ranges", .array (m.extents.map Extent.toJson))]

/-- The compact JSON text of a manifest. -/
def jsonText (m : Manifest) : String := String.ofList m.toJson.compact

/-- A manifest from a JSON document. -/
def ofJson? (json : Json) : Option Manifest := do
  match ← json.recordFields? ["file_name", "ranges"] with
  | [some name, some (.array extents)] =>
    return ⟨← name.text?, ← extents.mapM Extent.ofJson?⟩
  | _ => none

/-- A manifest from JSON text. -/
def ofJsonText (text : String) : Except SortError Manifest :=
  match (Json.read? text.toList).bind ofJson? with
  | some m => .ok m
  | none => .error (.missingResumableState ⟨""⟩ .undecodable)

/-- The first extent that is inverted or begins before `last`, where the extents before it end. -/
def misplaced? (last : UInt64) : List Extent → Option Extent
  | [] => none
  | e :: rest => if e.stop < e.start ∨ e.start < last then some e else misplaced? e.stop rest

/-- Extents must be ordered and must not overlap. -/
def checkExtents (m : Manifest) : Except SortError Unit :=
  match misplaced? 0 m.extents with
  | some e => .error (.missingResumableState ⟨m.fileName⟩ (.badRange e.start e.stop))
  | none => .ok ()

end Manifest
end ExternalSort
