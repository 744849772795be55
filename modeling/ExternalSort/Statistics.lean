/-
  ExternalSort.Statistics

  What a sorter has done so far, and the report of it.

  The report tells the size of the data in megabytes and, once something was
  spilled, how large the spilled bytes are in proportion to the data.
-/

import ExternalSort.Spill.Counters
import ExternalSort.Text.Fixed

namespace ExternalSort

/-- Statistics about a sort. -/
structure Statistics where
  /-- Attempts to spill, and runs taken over from a manifest. -/
  spills : Nat := 0
  sorted : Nat := 0
  /-- The footprint of the records accepted. -/
  dataSize : Nat := 0
  io : Option IoCounters := none
deriving DecidableEq, Repr, Inhabited

namespace Statistics

/-- The proportion of spilled bytes to data, if both are known and not zero. -/
def ratioLine (dataSize : Nat) (io : IoCounters) : String :=
  if 0 < dataSize ∧ 0 < io.writeBytes then
    "  Spill size ratio: " ++ (Fixed.quotient io.writeBytes.toNat dataSize).twoPlaces ++ "x\n"
  else ""

/-- The report, in lines. -/
def report (s : Statistics) : String :=
  "SortStats:\n" ++
  s!"  Number of spills: {s.spills}\n" ++
  s!"  Records sorted: {s.sorted}\n" ++
  s!"  Data sorted: {s.dataSize} bytes (" ++
    (Fixed.quotient s.dataSize (1024 * 1024)).twoPlaces ++ " MB)\n" ++
  match s.io with
  | none => ""
  | some io => "  I/O stats: " ++ io.summary ++ "\n" ++ ratioLine s.dataSize io

end Statistics
end ExternalSort
