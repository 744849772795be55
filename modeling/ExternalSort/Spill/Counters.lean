/-
  ExternalSort.Spill.Counters

  Counts of the reads and writes of a spill file, modulo the machine word.
-/

namespace ExternalSort

/-- How often a file was read and written, and how many bytes. -/
structure IoCounters where
  readOps : UInt64 := 0
  readBytes : UInt64 := 0
  writeOps : UInt64 := 0
  writeBytes : UInt64 := 0
deriving DecidableEq, Repr, Inhabited

namespace IoCounters

/-- One more read. -/
def addRead (c : IoCounters) (bytes : UInt64) : IoCounters :=
  { c with readOps := c.readOps + 1, readBytes := c.readBytes + bytes }

/-- One more write. -/
def addWrite (c : IoCounters) (bytes : UInt64) : IoCounters :=
  { c with writeOps := c.writeOps + 1, writeBytes := c.writeBytes + bytes }

/-- The counters in one line. -/
def summary (c : IoCounters) : String :=
  s!"read_ops={c.readOps}, read_bytes={c.readBytes}, " ++
    s!"write_ops={c.writeOps}, write_bytes={c.writeBytes}"

/-- The counters as a record for debugging. -/
def debugText (c : IoCounters) : String :=
  "IoStatsTracker(IoStats \x7b " ++
    s!"read_ops: {c.readOps}, read_bytes: {c.readBytes}, " ++
    s!"write_ops: {c.writeOps}, write_bytes: {c.writeBytes}" ++ " \x7d)"

end IoCounters
end ExternalSort
