/-
  ExternalSort.Options.Basic

  The options of a sorter, fixed for its lifetime, and which of them are valid.
-/

import ExternalSort.Error
import ExternalSort.Protection

namespace ExternalSort

/-- The options of a sorter. -/
structure Options where
  /-- The number of records to return, or 0 for all of them. -/
  limit : UInt64 := 0
  /-- The footprint of buffered records above which the sorter spills. -/
  memoryBudget : UInt64 := 67108864
  /-- Whether spilling is allowed at all. -/
  spillAllowed : Bool := false
  /-- Where the spill file lives. -/
  spillDirectory : Option Path := none
  /-- Handed to the protection hook with every buffer. -/
  database : Option String := none
  /-- Move, rather than copy, results that stayed in memory into the output. -/
  moveResults : Bool := false
  /-- Check every comparison. -/
  verifyOrder : Bool := true
  protector : Option Protector := none
deriving Inhabited

namespace Options

/-- The protection hook, if one is set and enabled. -/
def activeProtector (o : Options) : Option Protector := o.protector.filter (·.enabled)

/-- Whether there is a directory for a spill file. -/
def hasSpillDirectory (o : Options) : Bool := o.spillDirectory.any (!·.isEmpty)

/-- Spilling needs the permission of the process: `forbidden` says that it was withdrawn. -/
def checkPermitted (o : Options) (forbidden : Bool) : Except SortError Unit :=
  if o.spillAllowed && forbidden then .error (.configuration .externalForbidden) else .ok ()

/-- Whether a sorter can be made with these options. -/
def validate (o : Options) (forbidden : Bool) : Except SortError Unit := do
  if o.memoryBudget = 0 then throw (.configuration .noMemory)
  if o.spillAllowed && !o.hasSpillDirectory then throw (.configuration .noSpillDirectory)
  o.checkPermitted forbidden

end Options
end ExternalSort
