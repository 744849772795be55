/-
  ExternalSort.Error

  The errors of the sorter, by cause, and their wording.

  Only damage to data that was written before is fatal: trying again cannot
  help. Where a caller's own code reports a fault (a protection hook, a source
  of records) its reason is kept as text.
-/

import ExternalSort.Disk.OsError
import ExternalSort.Disk.Path
import ExternalSort.Order.Check
import ExternalSort.Record.Cursor
import ExternalSort.Text.Quoted

namespace ExternalSort

/-! ## Causes -/

/-- What is wrong with the options for an operation. -/
inductive ConfigFault
  | noMemory
  | noSpillDirectory
  | externalForbidden
  | unboundedLimit (limit : UInt64)
  | singleBestLimit (limit : UInt64)
  | topKLimit (limit : UInt64)
  | resumeLimit
  | resumeInMemory
  | resumeUnnamed
  | resumeNoDirectory
  | noSpillFile
  | chunkTooLong (length : Nat)
  | stated (reason : String)
deriving DecidableEq, Repr

/-- How spilled data fails to read back as written. -/
inductive Damage
  | record (fault : ReadFault)
  | pastEnd (offset : Nat)
  | truncatedHeader (offset stop : Nat)
  | overrun (length offset stop : Nat)
  | compression
  | falseLength (stored claimed : Nat)
  | checksum (found expected : UInt32)
  | shortRead (got wanted offset : Nat)
  | stated (reason : String)
deriving DecidableEq, Repr

/-- Why saved runs cannot be resumed. -/
inductive ResumeFault
  | undecodable
  | badRange (start stop : UInt64)
  | fileMissing (source : OsError)
  | fileEmpty
  | stated (reason : String)
deriving DecidableEq, Repr

/-- A failure of the disk, or one that a caller describes. -/
inductive IoCause
  | system (e : OsError)
  | stated (reason : String)
deriving DecidableEq, Repr

/-- What was being done for a spill file when it failed. -/
inductive FileActivity
  | makingDirectory
  | opening
  | reading
  | writing
  | compressing
deriving DecidableEq, Repr

/-- The two directions of a protection hook. -/
inductive ProtectionActivity
  | protect
  | unprotect
deriving DecidableEq, Repr

/-! ## Errors -/

/-- An error of the sorter. -/
inductive SortError
  | configuration (fault : ConfigFault)
  /-- The records outgrew the budget and must not be spilled. -/
  | memoryLimitExceeded (limit : UInt64)
  /-- There is no space left for a spill file. -/
  | diskFull (path : Path) (cause : IoCause)
  | corruptData (path : Path) (damage : Damage)
  | missingResumableState (path : Path) (fault : ResumeFault)
  | comparatorInvariantViolation (violation : Violation)
  | dataProtection (activity : ProtectionActivity) (reason : String)
  | io (activity : FileActivity) (path : Path) (cause : IoCause)
deriving DecidableEq, Repr

/-- What an operation must not be asked for at all. -/
inductive Misuse
  | addAfterDone
  | doneTwice
  | persistSingleBest
  | invertedLength
  /-- Sorting by a comparator that contradicts itself. -/
  | contradictoryOrder
deriving DecidableEq, Repr

/-- The ways in which an operation on a sorter fails. -/
inductive Failure
  | error (e : SortError)
  | misuse (m : Misuse)
deriving DecidableEq, Repr

/-! ## Wording -/

/-- The wording of a configuration fault. -/
def ConfigFault.message : ConfigFault → String
  | .noMemory => "max_memory_usage_bytes must be greater than 0"
  | .noSpillDirectory => "attempting to use external sort without setting temp_dir"
  | .externalForbidden => "external sort is not allowed in this process"
  | .unboundedLimit limit => s!"unbounded sorter needs limit 0, got {limit}"
  | .singleBestLimit limit => s!"single-best sorter needs limit 1, got {limit}"
  | .topKLimit limit => s!"top-k sorter needs a limit above 1, got {limit}"
  | .resumeLimit => "creating a sorter from existing ranges is only available with limit 0"
  | .resumeInMemory => "creating a sorter from existing ranges requires external sort"
  | .resumeUnnamed => "creating a sorter from existing ranges requires a file name"
  | .resumeNoDirectory => "creating a sorter from existing ranges requires a temp_dir"
  | .noSpillFile => "sorter has no spill file; external sort must be allowed with a temp_dir"
  | .chunkTooLong length => s!"chunk of {length} bytes does not fit in a chunk header"
  | .stated reason => reason

/-- The wording of damage. -/
def Damage.message : Damage → String
  | .record fault => fault.message
  | .pastEnd offset => s!"read past end of range at offset {offset}"
  | .truncatedHeader offset stop =>
    s!"truncated chunk header at offset {offset} (range ends at {stop})"
  | .overrun length offset stop =>
    s!"chunk of {length} bytes at offset {offset} runs past end of range ({stop})"
  | .compression => "failed to decompress chunk"
  | .falseLength stored claimed =>
    s!"compressed chunk of {stored} bytes claims {claimed} decompressed bytes"
  | .checksum found expected =>
    "data read from disk does not match what was written to disk (checksum 0x" ++
      hexDigits 8 found.toNat ++ ", expected 0x" ++ hexDigits 8 expected.toNat ++ ")"
  | .shortRead got wanted offset =>
    s!"number of bytes read ({got}) not equal to expected number ({wanted}) at offset {offset}"
  | .stated reason => reason

/-- The wording of a failure of the disk. -/
def IoCause.message : IoCause → String
  | .system e => e.message
  | .stated reason => reason

/-- The wording of a fault in saved runs. -/
def ResumeFault.message : ResumeFault → String
  | .undecodable => "failed to decode persisted state"
  | .badRange start stop => s!"range [{start}, {stop}) is inverted or overlaps a previous range"
  | .fileMissing source => "sorter file not found: " ++ source.message
  | .fileEmpty => "unexpected empty file"
  | .stated reason => reason

/-- The wording of an activity, in front of the path. -/
def FileActivity.message : FileActivity → String
  | .makingDirectory => "error creating directory for"
  | .opening => "error opening file"
  | .reading => "error reading file"
  | .writing => "error writing to file"
  | .compressing => "error compressing chunk for"

/-- The verb of a direction. -/
def ProtectionActivity.verb : ProtectionActivity → String
  | .protect => "protect"
  | .unprotect => "unprotect"

namespace SortError

/-- The wording of an error. -/
def message : SortError → String
  | .configuration fault => "invalid sort configuration: " ++ fault.message
  | .memoryLimitExceeded limit =>
    s!"sort exceeded memory limit of {limit} bytes, but did not opt in to external sorting"
  | .diskFull path cause => "out of disk space while writing " ++ path.text ++ ": " ++ cause.message
  | .corruptData path damage => "corrupt spill data in " ++ path.text ++ ": " ++ damage.message
  | .missingResumableState path fault =>
    "missing or invalid resumable sort state " ++ path.text ++ ": " ++ fault.message
  | .comparatorInvariantViolation violation =>
    "comparator invariant violated: " ++ violation.message
  | .dataProtection activity reason => "failed to " ++ activity.verb ++ " spill data: " ++ reason
  | .io activity path cause => activity.message ++ " " ++ path.text ++ ": " ++ cause.message

/-- The name of the kind of an error. -/
def name : SortError → String
  | .configuration _ => "Configuration"
  | .memoryLimitExceeded _ => "MemoryLimitExceeded"
  | .diskFull _ _ => "DiskFull"
  | .corruptData _ _ => "CorruptData"
  | .missingResumableState _ _ => "MissingResumableState"
  | .comparatorInvariantViolation _ => "ComparatorInvariantViolation"
  | .dataProtection _ _ => "DataProtection"
  | .io _ _ _ => "Io"

/-- Whether trying again cannot help. -/
def isFatal : SortError → Bool
  | .corruptData _ _ => true
  | _ => false

/-- The failure of the disk behind an error. -/
def cause? : SortError → Option IoCause
  | .diskFull _ cause => some cause
  | .io _ _ cause => some cause
  | _ => none

/-- The error for a failed write; a full disk is singled out. -/
def ofWrite (path : Path) (e : OsError) : SortError :=
  match e with
  | .noSpace => .diskFull path (.system e)
  | _ => .io .writing path (.system e)

end SortError

/-- The wording of a misuse. -/
def Misuse.message : Misuse → String
  | .addAfterDone => "cannot add records to a sorter after done()"
  | .doneTwice => "done() called twice on the same sorter"
  | .persistSingleBest => "the single-best sorter never spills and has nothing to persist"
  | .invertedLength => "attempt to subtract with overflow"
  | .contradictoryOrder =>
    "user-provided comparison function does not correctly implement a total order"

end ExternalSort
