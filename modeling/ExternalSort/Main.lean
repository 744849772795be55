/-
  ExternalSort.Main

  The command: sorts lines of the system's files.

  The files that the arguments name are copied to a disk in memory, the lines
  are sorted there, and what changed on that disk is written back.
-/

import ExternalSort.CommandLine.Sort
import ExternalSort.CommandLine.Usage
import Std.Time.DateTime.Timestamp

namespace ExternalSort
namespace Main

/-! ## Reading the system's files -/

/-- The text of a place. -/
def placeText (place : Location) : String :=
  "/" ++ "/".intercalate (place.map String.ofList)

/-- The device that has no space. -/
def fullDevice : Location := ["dev".toList, "full".toList]

/-- Whether a directory stands at a place. -/
def isDirectory (place : Location) : IO Bool := do
  let .ok path ← (IO.FS.realPath (placeText place)).toBaseIO | return false
  path.isDir

/-- A disk with what stands at a place. -/
def loadPlace (d : Disk) (place : Location) : IO Disk := do
  if (d.node? place).isSome then return d
  if place = fullDevice then return d.put place .fullDevice fun _ h => Node.noConfusion h
  if ← isDirectory place then return d.put place .directory d.directory_known
  let .ok bytes ← (IO.FS.readBinFile (placeText place)).toBaseIO | return d
  if fits : bytes.size < Disk.offsetLimit then return (d.putFile place bytes fits).2 else return d

/-- A disk with what stands along names from a directory on. -/
def loadNames (d : Disk) (here : Location) : List Name → IO Disk
  | [] => return d
  | name :: rest => do
    let next := if name = Path.up then here.dropLast else here ++ [name]
    loadNames (← loadPlace d next) next rest

/-- A disk with what a path leads to. -/
def loadPath (d : Disk) (p : Path) : IO Disk := loadNames d (d.origin p) p.names

/-- A disk with the files that arguments name. -/
def loadDisk (a : Arguments) (defaultDirectory : Path) : IO Disk := do
  let home := (Path.mk (← IO.currentDir).toString).names
  let directory := (CommandLine.options a defaultDirectory).spillDirectory.getD defaultDirectory
  let mut d ← loadNames { (default : Disk) with home } [] home
  for path in directory :: ([a.input, a.persistTo, a.resumeFrom].filterMap id).map Path.mk do
    d ← loadPath d path
  let manifest := a.resumeFrom.bind fun path =>
    (d.contentAt ⟨path⟩).toOption.bind fun bytes =>
      (String.fromUTF8? bytes).bind fun text => (Manifest.ofJsonText text).toOption
  match manifest with
  | some m => loadPath d (directory.join ⟨m.fileName⟩)
  | none => return d

/-! ## Writing the changes back -/

/-- The content of a node. -/
def nodeContent (d : Disk) : Option Node → Option ByteArray
  | some (.file number) => some (d.content number)
  | _ => none

/-- Makes the directories that are new. -/
def saveDirectories (before after : Disk) : IO Unit := do
  for (place, node) in after.entries do
    if node = .directory && (before.node? place).isNone then IO.FS.createDirAll (placeText place)

/-- Writes the files that are new or changed. -/
def saveFiles (before after : Disk) : IO Unit := do
  for (place, node) in after.entries do
    match nodeContent after node with
    | some bytes =>
      if nodeContent before (before.node? place) != some bytes then
        IO.FS.writeBinFile (placeText place) bytes
    | none => pure ()

/-- Removes the files that are gone. -/
def removeFiles (before after : Disk) : IO Unit := do
  for (place, _) in before.entries do
    if (after.node? place).isNone then IO.FS.removeFile (placeText place)

/-- Brings the system's files to the state of a disk. -/
def saveChanges (before after : Disk) : IO Unit := do
  saveDirectories before after
  saveFiles before after
  removeFiles before after

/-! ## Running the command -/

/-- Names for new files that other processes do not use. -/
def nameSource : IO NameSource := do
  let now ← Std.Time.Timestamp.now
  return { process := ← IO.rand 1 4194303, time := now.toNanosecondsSinceUnixEpoch.val.toNat }

/-- Prints what the command answers, and tells its exit code. -/
def answer (out : ByteArray) (err : String) (code : UInt32) : IO UInt32 := do
  let stdout ← IO.getStdout
  stdout.write out
  stdout.flush
  IO.eprint err
  return code

/-- Sorts as the arguments ask for. -/
def sort (a : Arguments) : IO UInt32 := do
  let defaultDirectory : Path := ⟨(← IO.getEnv "TMPDIR").getD "/tmp"⟩
  let input ← if a.input.isSome then pure ByteArray.empty else (← IO.getStdin).readBinToEnd
  let before ← loadDisk a defaultDirectory
  let store : Store := { disk := before, names := ← nameSource }
  let (outcome, store) := (CommandLine.sort a defaultDirectory input).run store
  saveChanges before store.disk
  match outcome.fault with
  | none => answer outcome.out outcome.err 0
  | some fault =>
    answer outcome.out (outcome.err ++ Usage.command ++ ": " ++ fault.message ++ "\n") 1

/-- Runs the command with the given arguments. -/
def run (arguments : List String) : IO UInt32 := do
  match Arguments.read arguments with
  | .ok a => sort a
  | .error stop =>
    let reply := Usage.reply stop
    answer reply.out.toUTF8 reply.err reply.code

end Main
end ExternalSort

/-- The command. -/
def main (arguments : List String) : IO UInt32 := ExternalSort.Main.run arguments
