/-
  ExternalSort.Disk.Basic

  A disk: directories, files, and a device that is always full.

  A directory entry refers to a file's content by number, so a file that is
  open stays readable after its entry is removed, and a new file of the same
  name is another one. The space left may be bounded, and the size of a file is:
  an append that does not fit writes what fits and then fails.
-/

import ExternalSort.Disk.OsError
import ExternalSort.Disk.Path

namespace ExternalSort

/-- The names from the root to a place. -/
abbrev Location := List Name

/-- What a directory entry is. -/
inductive Node
  | directory
  /-- A file, by the number of its content. -/
  | file (content : Nat)
  /-- A device that reads as zeros and has no space for writes. -/
  | fullDevice
deriving DecidableEq, Repr

/-- An open file. -/
inductive Handle
  | file (content : Nat)
  | fullDevice
deriving DecidableEq, Repr

/-- Offsets from here on cannot be asked for, and the last of them is the size of no file. -/
def Disk.offsetLimit : Nat := UInt64.size / 2

/-- The state of a disk. The root directory has no entry of its own. -/
structure Disk where
  entries : List (Location × Node) := []
  contents : Array ByteArray := #[]
  /-- The number of bytes that still fit, if it is bounded. -/
  free : Option Nat := none
  /-- The directory that relative paths start from. -/
  home : Location := []
  /-- Every file has its content. -/
  sound : ∀ place number, (place, Node.file number) ∈ entries → number < contents.size := by simp
  /-- No file is larger than an offset can say. -/
  small : ∀ number (h : number < contents.size), contents[number].size < Disk.offsetLimit := by simp

instance : Inhabited Disk :=
  ⟨{ sound := fun _ _ h => absurd h List.not_mem_nil
     small := fun _ h => absurd h (Nat.not_lt_zero _) }⟩

/-- Operations on a disk that may fail. -/
abbrev DiskM := ExceptT OsError (StateM Disk)

namespace Disk

/-! ## Places -/

/-- What stands at a place. -/
def node? (d : Disk) (place : Location) : Option Node :=
  if place = [] then some .directory else d.entries.lookup place

/-- The longest name in bytes. -/
def nameLimit : Nat := 255

/-- The longest path in bytes. -/
def pathLimit : Nat := 4095

/-- The place that a step from a directory leads to. -/
def enter (here : Location) (step : Name) : Except OsError Location :=
  if step = Path.here then .ok here
  else if step = Path.up then .ok here.dropLast
  else if nameLimit < (String.ofList step).utf8ByteSize then .error .nameTooLong
  else .ok (here ++ [step])

/-- Takes steps from a directory, each to a directory. -/
def follow (d : Disk) : (here : Location) → List Name → Except OsError Location
  | here, [] => .ok here
  | here, step :: rest => do
    let next ← enter here step
    match d.node? next with
    | some .directory => follow d next rest
    | some _ => .error .notDirectory
    | none => .error .notFound

/-- The directory that a path starts from. -/
def origin (d : Disk) (p : Path) : Location := if p.isAbsolute then [] else d.home

/-- The directory in which the last step of a path is taken, and that step. -/
def approach (d : Disk) (p : Path) : Except OsError (Location × Name) := do
  if p.text.toList.contains '\x00' then throw .zeroInPath
  if p.isEmpty then throw .notFound
  if pathLimit < p.text.utf8ByteSize then throw .nameTooLong
  return (← d.follow (d.origin p) p.steps.dropLast, p.steps.getLast?.getD Path.here)

/-- The place that a path denotes. -/
def resolve (d : Disk) (p : Path) : Except OsError Location := do
  let (directory, step) ← d.approach p
  enter directory step

/-- What stands at the end of a path that must lead to something. -/
def find (d : Disk) (p : Path) : Except OsError Node := do
  match d.node? (← d.resolve p) with
  | none => .error .notFound
  | some .directory => .ok .directory
  | some node => if p.endsInSlash then .error .notDirectory else .ok node

/-- Whether a path leads to a directory. -/
def isDirectory (d : Disk) (p : Path) : Bool := d.find p matches .ok .directory

/-! ## Entries -/

/-- Puts a node at a place; if it is a file, its content is there. -/
def put (d : Disk) (place : Location) (node : Node)
    (known : ∀ number, node = .file number → number < d.contents.size := by simp) : Disk :=
  { d with
    entries := (place, node) :: d.entries.filter (·.1 != place)
    sound := by
      intro there number h
      rcases List.mem_cons.mp h with h | h
      · exact known number (Prod.mk.inj h).2.symm
      · exact d.sound there number (List.mem_filter.mp h).1 }

theorem directory_known (d : Disk) (number : Nat) (h : Node.directory = .file number) :
    number < d.contents.size := Node.noConfusion h

/-- Removes the entry of a place. -/
def drop (d : Disk) (place : Location) : Disk :=
  { d with
    entries := d.entries.filter (·.1 != place)
    sound := fun there number h => d.sound there number (List.mem_filter.mp h).1 }

/-- Adds content that no entry refers to. -/
def store (d : Disk) (content : ByteArray) (fits : content.size < offsetLimit) : Disk :=
  { d with
    contents := d.contents.push content
    sound := fun there number h => by
      rw [Array.size_push]
      exact Nat.lt_succ_of_lt (d.sound there number h)
    small := fun number h => by
      rw [Array.getElem_push]
      split
      · exact d.small number _
      · exact fits }

/-- Adds a file with the given content, and its number. -/
def putFile (d : Disk) (place : Location) (content : ByteArray)
    (fits : content.size < offsetLimit) : Nat × Disk :=
  (d.contents.size,
   (d.store content fits).put place (.file d.contents.size) (by
     intro number h
     cases h
     simp [store]))

/-- Changes the content of a file, by its number. -/
def amend (d : Disk) (number : Nat) (change : ByteArray → ByteArray)
    (fits : ∀ h : number < d.contents.size, (change d.contents[number]).size < offsetLimit) :
    Disk :=
  { d with
    contents := d.contents.modify number change
    sound := by simpa using d.sound
    small := fun there h => by
      rw [Array.getElem_modify]
      split
      · subst there
        exact fits _
      · exact d.small there _ }

/-! ## Directories -/

/-- Makes a directory in one that is there. -/
def makeDirectory (p : Path) : DiskM Unit := do
  let d ← get
  let (directory, step) ← d.approach p
  -- these lead to a directory that is there
  if step = Path.here ∨ step = Path.up then throw .exists
  let place ← enter directory step
  if (d.node? place).isSome then throw .exists
  set (d.put place .directory d.directory_known)

/-- Makes a directory unless it is there. -/
def ensureDirectory (p : Path) : DiskM Unit := do
  try makeDirectory p
  catch e => if e = .exists && (← get).isDirectory p then pure () else throw e

/-- Makes a directory unless it is there, and if there is no place for it, first those above. -/
def ensureBelow (p : Path) (ensureAbove : DiskM Unit) : DiskM Unit := do
  try ensureDirectory p
  catch
    | .notFound =>
      ensureAbove
      ensureDirectory p
    | e => throw e

/-- Makes the missing directories of a path, which is given as pieces, last to first. -/
def ensurePieces : List Name → DiskM Unit
  | [] => return ()
  | piece :: before =>
    if Path.isEnd piece before then
      ensureBelow (Path.ofPieces (piece :: before)) (ensurePieces before)
    else ensurePieces before

/-- Makes the directory of a path and the missing ones above it. -/
def makeDirectories (p : Path) : DiskM Unit := do
  if let some before := p.above? then ensureBelow p (ensurePieces before)

/-- Makes the directories above the last name of a path. -/
def makeParents (p : Path) : DiskM Unit := do
  if let some before := p.above? then ensurePieces before

/-! ## Files -/

/-- Removes a file's entry; its content stays for those who have it open. -/
def remove (p : Path) : DiskM Unit := do
  let d ← get
  match ← d.find p with
  | .directory => throw .isDirectory
  | _ => set (d.drop (← d.resolve p))

/-! ## Content -/

/-- The content of a file by its number. -/
def content (d : Disk) (number : Nat) : ByteArray := d.contents.getD number ByteArray.empty

/-- The size of an open file. -/
def sizeOf (d : Disk) : Handle → Nat
  | .file number => (d.content number).size
  | .fullDevice => 0

/-- Opens a file for appending and reading, making it if it is missing. -/
def openAppend (p : Path) : DiskM Handle := do
  let d ← get
  let (directory, step) ← d.approach p
  -- a slash at the end asks for a directory, also where nothing stands yet
  if p.endsInSlash then throw .isDirectory
  let place ← enter directory step
  match d.node? place with
  | some .directory => throw .isDirectory
  | some (.file number) => return .file number
  | some .fullDevice => return .fullDevice
  | none =>
    let (number, d) := d.putFile place ByteArray.empty (by decide)
    set d
    return .file number

/-- The number of bytes that can still be appended to a content of `size` bytes. -/
def room (d : Disk) (size : Nat) : Nat :=
  let rest := offsetLimit - 1 - size
  match d.free with
  | none => rest
  | some space => min space rest

/-- What can still be written of some bytes at the end of a file. -/
def fitting (d : Disk) (number : Nat) (bytes : ByteArray) : ByteArray :=
  bytes.extract 0 (d.room (d.content number).size)

theorem room_le (d : Disk) (size : Nat) : d.room size ≤ offsetLimit - 1 - size := by
  rw [room]
  split
  · exact Nat.le_refl _
  · exact Nat.min_le_right _ _

theorem fits_fitting (d : Disk) (number : Nat) (bytes : ByteArray)
    (h : number < d.contents.size) :
    (d.contents[number] ++ d.fitting number bytes).size < offsetLimit := by
  have here : d.content number = d.contents[number] := by simp [content, h]
  have before := d.small number h
  have room := d.room_le d.contents[number].size
  rw [ByteArray.size_append, fitting, ByteArray.size_extract, here]
  omega

/-- The state after what fits of some bytes was written at the end of a file. -/
def extend (d : Disk) (number : Nat) (bytes : ByteArray) : Disk :=
  let written := d.fitting number bytes
  { d.amend number (· ++ written) (d.fits_fitting number bytes) with
    free := d.free.map (· - written.size) }

/-- Writes at the end of an open file. What does not fit is lost, and reported. -/
def append (h : Handle) (bytes : ByteArray) : DiskM Unit := do
  match h with
  | .fullDevice => if bytes.isEmpty then return () else throw .noSpace
  | .file number =>
    let d ← get
    let size := (d.content number).size
    let written := (d.fitting number bytes).size
    -- what fits is on disk even if the rest does not fit
    set (d.extend number bytes)
    if written < bytes.size then
      throw (if size + written + 1 = offsetLimit then .fileTooLarge else .noSpace)

/-- Up to `length` bytes of an open file from `offset` on; fewer where the file ends. -/
def readAt (d : Disk) (h : Handle) (offset length : Nat) : Except OsError ByteArray :=
  -- the end of what is asked for must be an offset, too
  if offsetLimit ≤ offset + length then .error .invalidArgument
  else
    match h with
    | .file number => .ok ((d.content number).extract offset (offset + length))
    | .fullDevice => .ok ⟨Array.replicate length 0⟩

/-- The size that a directory is listed with. -/
def directorySize : Nat := 4096

/-- The size of what a path leads to. -/
def fileSize (d : Disk) (p : Path) : Except OsError Nat := do
  match ← d.find p with
  | .directory => .ok directorySize
  | .file number => .ok (d.content number).size
  | .fullDevice => .ok 0

/-- The whole content of a file. -/
def contentAt (d : Disk) (p : Path) : Except OsError ByteArray := do
  match ← d.find p with
  | .directory => .error .isDirectory
  | .file number => .ok (d.content number)
  | .fullDevice => .ok ByteArray.empty

/-- Replaces the content of a file, making it if it is missing. -/
def writeFile (p : Path) (bytes : ByteArray) : DiskM Unit := do
  match ← openAppend p with
  | .fullDevice => if bytes.isEmpty then return () else throw .noSpace
  | .file number =>
    modify fun d => d.amend number (fun _ => ByteArray.empty) fun _ => by decide
    append (.file number) bytes

/-- Everything below a directory, with its names from there. -/
def below (d : Disk) (place : Location) : List (Location × Node) :=
  d.entries.filterMap fun (l, node) =>
    if place.isPrefixOf l && l != place then some (l.drop place.length, node) else none

end Disk
end ExternalSort
