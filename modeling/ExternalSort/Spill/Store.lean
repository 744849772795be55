/-
  ExternalSort.Spill.Store

  The spill files in use, and who holds them.

  A file is known by a reference. Every sorter, writer and reader that uses a
  file holds it once; when the last of them lets go the file is closed, which
  removes it unless it is kept. New files get names that do not repeat.
-/

import ExternalSort.Spill.File

namespace ExternalSort

/-- A reference to a spill file. -/
structure FileRef where
  index : Nat
deriving DecidableEq, Repr, Inhabited

/-- A spill file with the number of its holders. -/
structure HeldFile where
  file : SpillFile
  holders : Nat
deriving Inhabited

/-- Where the names of new spill files come from: a process, a time, and a running number. -/
structure NameSource where
  process : Nat := 1
  /-- Nanoseconds since the start of 1970. -/
  time : Nat := 0
  /-- How many names the process has made. -/
  count : Nat := 0
deriving Inhabited

namespace NameSource

/-- The next name, and the source after it. -/
def next (s : NameSource) : String × NameSource :=
  (s!"extsort-{s.process}-{s.time}-{s.count}", { s with count := s.count + 1 })

end NameSource

/-- The disk and the spill files in use on it. -/
structure Store where
  disk : Disk := default
  files : Array HeldFile := #[]
  names : NameSource := {}
  /-- The process must not spill. -/
  spillForbidden : Bool := false
deriving Inhabited

/-- Computations with spill files. -/
abbrev StoreM := StateM Store

/-- Computations with spill files that may fail. -/
abbrev SpillM := ExceptT SortError StoreM

namespace Store

/-- A file by its reference. -/
def file (s : Store) (ref : FileRef) : SpillFile := (s.files.getD ref.index default).file

/-- A new file with one holder. -/
def register (path : Path) : StoreM FileRef := do
  let s ← get
  set { s with files := s.files.push ⟨{ path := path }, 1⟩ }
  return ⟨s.files.size⟩

/-- A name that was not given before. -/
def freshName : StoreM String := do
  let s ← get
  let (name, names) := s.names.next
  set { s with names := names }
  return name

/-- One more holder. -/
def retain (ref : FileRef) : StoreM Unit :=
  modify fun s => { s with
    files := s.files.modify ref.index fun held => { held with holders := held.holders + 1 } }

/-- Applies an operation on one file. -/
def onFile {α : Type} (ref : FileRef) (action : SpillFile.Action α) : SpillM α :=
  ExceptT.mk fun s =>
    let held := s.files.getD ref.index default
    let ((result, file), disk) := (action.run.run held.file).run s.disk
    (result,
     { s with disk := disk, files := s.files.setIfInBounds ref.index { held with file := file } })

/-- A computation on the disk alone. -/
def onDisk {α : Type} (action : StateM Disk α) : StoreM α := fun s =>
  let (result, disk) := action.run s.disk
  (result, { s with disk := disk })

/-- One holder less; the last one closes the file. -/
def release (ref : FileRef) : StoreM Unit := do
  let s ← get
  match s.files[ref.index]? with
  | none => return ()
  | some held =>
    let left := { held with holders := held.holders - 1 }
    set { s with files := s.files.setIfInBounds ref.index left }
    if held.holders = 1 then onDisk held.file.close

end Store
end ExternalSort
