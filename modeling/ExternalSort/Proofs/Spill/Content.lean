/-
  ExternalSort.Proofs.Spill.Content

  The content that a spill file shows to its readers.

  A file with nothing left to write out shows the content of a regular file,
  whoever wrote it: the one that it has open, or the one that its path leads to.
  The offset of its writers plays no part in this, so it may be any. A request is
  answered with the bytes that it asks for, and where the content does not reach
  so far, it fails and says how many there were.
-/

import ExternalSort.Proofs.Spill.Store

namespace ExternalSort
namespace SpillFile

/-- A file that has a regular file open, with everything written out. -/
structure ShowsOpen (f : SpillFile) (d : Disk) (number : Nat) (content : ByteArray) : Prop where
  handle : f.handle = some (.file number)
  known : number < d.contents.size
  pending : f.pending = .empty
  content : d.content number = content

/-- What the readers of a file get to see. -/
inductive Shows (f : SpillFile) (d : Disk) (content : ByteArray) : Prop
  | opened {number : Nat} (isOpen : f.ShowsOpen d number content)
  | unopened {number : Nat} (unopened : f.Unopened) (parents : d.HasParents f.path)
      (found : d.find f.path = .ok (.file number)) (content : d.content number = content)

variable {f : SpillFile} {d : Disk} {content : ByteArray}

/-- A file on disk is opened as it is. -/
theorem ensureOpen_of_found {h : Handle} (unopened : f.Unopened) (parents : d.HasParents f.path)
    (found : d.find f.path = .ok (Disk.nodeOf h)) :
    Failing.runOn ensureOpen (f, d) =
      (.ok h, { f with handle := some h, offset := d.sizeOf h }, d) := by
  apply Leads.runOn_eq
  apply ensureOpen_of
  · intro h' handle
    cases unopened.handle.symm.trans handle
  · intro _
    refine (Disk.makeParents_of_hasParents parents).mono ?_ fun _ _ h => h
    rintro _ _ rfl
    refine (Disk.openAppend_of_find found).mono ?_ fun _ _ h => h
    rintro _ _ ⟨rfl, rfl⟩
    exact ⟨rfl, rfl⟩

theorem Shows.ensureOpen_leads (shown : f.Shows d content) :
    Leads ensureOpen (f, d)
      (fun h p => (∃ number, h = .file number ∧ p.1.ShowsOpen p.2 number content) ∧
        p.1.path = f.path)
      (fun _ _ => False) := by
  cases shown with
  | @opened number isOpen =>
    apply ensureOpen_of
    · intro h handle
      obtain rfl := Option.some.inj (isOpen.handle.symm.trans handle)
      exact ⟨⟨number, rfl, isOpen⟩, rfl⟩
    · intro none
      cases isOpen.handle.symm.trans none
  | @unopened number unopened parents found content =>
    have known : number < d.contents.size := by
      obtain ⟨_, _, _, -, -, node, -⟩ := Disk.find_ok_iff.mp found
      exact Disk.known_of_node? node
    exact Leads.of_runOn_ok (ensureOpen_of_found (h := .file number) unopened parents found)
      ⟨⟨number, rfl, rfl, known, unopened.pending, content⟩, rfl⟩

/-- What is asked for is taken from the content, as much as there is, unless its end is no
    offset. -/
theorem fetch_leads_of_file (number offset length : Nat) :
    Leads (fetch (.file number) offset length) (f, d)
      (fun found q => found = (d.content number).extract offset (offset + length) ∧ q = (f, d))
      (fun e _ => e.IsDiskFailure ∧ Disk.offsetLimit ≤ offset + length) := by
  rw [fetch]
  by_cases none : length = 0
  · have blank : (d.content number).extract offset (offset + length) = .empty := by
      apply ByteArray.size_eq_zero_iff.mp
      rw [ByteArray.size_extract]
      omega
    rw [if_pos none, blank]
    exact Leads.of_pure ⟨rfl, rfl⟩
  · rw [if_neg none]
    refine Leads.bind (Leads.of_disk ?_)
    by_cases within : offset + length < Disk.offsetLimit
    · have found : d.readAt (.file number) offset length =
          .ok ((d.content number).extract offset (offset + length)) := by
        rw [Disk.readAt, if_neg (Nat.not_le.mpr within)]
      simp only [found]
      exact Leads.of_pure ⟨rfl, rfl⟩
    · have beyond := Nat.le_of_not_lt within
      have refused : d.readAt (.file number) offset length = .error .invalidArgument := by
        rw [Disk.readAt, if_pos beyond]
      simp only [refused]
      exact Leads.bind (Leads.of_get₂ (Leads.of_throw₂ ⟨⟨_, rfl⟩, beyond⟩))

/-- As many of the bytes asked for as there are. -/
theorem fetch_of_file {number offset length : Nat} (within : offset + length < Disk.offsetLimit) :
    Failing.runOn (fetch (.file number) offset length) (f, d) =
      (.ok ((d.content number).extract offset (offset + length)), (f, d)) := by
  apply Leads.runOn_eq
  apply (fetch_leads_of_file number offset length).mono
  · exact fun _ _ post => post
  · exact fun _ _ post => Nat.not_le.mpr within post.2

/-- A request is answered from the content, or the content is too short for it. -/
theorem Shows.read_leads {offset length : Nat} (shown : f.Shows d content)
    (within : offset + length < Disk.offsetLimit) :
    Leads (read offset length) (f, d)
      (fun found p => found = content.extract offset (offset + length) ∧ found.size = length ∧
        p.1.Shows p.2 content ∧ p.1.path = f.path)
      (fun e p => (∃ got, got = (content.extract offset (offset + length)).size ∧ got < length ∧
          e = .corruptData f.path (.shortRead got length offset)) ∧
        p.1.Shows p.2 content ∧ p.1.path = f.path) := by
  apply read_of
  refine shown.ensureOpen_leads.mono ?_ fun _ _ h => h.elim
  rintro _ ⟨g, e⟩ ⟨⟨number, rfl, isOpen⟩, path⟩
  -- nothing is buffered, so nothing is written out
  refine Leads.of_runOn_ok (flush_of_empty isOpen.pending e) ?_
  refine Leads.of_runOn_ok (fetch_of_file within) ?_
  rw [isOpen.content]
  have size : (content.extract offset (offset + length)).size ≤ length := by
    rw [ByteArray.size_extract]
    omega
  refine ⟨fun short => ?_, fun whole => ?_⟩
  · exact ⟨⟨_, rfl, short, by rw [path]⟩, .opened isOpen, path⟩
  · have isOpen' : ShowsOpen { g with io := g.io.addRead (UInt64.ofNat length) } e number content :=
      ⟨isOpen.handle, isOpen.known, isOpen.pending, isOpen.content⟩
    exact ⟨rfl, Nat.le_antisymm size whole, .opened isOpen', path⟩

end SpillFile

namespace Store

/-- A file of a store, at a path, shows a content to its readers. -/
structure Shows (s : Store) (ref : FileRef) (path : Path) (content : ByteArray) : Prop where
  known : s.Known ref
  path : (s.file ref).path = path
  shown : (s.file ref).Shows s.disk content

/-- A store with one file, at a path, that has the given content. -/
def ofContent (path : Path) (content : ByteArray) (small : content.size < Disk.offsetLimit) :
    Store where
  disk := {
    contents := #[content]
    small := fun number h => by
      obtain rfl : number = 0 := by simpa using h
      exact small }
  files := #[⟨{ path, handle := some (.file 0), offset := content.size }, 1⟩]

/-- Any bytes at all can be the content of a file. -/
theorem shows_ofContent (path : Path) {content : ByteArray}
    (small : content.size < Disk.offsetLimit) :
    (ofContent path content small).Shows ⟨0⟩ path content :=
  ⟨Nat.zero_lt_one, rfl, .opened ⟨rfl, Nat.zero_lt_one, rfl, rfl⟩⟩

variable {s : Store} {ref : FileRef} {path : Path} {content : ByteArray} {offset length : Nat}

/-- A request to a file is answered from its content, or the content is too short for it. -/
theorem Shows.read_leads (shown : s.Shows ref path content)
    (within : offset + length < Disk.offsetLimit) :
    Leads (onFile ref (SpillFile.read offset length)) s
      (fun found s' => found = content.extract offset (offset + length) ∧ found.size = length ∧
        s'.Shows ref path content)
      (fun e s' => (∃ got, got = (content.extract offset (offset + length)).size ∧ got < length ∧
          e = .corruptData path (.shortRead got length offset)) ∧ s'.Shows ref path content) := by
  obtain ⟨known, rfl, shown⟩ := shown
  apply (onFile_leads known (shown.read_leads within)).mono
  · rintro found s' ⟨⟨eq, whole, shown', path⟩, around⟩
    exact ⟨eq, whole, around.known known, path, shown'⟩
  · rintro e s' ⟨⟨short, shown', path⟩, around⟩
    exact ⟨short, around.known known, path, shown'⟩

end Store
end ExternalSort
