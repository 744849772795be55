/-
  ExternalSort.Proofs.Sorter.Replaced

  A run on disk in which a byte was replaced.

  The checksum of a run covers the bytes of its records, not the headers of its
  chunks. A replaced byte is found out when it belongs to the payload of an
  uncompressed chunk. Elsewhere it may go unnoticed: a shorter length in a
  header cuts off the end of the run, and what is lost may leave the checksum as
  it was.
-/

import ExternalSort.Proofs.Run.Damaged
import ExternalSort.Proofs.Sorter.Session

namespace ExternalSort

/-! ## Replacing a byte -/

namespace Disk

/-- The disk after a byte of a file was replaced, by the number of the file. -/
def replaceByte (d : Disk) (number p : Nat) (v : UInt8) : Disk :=
  d.amend number (fun bytes => ⟨bytes.data.setIfInBounds p v⟩) fun h => by
    show (Array.setIfInBounds _ _ _).size < offsetLimit
    rw [Array.size_setIfInBounds]
    exact d.small number h

end Disk

namespace Store

variable {s : Store} {ref : FileRef} {log : ByteArray}

/-- The store after a byte of a file on its disk was replaced. -/
def replaceByte (s : Store) (number p : Nat) (v : UInt8) : Store :=
  { s with disk := s.disk.replaceByte number p v }

/-- A file that is entirely on disk holds what the disk has. -/
theorem Ready.content_eq (ready : s.Ready ref log) {number : Nat}
    (handle : (s.file ref).handle = some (.file number)) :
    number < s.disk.contents.size ∧ s.disk.content number = log := by
  obtain ⟨-, ⟨h, isOpen⟩, none⟩ := ready
  obtain rfl := Option.some.inj (handle.symm.trans isOpen.handle)
  have bytes := isOpen.bytes
  rw [none, ByteArray.append_empty] at bytes
  exact ⟨isOpen.known, bytes⟩

/-- A file whose content was changed, but not its length, is read as any other file. -/
theorem Ready.amend (ready : s.Ready ref log) {number : Nat}
    (handle : (s.file ref).handle = some (.file number)) {change : ByteArray → ByteArray} {fits}
    (size : (change log).size = log.size) :
    Ready { s with disk := s.disk.amend number change fits } ref (change log) := by
  obtain ⟨known, content⟩ := ready.content_eq handle
  obtain ⟨knownFile, ⟨h, isOpen⟩, none⟩ := ready
  refine ⟨knownFile, ⟨.file number, handle, ?_, ?_, ?_⟩, none⟩
  · show number < (s.disk.amend number change fits).contents.size
    rw [Disk.size_contents_amend]
    exact known
  · show (s.disk.amend number change fits).content number ++ (s.file ref).pending = _
    rw [none, ByteArray.append_empty, Disk.content_amend_self _ known, content]
  · show (s.file ref).offset = (change log).size
    rw [isOpen.offset, size]

/-- A file with a replaced byte is read as any other file. -/
theorem Ready.replaceByte (ready : s.Ready ref log) {number : Nat}
    (handle : (s.file ref).handle = some (.file number)) {p : Nat} (inside : p < log.size)
    {v : UInt8} (changed : log.data[p]? ≠ some v) :
    ∃ log', DiffersAt p log log' ∧ (s.replaceByte number p v).Ready ref log' := by
  have here : log.data[p]? = some log.data[p] := getElem?_pos log.data p inside
  refine ⟨⟨log.data.setIfInBounds p v⟩, ⟨log.data[p], v, ?_, ?_, ?_⟩, ?_⟩
  · rw [Array.getElem?_toList, here]
  · exact fun same => changed (here.trans (congrArg some same))
  · exact Array.toList_setIfInBounds
  · exact ready.amend handle Array.size_setIfInBounds

end Store

/-! ## A run with a replaced byte -/

namespace Backing

variable {ρ : Type} [Storable ρ] [TakesSpace ρ]

/-- Writes records as one run of a file, and all of it to disk. -/
def writeThrough (options : Options) (path : Path) (records : List ρ) : SpillM (RunReader ρ) := do
  let file ← Store.register path
  let run ← writeRun { options, file := some file } records
  Store.onFile file SpillFile.flush
  return run

theorem writeThrough_leads {options : Options} (plain : options.activeProtector = none) {path : Path}
    {records : List ρ} {s : Store} :
    Leads (writeThrough options path records) s
      (fun r s' => ∃ first log path', s'.Ready r.file log ∧
        r = RunReader.ofExtent r.file path' r.extent none options.database ∧
        RunWriter.RunAt none options.database log first log.size r.extent.checksum records ∧
        RunWriter.Spans r.extent first log.size)
      (fun _ _ => True) := by
  have faithful : FaithfulHook options.activeProtector := fun p hp => by
    rw [plain] at hp
    cases hp
  obtain ⟨known, fresh⟩ := Store.register_run path s
  have unopened : SpillFile.Unopened { path := path } := ⟨rfl, rfl⟩
  rw [← fresh] at unopened
  rw [writeThrough]
  refine Leads.bind (Leads.of_state ?_)
  refine Leads.seq (writeRun_leads faithful rfl known (.inl unopened) records) ?_ fun _ _ _ => trivial
  rintro r t ⟨⟨base, ⟨⟨path', extent, rfl⟩, h, more, isOpen, runAt, spans⟩, -⟩, -, beside⟩
  rw [plain] at runAt ⊢
  refine Leads.seq (Store.onFile_leads (beside.known known) (SpillFile.flush_leads isOpen)) ?_
    fun _ _ _ => trivial
  rintro _ u ⟨⟨isOpen', none, -⟩, around⟩
  exact Leads.of_pure ⟨base.size, base ++ more, path',
    ⟨around.known (beside.known known), ⟨h, isOpen'⟩, none⟩, rfl, runAt, spans⟩

end Backing

open SortedSource (drain)

/-- When a byte of a run on disk was replaced, reading it ends with damage, or with records that have
    the recorded checksum. If the byte is in the payload of an uncompressed chunk, it ends with
    damage. -/
theorem RunReader.drain_of_replaced {key value : Kind} (kinds : ¬ (key = .null ∧ value = .null))
    {options : Options} (plain : options.activeProtector = none) {path : Path}
    {records : List (Record key value)} {s s' : Store} {r : RunReader (Record key value)}
    (h : (Backing.writeThrough options path records).run.run s = (.ok r, s'))
    {number : Nat} (handle : (s'.file r.file).handle = some (.file number)) {p : Nat}
    (begun : r.extent.start.toNat ≤ p) (within : p < r.extent.stop.toNat) {v : UInt8}
    (changed : (s'.disk.content number).data[p]? ≠ some v) :
    ∃ enough, ∀ count, enough ≤ count → ∃ out ending r' t,
      (drain count r : StoreM _).run (s'.replaceByte number p v) = (((out, ending), r'), t) ∧
        ((∃ d, ending = .failed (.corruptData r.path d)) ∨
          ending = .finished ∧ r.extent.Checks out ∧
            ¬ InRaw (s'.disk.content number) r.extent.start.toNat r.extent.stop.toNat p) := by
  have space := Record.takesSpace kinds
  obtain ⟨first, log, path', ready, eq, runAt, spans⟩ :=
    (Backing.writeThrough_leads plain).of_ok h
  obtain ⟨known, content⟩ := ready.content_eq handle
  have lt : first < log.size := by
    refine Nat.lt_of_not_le fun le => ?_
    have same : first = log.size := Nat.le_antisymm runAt.le le
    have empty : r.extent.start = r.extent.stop := by rw [spans.start, spans.stop, same]
    rw [empty] at begun
    exact absurd within (Nat.not_lt_of_le begun)
  obtain ⟨start, stop⟩ := spans.toNat_eq lt
  rw [← start, ← stop] at runAt
  rw [content] at changed ⊢
  obtain ⟨log', differs, ready'⟩ := ready.replaceByte handle (by omega) changed
  rw [eq]
  exact RunReader.drain_of_differsAt runAt differs ready'

/-- Records with the same checksum as the first of them. -/
def forgettable : List Sorter.Numbered := [(-1, ()), (0, ())]

/-- The store and the reader after these records were written. -/
def forgettableRun : Except SortError (RunReader Sorter.Numbered) × Store :=
  (Backing.writeThrough Sorter.spilling ⟨"/tmp/runs"⟩ forgettable).run.run {}

/-- The byte is in the payload of the run, and it is not zero. -/
def payloadChanges : Bool :=
  match forgettableRun with
  | (.ok r, s') => decide ((s'.file r.file).handle = some (.file 0) ∧
      r.extent.start.toNat ≤ 4 ∧ 4 < r.extent.stop.toNat ∧
      (s'.disk.content 0).data[4]? ≠ some 0)
  | (.error _, _) => false

theorem RunReader.drain_of_replaced_payload :
    ∃ r s', forgettableRun = (.ok r, s') ∧ ∃ enough, ∀ count, enough ≤ count →
      ∃ out ending r' t, (drain count r : StoreM _).run (s'.replaceByte 0 4 0) =
        (((out, ending), r'), t) ∧
        ((∃ d, ending = .failed (.corruptData r.path d)) ∨
          ending = .finished ∧ r.extent.Checks out ∧
            ¬ InRaw (s'.disk.content 0) r.extent.start.toNat r.extent.stop.toNat 4) := by
  have stands : payloadChanges = true := by decide +kernel
  unfold payloadChanges at stands
  rcases h : forgettableRun with ⟨_ | r, s'⟩
  · rw [h] at stands
    exact Bool.noConfusion stands
  · rw [h] at stands
    obtain ⟨handle, begun, within, changed⟩ := of_decide_eq_true stands
    exact ⟨r, s', rfl, RunReader.drain_of_replaced (by decide) rfl h handle begun within changed⟩

/-- The byte is in the header of the run, and with a shorter length there one record is given out. -/
def headerShortens : Bool :=
  match forgettableRun with
  | (.ok r, s') => decide ((s'.file r.file).handle = some (.file 0) ∧
      r.extent.start.toNat ≤ 0 ∧ 0 < r.extent.stop.toNat ∧
      (s'.disk.content 0).data[0]? ≠ some 4) &&
    match (drain 3 r : StoreM _).run (s'.replaceByte 0 0 4) with
    | (((out, .finished), _), _) => decide (out = [((-1 : Int32), ())])
    | _ => false
  | (.error _, _) => false

/-- A shorter length in a header makes a reader end early, with fewer records than were written. -/
theorem RunReader.drain_of_replaced_header :
    ∃ r s', forgettableRun = (.ok r, s') ∧ (s'.file r.file).handle = some (.file 0) ∧
      r.extent.start.toNat ≤ 0 ∧ 0 < r.extent.stop.toNat ∧
      (s'.disk.content 0).data[0]? ≠ some 4 ∧
      ∃ r' t, (drain 3 r : StoreM _).run (s'.replaceByte 0 0 4) =
        ((([(-1, ())], .finished), r'), t) := by
  have stands : headerShortens = true := by decide +kernel
  unfold headerShortens at stands
  rcases h : forgettableRun with ⟨_ | r, s'⟩
  · rw [h] at stands
    exact Bool.noConfusion stands
  · rw [h] at stands
    obtain ⟨before, after⟩ := Bool.and_eq_true_iff.mp stands
    obtain ⟨handle, begun, within, changed⟩ := of_decide_eq_true before
    refine ⟨r, s', rfl, handle, begun, within, changed, ?_⟩
    rcases hdrain : (drain 3 r : StoreM _).run (s'.replaceByte 0 0 4) with ⟨⟨⟨out, ending⟩, r'⟩, t⟩
    rw [hdrain] at after
    cases ending with
    | finished =>
      obtain rfl : out = [(-1, ())] := of_decide_eq_true after
      exact ⟨r', t, rfl⟩
    | failed _ => exact Bool.noConfusion after
    | enough => exact Bool.noConfusion after

end ExternalSort
