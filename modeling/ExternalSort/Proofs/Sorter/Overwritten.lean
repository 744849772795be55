/-
  ExternalSort.Proofs.Sorter.Overwritten

  Runs on disk in which a few neighbouring bytes were overwritten.

  Bytes in the payload of an uncompressed chunk are bytes of the records, so the
  checksum of the run covers them. Changing them may move every later boundary
  between records, but what is read is still what the chunks spell out, and at
  most four changed bytes never leave the checksum as it was.
-/

import Mathlib.Data.List.Forall2
import ExternalSort.Proofs.Sorter.Replaced

namespace ExternalSort

/-! ## Overwriting bytes -/

/-- A byte string with other bytes from `p` on, as far as it reaches. -/
def overwrite (old : ByteArray) (p : Nat) (new : ByteArray) : ByteArray :=
  ⟨old.data.mapIdx fun i v => if i < p then v else new.data.getD (i - p) v⟩

theorem size_overwrite (old : ByteArray) (p : Nat) (new : ByteArray) :
    (overwrite old p new).size = old.size := Array.size_mapIdx

theorem getElem?_overwrite (old : ByteArray) (p : Nat) (new : ByteArray) (i : Nat) :
    (overwrite old p new).data[i]? =
      old.data[i]?.map fun v => if i < p then v else new.data.getD (i - p) v := by
  rw [overwrite, Array.getElem?_mapIdx]

/-- A byte string that is overwritten with other bytes than it has there differs in these. -/
theorem differsWithin_overwrite {old : ByteArray} {p : Nat} {new : ByteArray}
    (inside : p + new.size ≤ old.size) (changed : old.extract p (p + new.size) ≠ new) :
    DiffersWithin p new.size old (overwrite old p new) := by
  refine ⟨size_overwrite old p new, fun i outside => ?_, fun same => changed ?_⟩
  · rw [getElem?_overwrite]
    cases old.data[i]? with
    | none => rfl
    | some v =>
      rw [Option.map_some]
      split
      · rfl
      · have beyond : new.data.size ≤ i - p := by
          rw [ByteArray.size_data]
          omega
        rw [Array.getD_eq_getD_getElem?, Array.getElem?_eq_none beyond, Option.getD_none]
  · -- if nothing had changed, the new bytes would be those that were there
    refine ByteArray.ext (Array.ext_getElem? fun i => ?_)
    rw [DiffersWithin.getElem?_extract]
    split
    · have here : old.data[p + i]? = (overwrite old p new).data[p + i]? := by rw [← same]
      have within : i < new.data.size := by
        rw [ByteArray.size_data]
        omega
      have reach : p + i < old.data.size := by
        rw [ByteArray.size_data]
        omega
      rw [getElem?_overwrite, getElem?_pos old.data _ reach, Option.map_some, if_neg (by omega),
        Nat.add_sub_cancel_left, Array.getD_eq_getD_getElem?, getElem?_pos new.data _ within,
        Option.getD_some] at here
      rw [getElem?_pos old.data _ reach, here, getElem?_pos new.data _ within]
    · symm
      apply Array.getElem?_eq_none
      rw [ByteArray.size_data]
      omega

/-- The disk after bytes of a file were overwritten, by the number of the file. -/
def Disk.overwrite (d : Disk) (number p : Nat) (new : ByteArray) : Disk :=
  d.amend number (fun old => ExternalSort.overwrite old p new) fun h => by
    rw [size_overwrite]
    exact d.small number h

/-- The store after bytes of a file on its disk were overwritten. -/
def Store.overwrite (s : Store) (number p : Nat) (new : ByteArray) : Store :=
  { s with disk := s.disk.overwrite number p new }

/-- A file with overwritten bytes is read as any other file. -/
theorem Store.Ready.overwrite {s : Store} {ref : FileRef} {log : ByteArray} (ready : s.Ready ref log)
    {number : Nat} (handle : (s.file ref).handle = some (.file number)) (p : Nat) (new : ByteArray) :
    (s.overwrite number p new).Ready ref (ExternalSort.overwrite log p new) :=
  ready.amend handle (size_overwrite log p new)

/-! ## Runs in one file -/

namespace Backing

variable {ρ : Type} [Storable ρ] {b : Backing ρ} {file : FileRef} {s : Store}

/-- A run without a hook that stands in a log, unless it is empty. -/
structure Lodged (file : FileRef) (database : Option String) (log : ByteArray) (r : RunReader ρ) :
    Prop where
  reader : ∃ path, r = RunReader.ofExtent file path r.extent none database
  runAt : r.extent.start.toNat < r.extent.stop.toNat → ∃ xs : List ρ, RunWriter.RunAt none database
    log r.extent.start.toNat r.extent.stop.toNat r.extent.checksum xs

theorem Lodged.grow {database : Option String} {log : ByteArray} {r : RunReader ρ}
    (h : Lodged file database log r) (bytes : ByteArray) : Lodged file database (log ++ bytes) r := by
  refine ⟨h.reader, fun some => ?_⟩
  obtain ⟨xs, runAt⟩ := h.runAt some
  exact ⟨xs, runAt.grow bytes⟩

theorem lodged_of_finished {database : Option String} {base : ByteArray} {xs : List ρ}
    {r : RunReader ρ} (h : RunWriter.Finished file none database base xs r s) :
    ∃ more, (s.file file).Usable s.disk ∧ (s.file file).Holds s.disk (base ++ more) ∧
      Lodged file database (base ++ more) r := by
  obtain ⟨⟨path, extent, rfl⟩, handle, more, isOpen, runAt, spans⟩ := h
  refine ⟨more, .inr ⟨handle, _, isOpen⟩, .opened isOpen, ⟨path, rfl⟩, fun some => ⟨xs, ?_⟩⟩
  -- a run that is not empty made the file longer
  have lt : base.size < (base ++ more).size := by
    apply Nat.lt_of_not_le
    intro le
    have same : base.size = (base ++ more).size := Nat.le_antisymm runAt.le le
    rw [spans.start, spans.stop, same] at some
    exact Nat.lt_irrefl _ some
  obtain ⟨start, stop⟩ := spans.toNat_eq lt
  rw [start, stop]
  exact runAt

/-- After a list of records was written: the file, at its path, is longer, and what it holds has a
    property of the run. -/
def Extends (file : FileRef) (P : Path → ByteArray → RunReader ρ → List ρ → Prop) (xs : List ρ)
    (s : Store) (r : RunReader ρ) (s' : Store) : Prop :=
  s.Beside file s' ∧ ∃ base more, (∀ log, (s.file file).Holds s.disk log → base = log) ∧
    (s'.file file).Usable s'.disk ∧ (s'.file file).Holds s'.disk (base ++ more) ∧
    P (s.file file).path (base ++ more) r xs

/-- A run is written behind what the file holds, whether its records take space or none of them
    does. -/
theorem writeRun_lodges (solid : TakesSpace ρ ∨ ∀ x : ρ, Storable.encode x = .empty)
    (plain : b.options.activeProtector = none) (hfile : b.file = some file) (known : s.Known file)
    (usable : (s.file file).Usable s.disk) (records : List ρ) :
    Leads (b.writeRun records) s
      (Extends file (fun _ log r _ => Lodged file b.options.database log r) records s)
      (fun _ _ => True) := by
  have faithful : FaithfulHook b.options.activeProtector := .of_none plain
  have written : ∃ taken : List ρ, Leads (b.writeRun records) s
      (fun r s' => (∃ base, RunWriter.Finished file b.options.activeProtector b.options.database
        base taken r s' ∧ ∀ log, (s.file file).Holds s.disk log → base = log) ∧
        r.path = (s.file file).path ∧ s.Beside file s')
      (fun _ s' => s.Survives file s' ∧ s.Around s') := by
    rcases solid with takes | blank
    · exact ⟨records, writeRun_leads faithful hfile known usable records⟩
    · exact ⟨[], writeRun_blank_leads blank faithful hfile known usable records⟩
  obtain ⟨taken, leads⟩ := written
  apply leads.mono _ fun _ _ _ => trivial
  rintro r t ⟨⟨base, finished, same⟩, -, beside⟩
  rw [plain] at finished
  obtain ⟨more, usable', holds, lodged⟩ := lodged_of_finished finished
  exact ⟨beside, base, more, same, usable', holds, lodged⟩

section Several

variable {P : Path → ByteArray → RunReader ρ → List ρ → Prop}
  (grow : ∀ {path : Path} {log : ByteArray} {r : RunReader ρ} {xs : List ρ}, P path log r xs →
    ∀ bytes, P path (log ++ bytes) r xs)

include grow

/-- What is true of each run as it is written, and stays so as the file gets longer, is true of every
    run when the last one was written. -/
theorem mapM_writeRun_of
    (write : ∀ {s : Store}, s.Known file → (s.file file).Usable s.disk → ∀ xs,
      Leads (b.writeRun xs) s (Extends file P xs s) fun _ _ => True)
    (known : s.Known file) (usable : (s.file file).Usable s.disk) (lists : List (List ρ)) :
    Leads (lists.mapM b.writeRun) s
      (fun runs s' => s.Beside file s' ∧ (s'.file file).Usable s'.disk ∧
        (∀ log, (s.file file).Holds s.disk log →
          ∃ more, (s'.file file).Holds s'.disk (log ++ more)) ∧
        List.Forall₂ (fun r xs => ∃ log, (s'.file file).Holds s'.disk log ∧
          P (s.file file).path log r xs) runs lists)
      (fun _ _ => True) := by
  induction lists generalizing s with
  | nil =>
    rw [List.mapM_nil]
    refine Leads.of_pure ⟨.refl _ _, usable, fun log holds => ⟨.empty, ?_⟩, .nil⟩
    rw [ByteArray.append_empty]
    exact holds
  | cons xs lists ih =>
    rw [List.mapM_cons]
    apply Leads.seq (write known usable xs) _ fun _ _ _ => trivial
    rintro r t ⟨beside, base, more, same, usable', holds', here⟩
    apply Leads.seq (ih (beside.known known) usable') _ fun _ _ _ => trivial
    rintro runs u ⟨beside', usable'', grows, stand⟩
    have path : (t.file file).path = (s.file file).path := beside.frame.path
    rw [path] at stand
    -- the runs behind it leave this one where it is
    obtain ⟨more', holds''⟩ := grows _ holds'
    refine Leads.of_pure ⟨beside.trans beside', usable'', fun log holds => ⟨more ++ more', ?_⟩,
      .cons ⟨_, holds'', grow here more'⟩ stand⟩
    obtain rfl := same log holds
    rw [← ByteArray.append_assoc]
    exact holds''

end Several

/-- Writes lists of records as runs of a file, one behind the other, and all of it to disk. -/
def writeRuns (options : Options) (path : Path) (lists : List (List ρ)) :
    SpillM (List (RunReader ρ)) := do
  let file ← Store.register path
  let runs ← lists.mapM (writeRun { options, file := some file })
  Store.onFile file SpillFile.flush
  return runs

theorem writeRuns_of {options : Options} {path : Path} {lists : List (List ρ)}
    {P : FileRef → Path → ByteArray → RunReader ρ → List ρ → Prop}
    (grow : ∀ {file : FileRef} {path : Path} {log : ByteArray} {r : RunReader ρ} {xs : List ρ},
      P file path log r xs → ∀ bytes, P file path (log ++ bytes) r xs)
    (write : ∀ {file : FileRef} {s : Store}, s.Known file → (s.file file).Usable s.disk → ∀ xs,
      Leads (writeRun { options, file := some file } xs) s (Extends file (P file) xs s)
        fun _ _ => True) :
    Leads (writeRuns options path lists) s
      (fun runs s' => ∃ file, s'.Known file ∧ (s'.file file).pending = .empty ∧
        (s'.file file).path = path ∧
        List.Forall₂ (fun r xs => ∃ log, (s'.file file).Holds s'.disk log ∧ P file path log r xs)
          runs lists)
      (fun _ _ => True) := by
  obtain ⟨known, fresh⟩ := Store.register_run path s
  have unopened : SpillFile.Unopened { path := path } := ⟨rfl, rfl⟩
  rw [← fresh] at unopened
  rw [writeRuns]
  apply Leads.bind
  apply Leads.of_state
  apply Leads.seq (mapM_writeRun_of grow write known (.inl unopened) lists) _ fun _ _ _ => trivial
  rintro runs t ⟨beside, usable, -, stand⟩
  have known' := beside.known known
  apply Leads.seq (Store.onFile_leads known' (SpillFile.flush_of_usable usable)) _
    fun _ _ _ => trivial
  -- the flush leaves nothing to be written, and the runs where they are
  rintro _ u ⟨⟨none, stays, frame⟩, around⟩
  have named : (((Store.register path).run s).2.file ((Store.register path).run s).1).path = path := by
    rw [fresh]
  rw [named] at stand
  apply Leads.of_pure
  refine ⟨_, around.known known', none, ?_, stand.imp ?_⟩
  · exact frame.path.trans (beside.frame.path.trans named)
  · rintro r xs ⟨log, holds, here⟩
    exact ⟨log, stays.holds log holds, here⟩

theorem writeRuns_leads (solid : TakesSpace ρ ∨ ∀ x : ρ, Storable.encode x = .empty)
    {options : Options} (plain : options.activeProtector = none) {path : Path}
    {lists : List (List ρ)} :
    Leads (writeRuns options path lists) s
      (fun runs s' => ∀ r ∈ runs, s'.Known r.file ∧ (s'.file r.file).pending = .empty ∧
        ∃ log, (s'.file r.file).Holds s'.disk log ∧ Lodged r.file options.database log r)
      (fun _ _ => True) := by
  apply (writeRuns_of (P := fun file _ log r _ => Lodged file options.database log r)
    (fun h => h.grow) (fun known usable xs => writeRun_lodges solid plain rfl known usable xs)).mono
      _ fun _ _ _ => trivial
  rintro runs t ⟨file, known, none, -, stand⟩
  have each : ∀ r ∈ runs, ∃ log, (t.file file).Holds t.disk log ∧
      Lodged file options.database log r :=
    ((List.forall₂_and_left _ _).mp (stand.imp fun _ _ h => ⟨h, trivial⟩)).1
  intro r hr
  obtain ⟨log, holds, lodged⟩ := each r hr
  obtain ⟨path', eq⟩ := lodged.reader
  have file_eq : r.file = file := by rw [eq]; rfl
  rw [file_eq]
  exact ⟨known, none, log, holds, lodged⟩

end Backing

/-! ## A run with overwritten bytes -/

open SortedSource (drain)

/-- When at most four neighbouring bytes in the payload of an uncompressed chunk are overwritten with
    others, reading the run ends with damage. -/
theorem RunReader.drain_of_overwritten {key value : Kind} {options : Options}
    (plain : options.activeProtector = none) {path : Path} {lists : List (List (Record key value))}
    {s s' : Store} {runs : List (RunReader (Record key value))}
    (h : (Backing.writeRuns options path lists).run.run s = (.ok runs, s'))
    {r : RunReader (Record key value)} (hr : r ∈ runs) {number : Nat}
    (handle : (s'.file r.file).handle = some (.file number)) {first last : Nat}
    (raw : RawChunk (s'.disk.content number) r.extent.start.toNat r.extent.stop.toNat first last)
    {p : Nat} {new : ByteArray} (begun : first ≤ p) (within : p + new.size ≤ last)
    (few : new.size ≤ 4) (changed : (s'.disk.content number).extract p (p + new.size) ≠ new) :
    ∃ enough, ∀ count, enough ≤ count → ∃ out d r' t,
      (drain count r : StoreM _).run (s'.overwrite number p new) =
        (((out, .failed (.corruptData r.path d)), r'), t) := by
  have solid := Record.takesSpace_or_blank key value
  obtain ⟨known, none, log, holds, lodged⟩ := (Backing.writeRuns_leads solid plain).of_ok h r hr
  have ready : s'.Ready r.file log := by
    cases holds with
    | opened isOpen => exact ⟨known, ⟨_, isOpen⟩, none⟩
    | unopened unopened => exact absurd (handle.symm.trans unopened.handle) (by simp)
  obtain ⟨-, content⟩ := ready.content_eq handle
  rw [content] at raw changed
  -- a run with a chunk is not empty, so it stands in the file
  have bounds := raw.bounds
  simp only [Chunk.headerSize] at bounds
  obtain ⟨path', eq⟩ := lodged.reader
  obtain ⟨xs, runAt⟩ := lodged.runAt (by omega)
  have inside := runAt.le_size
  rcases solid with takes | blank
  · have differs := differsWithin_overwrite (by omega) changed
    obtain ⟨enough, ends⟩ :=
      RunReader.drain_of_differsWithin runAt differs (ready.overwrite handle p new)
    refine ⟨enough, fun count more => ?_⟩
    rw [eq]
    obtain ⟨out, ending, r', t, hdrain, ⟨d, rfl⟩ | ⟨-, -, none⟩⟩ := ends count more
    · exact ⟨out, d, r', t, hdrain⟩
    · exact absurd (none first last raw begun within) (Nat.not_lt_of_le few)
  · -- a payload of records without bytes has none that could be overwritten
    have le := (runAt.spells path').le_size raw inside
    rw [encodeRecords_blank blank, ByteArray.size_empty] at le
    have empty : new.size = 0 := by omega
    rw [empty, ByteArray.size_eq_zero_iff.mp empty] at changed
    exact absurd ByteArray.extract_same changed

/-- The store and the readers after two runs were written to one file. -/
def neighbouringRuns : Except SortError (List (RunReader Sorter.Numbered)) × Store :=
  (Backing.writeRuns Sorter.spilling ⟨"/tmp/runs"⟩ [forgettable, forgettable]).run.run {}

/-- The second run is one uncompressed chunk, and its bytes are others than those to come. -/
def secondChanges : Bool :=
  match neighbouringRuns with
  | (.ok [_, r], s') => decide ((s'.file r.file).handle = some (.file 0) ∧
      r.extent.start.toNat = 12 ∧ r.extent.stop.toNat = 24 ∧
      Chunk.readHeader ((s'.disk.content 0).extract 12 16) = (false, 8) ∧
      ((s'.disk.content 0).extract 17 21).data ≠ #[1, 2, 3, 4])
  | _ => false

theorem RunReader.drain_of_overwritten_second :
    ∃ q r s', neighbouringRuns = (.ok [q, r], s') ∧ ∃ enough, ∀ count, enough ≤ count →
      ∃ out d r' t, (drain count r : StoreM _).run (s'.overwrite 0 17 ⟨#[1, 2, 3, 4]⟩) =
        (((out, .failed (.corruptData r.path d)), r'), t) := by
  have stands : secondChanges = true := by decide +kernel
  unfold secondChanges at stands
  split at stands
  · rename_i q r s' h
    obtain ⟨handle, start, stop, head, changed⟩ := of_decide_eq_true stands
    have raw : RawChunk (s'.disk.content 0) r.extent.start.toNat r.extent.stop.toNat 16 24 := by
      rw [start, stop]
      exact .here head (by decide)
    exact ⟨q, r, s', h, RunReader.drain_of_overwritten (by decide) h (by simp) handle raw
      (by decide) (by decide) (by decide) fun same => changed (congrArg ByteArray.data same)⟩
  · exact Bool.noConfusion stands

end ExternalSort
