/-
  ExternalSort.Proofs.Sorter.Truncated

  Runs of a spill file that was cut short.

  Wherever a file with runs is cut, each run that ended behind the cut tells so:
  its reader gives the records of the chunks that are left and then finds damage.
  This holds with a hook, too, as long as it undoes what it does, and for each of
  several runs in one file.
-/

import ExternalSort.Proofs.Run.Truncated
import ExternalSort.Proofs.Sorter.Overwritten

namespace ExternalSort

open SortedSource (drain)

/-! ## Cutting files -/

/-- The disk after a file was cut to its first `t` bytes, by the number of the file. -/
def Disk.truncate (d : Disk) (number t : Nat) : Disk :=
  d.amend number (·.extract 0 t) fun h => by
    have small := d.small number h
    rw [ByteArray.size_extract]
    omega

/-- The store after a file on its disk was cut to its first `t` bytes. -/
def Store.truncate (s : Store) (number t : Nat) : Store :=
  { s with disk := s.disk.truncate number t }

/-- A file that is cut shows what is left, although its writers believe that it is longer. -/
theorem Store.Ready.shows_truncate {s : Store} {ref : FileRef} {log : ByteArray}
    (ready : s.Ready ref log) {number : Nat} (handle : (s.file ref).handle = some (.file number))
    (t : Nat) : (s.truncate number t).Shows ref (s.file ref).path (log.extract 0 t) := by
  obtain ⟨known, content⟩ := ready.content_eq handle
  refine ⟨ready.known, rfl, .opened ⟨handle, ?_, ready.flushed.pending, ?_⟩⟩
  · show number < (s.disk.truncate number t).contents.size
    rw [Disk.truncate, Disk.size_contents_amend]
    exact known
  · show (s.disk.truncate number t).content number = _
    rw [Disk.truncate, Disk.content_amend_self _ known, content]

/-! ## Runs in one file -/

namespace Backing

variable {ρ : Type} [Storable ρ] {b : Backing ρ} {file : FileRef} {s : Store}

/-- A reader of records that stand in a log as one run, unless there are none. -/
structure Laid (hook : Option Protector) (database : Option String) (file : FileRef) (path : Path)
    (log : ByteArray) (r : RunReader ρ) (xs : List ρ) : Prop where
  reader : r = RunReader.ofExtent file path r.extent hook database
  runAt : xs ≠ [] → RunWriter.RunAt hook database log r.extent.start.toNat r.extent.stop.toNat
    r.extent.checksum xs

variable {hook : Option Protector} {database : Option String} {path : Path} {log : ByteArray}
  {r : RunReader ρ} {xs : List ρ}

theorem Laid.grow (h : Laid hook database file path log r xs) (bytes : ByteArray) :
    Laid hook database file path (log ++ bytes) r xs :=
  ⟨h.reader, fun some => (h.runAt some).grow bytes⟩

/-- A run is written behind what the file holds. -/
theorem writeRun_lays [TakesSpace ρ] (faithful : FaithfulHook b.options.activeProtector)
    (hfile : b.file = some file) (known : s.Known file) (usable : (s.file file).Usable s.disk)
    (records : List ρ) :
    Leads (b.writeRun records) s
      (Extends file (Laid b.options.activeProtector b.options.database file) records s)
      (fun _ _ => True) := by
  apply (writeRun_leads faithful hfile known usable records).mono _ fun _ _ _ => trivial
  rintro r t ⟨⟨base, ⟨⟨path, extent, rfl⟩, handle, more, isOpen, runAt, spans⟩, same⟩, named, beside⟩
  refine ⟨beside, base, more, same, .inr ⟨handle, _, isOpen⟩, .opened isOpen, ?_, fun some => ?_⟩
  · rw [← named]
    rfl
  · -- a run with records made the file longer
    obtain ⟨start, stop⟩ := spans.toNat_eq (runAt.lt some)
    rw [start, stop]
    exact runAt

theorem writeRuns_lay [TakesSpace ρ] {options : Options}
    (faithful : FaithfulHook options.activeProtector) {path : Path} {lists : List (List ρ)} :
    Leads (writeRuns options path lists) s
      (fun runs s' => ∃ file, s'.Known file ∧ (s'.file file).pending = .empty ∧
        (s'.file file).path = path ∧
        List.Forall₂ (fun r xs => ∃ log, (s'.file file).Holds s'.disk log ∧
          Laid options.activeProtector options.database file path log r xs) runs lists)
      (fun _ _ => True) :=
  writeRuns_of (P := Laid options.activeProtector options.database) (fun laid => laid.grow)
    fun known usable xs => writeRun_lays faithful rfl known usable xs

end Backing

/-! ## A run in a file that was cut -/

/-- When a file is cut in front of the end of one of its runs, reading the run gives the records of
    the chunks that are left, and then one error, which is damage. -/
theorem RunReader.drain_of_truncated {key value : Kind} (kinds : ¬ (key = .null ∧ value = .null))
    {options : Options} (faithful : FaithfulHook options.activeProtector) {path : Path}
    {lists : List (List (Record key value))} {s s' : Store}
    {runs : List (RunReader (Record key value))}
    (h : (Backing.writeRuns options path lists).run.run s = (.ok runs, s'))
    {r : RunReader (Record key value)} {records : List (Record key value)}
    (hr : (r, records) ∈ runs.zip lists) (nonempty : records ≠ []) {number : Nat}
    (handle : (s'.file r.file).handle = some (.file number)) {t : Nat}
    (cut : t < r.extent.stop.toNat) :
    (s'.truncate number t).Shows r.file r.path ((s'.disk.content number).extract 0 t) ∧
    ∃ kept lost, records = kept.flatten ++ lost.flatten ∧
      Severed options.activeProtector options.database (s'.disk.content number) t
        r.extent.start.toNat r.extent.stop.toNat kept lost ∧
      ∀ u : Store, u.Shows r.file r.path ((s'.disk.content number).extract 0 t) →
        ∀ count, kept.flatten.length < count → ∃ d r' u',
          (drain count r : StoreM _).run u =
            (((kept.flatten, .failed (.corruptData r.path d)), r'), u') ∧ Over r' := by
  have space := Record.takesSpace kinds
  obtain ⟨file, known, none, named, stand⟩ := (Backing.writeRuns_lay faithful).of_ok h
  obtain ⟨log, holds, reader, runAt⟩ := (List.forall₂_iff_zip.mp stand).2 hr
  have file_eq : r.file = file := by rw [reader]; rfl
  have path_eq : r.path = path := by rw [reader]; rfl
  rw [file_eq] at handle ⊢
  have ready : s'.Ready file log := by
    cases holds with
    | opened isOpen => exact ⟨known, ⟨_, isOpen⟩, none⟩
    | unopened unopened => exact absurd (handle.symm.trans unopened.handle) (by simp)
  obtain ⟨-, content⟩ := ready.content_eq handle
  have shown := ready.shows_truncate handle t
  rw [named, ← path_eq] at shown
  -- what is on disk is small enough for its offsets
  have limit : r.extent.stop.toNat < Disk.offsetLimit := by
    obtain ⟨h, isOpen⟩ := ready.flushed.isOpen
    have size := isOpen.size_lt
    rw [none] at size
    exact Nat.lt_of_le_of_lt (runAt nonempty).le_size size
  rw [content]
  obtain ⟨kept, lost, flat, severed⟩ := (runAt nonempty).exists_severed nonempty cut
  refine ⟨shown, kept, lost, flat, severed, fun u shown' count more => ?_⟩
  rw [path_eq] at shown' ⊢
  rw [reader]
  exact drain_of_cut severed limit shown' more

/-- Four bytes are missing at the end of the second of two runs. -/
def secondCut : Bool :=
  match neighbouringRuns with
  | (.ok [_, r], s') => decide ((s'.file r.file).handle = some (.file 0) ∧ 20 < r.extent.stop.toNat)
  | _ => false

theorem RunReader.drain_of_truncated_second :
    ∃ q r s', neighbouringRuns = (.ok [q, r], s') ∧
      (s'.truncate 0 20).Shows r.file r.path ((s'.disk.content 0).extract 0 20) ∧
      ∃ kept lost, forgettable = kept.flatten ++ lost.flatten ∧
        Severed none none (s'.disk.content 0) 20 r.extent.start.toNat r.extent.stop.toNat kept
          lost ∧
        ∀ u : Store, u.Shows r.file r.path ((s'.disk.content 0).extract 0 20) →
          ∀ count, kept.flatten.length < count → ∃ d r' u',
            (drain count r : StoreM _).run u =
              (((kept.flatten, .failed (.corruptData r.path d)), r'), u') ∧ Over r' := by
  have stands : secondCut = true := by decide +kernel
  unfold secondCut at stands
  split at stands
  · rename_i q r s' h
    obtain ⟨handle, cut⟩ := of_decide_eq_true stands
    have plain : Sorter.spilling.activeProtector = none := by decide
    have unnamed : Sorter.spilling.database = none := by decide
    have hr : (r, forgettable) ∈ [q, r].zip [forgettable, forgettable] := by simp
    have severed := RunReader.drain_of_truncated (by decide) (.of_none plain) h hr (by decide) handle
      cut
    rw [plain, unnamed] at severed
    exact ⟨q, r, s', h, severed⟩
  · exact Bool.noConfusion stands

end ExternalSort
