/-
  ExternalSort.Proofs.Sorter.Backing

  Writing runs and merging them.

  A run that was written is at the end of the log; one that was not written
  leaves what was there before, unless its last write was cut short. The runs of
  a backing stand in the log of its file, and merging them gives out the stable
  sort of all their records.
-/

import ExternalSort.Proofs.Manifest
import ExternalSort.Proofs.Merge
import ExternalSort.Proofs.Order.Leading
import ExternalSort.Proofs.Order.StableSort.Division
import ExternalSort.Proofs.Run.Hindrance
import ExternalSort.Sorter.Backing

namespace ExternalSort

namespace Leads

variable {S α : Type} {p : S × Store} {ok : α → S × Store → Prop} {err : Failure → S × Store → Prop}

theorem of_sorterSpill {op : SpillM α}
    (h : Leads op p.2 (fun a s => ok a (p.1, s)) fun e s => err (.error e) (p.1, s)) :
    Leads (SorterM.spill op) p ok err := by
  rw [SorterM.spill]
  exact of_outer_result (h.mono (fun _ _ h => of_pure h) fun _ _ h => of_throw₂ h)

/-- Comparisons that meet no violation. -/
theorem of_checked {c : Checked α} {a : α} (hc : c = pure a) (h : ok a p) :
    Leads (SorterM.checked c) p ok err := by
  subst hc
  exact h

/-- Sorting puts the elements back as the sort arranges them. -/
theorem of_arrange {β : Type} {sorted : List β} {sort : StableSort.Arranging Checked β (List β)}
    {replace : List β → S → S} {ok : Unit → S × Store → Prop} (hsort : sort = pure sorted)
    (h : ok () (replace sorted p.1, p.2)) : Leads (SorterM.arrange sort replace) p ok err := by
  subst hsort
  exact h

end Leads

namespace Store

/-- What a failed attempt to write a run leaves of a file. -/
def Survives (s : Store) (file : FileRef) (s' : Store) : Prop :=
  s' = s ∨
  ((s'.file file).Unopened ∧ ∀ log, ¬ (s.file file).Holds s.disk log) ∨
  ∃ base, (∀ log, (s.file file).Holds s.disk log → base = log) ∧ s'.Continues file base

end Store

namespace Backing

variable {ρ : Type} [Storable ρ] [TakesSpace ρ] {b : Backing ρ} {file : FileRef} {s : Store}

/-! ### A rule for each operation on the file -/

omit [Storable ρ] [TakesSpace ρ] in
/-- With a file there is one to write to. -/
theorem spillFile_of (hfile : b.file = some file) {ok : FileRef → Store → Prop}
    {err : SortError → Store → Prop} (h : ok file s) :
    Leads (liftM b.spillFile : SpillM FileRef) s ok err := by
  rw [spillFile, hfile]
  exact Leads.of_pure h

omit [Storable ρ] [TakesSpace ρ] in
/-- The file is written out, then kept, then described. -/
theorem manifest_of (hfile : b.file = some file) {ok : Manifest → Store → Prop}
    {err : SortError → Store → Prop}
    (flushes : Leads (Store.onFile file SpillFile.flush) s
      (fun _ t => Leads (Store.onFile file SpillFile.keep) t
        (fun _ u => ok ⟨(u.file file).fileName, b.runs.toList.map (·.extent)⟩ u) err)
      err) :
    Leads b.manifest s ok err := by
  rw [manifest]
  refine Leads.bind (spillFile_of hfile ?_)
  refine Leads.seq flushes ?_ fun _ _ failed => failed
  intro _ t keeps
  refine Leads.seq keeps ?_ fun _ _ failed => failed
  exact fun _ u described => Leads.bind (Leads.of_get (Leads.of_pure described))

omit [TakesSpace ρ] in
/-- A writer takes the records and turns into a reader, or it lets go of the file. -/
theorem writeRun_of (hfile : b.file = some file) {records : List ρ}
    {ok : RunReader ρ → Store → Prop} {err : SortError → Store → Prop}
    (begins : Leads (RunWriter.begin b.options file) s
      (fun w t => Leads (RunWriter.addAll records) (w, t)
        (fun _ p => Leads (RunWriter.finish p.1) p.2 ok err)
        fun e p => err e (p.1.release.run p.2).2)
      err) :
    Leads (b.writeRun records) s ok err := by
  rw [writeRun]
  refine Leads.bind (spillFile_of hfile ?_)
  refine Leads.bind (begins.mono ?_ fun _ _ failed => failed)
  intro w t adds
  refine Leads.bind (Leads.of_state ?_)
  -- the writer is run apart from the store, so its outcome is split here
  rcases adds.outcome with ⟨_, ⟨w', u⟩, hrun, finishes⟩ | ⟨e, ⟨w', u⟩, hrun, failed⟩ <;>
    rw [Leads.run_run_run hrun]
  · exact finishes
  · exact Leads.bind (Leads.of_state (Leads.of_throw failed))

/-! ### What writing a run leads to -/

omit [TakesSpace ρ] in
/-- A run is written of the records that the writer takes. -/
theorem writeRun_of_added (faithful : FaithfulHook b.options.activeProtector)
    (hfile : b.file = some file) (known : s.Known file) (usable : (s.file file).Usable s.disk)
    {records taken : List ρ} (takes : ∀ x ∈ taken, 0 < (Storable.encode x).size)
    (added : ∀ {w t base}, RunWriter.Writing base ([] : List ρ) w t base →
      Leads (RunWriter.addAll records) (w, t)
        (fun _ p => (∃ buffer checksum, p.1 = { w with buffer, checksum }) ∧
          (∃ more, RunWriter.Writing base taken p.1 p.2 (base ++ more)) ∧ t.Beside w.file p.2)
        (fun _ p => p.1.file = w.file ∧ p.2.Continues w.file base ∧ t.Beside w.file p.2)) :
    Leads (b.writeRun records) s
      (fun r s' => (∃ base, RunWriter.Finished file b.options.activeProtector b.options.database
        base taken r s' ∧ ∀ log, (s.file file).Holds s.disk log → base = log) ∧
        r.path = (s.file file).path ∧ s.Beside file s')
      (fun _ s' => s.Survives file s' ∧ s.Around s') := by
  apply writeRun_of hfile
  refine (RunWriter.begin_leads ρ faithful known usable).mono ?_ ?_
  · rintro w t ⟨⟨rfl, wprotector, wdatabase, wpath⟩, ⟨base, writing, same⟩, beside⟩
    refine (added writing).mono ?_ ?_
    · rintro _ ⟨w', u⟩ ⟨⟨buffer, checksum, rfl⟩, ⟨more, writing'⟩, beside'⟩
      dsimp only at writing' beside' ⊢
      refine (RunWriter.finish_leads writing' takes).mono ?_ ?_
      · rintro r v ⟨finished, -, path, beside''⟩
        dsimp only at finished path beside''
        rw [wprotector, wdatabase] at finished
        exact ⟨⟨base, finished, same⟩, path.trans wpath, (beside.trans beside').trans beside''⟩
      · rintro _ v ⟨continues, around⟩
        exact ⟨.inr (.inr ⟨base, same, continues⟩),
          (beside.toAround.trans beside'.toAround).trans around⟩
    -- a writer that failed gives up its file
    · rintro e ⟨w', u⟩ ⟨file, continues, beside'⟩
      dsimp only at file continues beside' ⊢
      rw [← file] at continues same
      have around := (beside.toAround.trans beside'.toAround).trans
        (Store.around_release continues.1)
      rw [← file]
      exact ⟨.inr (.inr ⟨base, same, continues.release⟩), around⟩
  · rintro e t ⟨rest, around⟩
    exact ⟨rest.imp id .inl, around⟩

theorem writeRun_leads (faithful : FaithfulHook b.options.activeProtector)
    (hfile : b.file = some file) (known : s.Known file)
    (usable : (s.file file).Usable s.disk) (records : List ρ) :
    Leads (b.writeRun records) s
      (fun r s' => (∃ base, RunWriter.Finished file b.options.activeProtector b.options.database
        base records r s' ∧ ∀ log, (s.file file).Holds s.disk log → base = log) ∧
        r.path = (s.file file).path ∧ s.Beside file s')
      (fun _ s' => s.Survives file s' ∧ s.Around s') := by
  refine writeRun_of_added faithful hfile known usable (TakesSpace.forall_mem records) ?_
  intro w t base writing
  have added := RunWriter.addAll_leads writing records
  rw [List.nil_append] at added
  exact added

omit [TakesSpace ρ] in
/-- Of records without bytes, none are written. -/
theorem writeRun_blank_leads (blank : ∀ x : ρ, Storable.encode x = .empty)
    (faithful : FaithfulHook b.options.activeProtector) (hfile : b.file = some file)
    (known : s.Known file) (usable : (s.file file).Usable s.disk) (records : List ρ) :
    Leads (b.writeRun records) s
      (fun r s' => (∃ base, RunWriter.Finished file b.options.activeProtector b.options.database
        base ([] : List ρ) r s' ∧ ∀ log, (s.file file).Holds s.disk log → base = log) ∧
        r.path = (s.file file).path ∧ s.Beside file s')
      (fun _ s' => s.Survives file s' ∧ s.Around s') := by
  refine writeRun_of_added faithful hfile known usable (by simp) ?_
  intro w t base writing
  obtain ⟨groups, rest, flat, buffer, -⟩ := writing.parts
  rw [(List.append_eq_nil_iff.mp flat.symm).2] at buffer
  refine (RunWriter.addAll_blank blank buffer records).mono ?_ fun _ _ h => h.elim
  rintro _ _ rfl
  refine ⟨⟨_, _, rfl⟩, ⟨.empty, ?_⟩, .refl _ _⟩
  rw [ByteArray.append_empty]
  exact writing

omit [TakesSpace ρ] in
/-- With a file, only a hindrance keeps a run from being written. -/
theorem writeRun_hindered (hfile : b.file = some file) (records : List ρ) (s : Store) :
    Leads (b.writeRun records) s (fun _ _ => True)
      (fun e _ => Hindrance b.options.activeProtector e) := by
  apply writeRun_of hfile
  refine (RunWriter.begin_hindered b.options file s).mono ?_ fun _ _ h => h
  intro w t same
  rw [← same]
  refine (RunWriter.addAll_hindered records w t).mono ?_ fun _ _ h => h
  rintro _ ⟨w', u⟩ same'
  rw [← same']
  exact RunWriter.finish_hindered w' u

/-! ## Runs in the log -/

/-- A reader at the beginning of a run that stands in the log. -/
structure Stored (file : FileRef) (hook : Option Protector) (database : Option String)
    (log : ByteArray) (run : RunReader ρ) (xs : List ρ) : Prop where
  reader : ∃ path, run = RunReader.ofExtent file path run.extent hook database
  runAt : RunWriter.RunAt hook database log run.extent.start.toNat run.extent.stop.toNat
    run.extent.checksum xs
  some : xs ≠ []

namespace Stored

variable {hook : Option Protector} {database : Option String} {log : ByteArray}
  {run : RunReader ρ} {xs : List ρ}

omit [TakesSpace ρ] in
theorem grow (h : Stored file hook database log run xs) (bytes : ByteArray) :
    Stored file hook database (log ++ bytes) run xs :=
  ⟨h.reader, h.runAt.grow bytes, h.some⟩

omit [TakesSpace ρ] in
theorem gives (h : Stored file hook database log run xs) :
    RunReader.Gives file log run xs ∧ run.drained = true := by
  obtain ⟨⟨path, eq⟩, runAt, -⟩ := h
  rw [eq]
  exact ⟨runAt.gives file path, rfl⟩

end Stored

/-- A reader fails on its first record, because what is left to be written out does not fit on the
    disk, or everything is on disk. -/
theorem openable [LawfulStorable ρ] (file : FileRef) (log : ByteArray) :
    Merge.Openable (S := Store)
      (fun (run : RunReader ρ) xs => RunReader.Gives file log run xs ∧ run.drained = true)
      (RunReader.Gives file log) (fun s => s.Carries file log)
      (fun s e => e.IsDiskFailure ∧ (s.file file).Stuck s.disk) (fun s => s.Ready file log) where
  calm ready := ⟨ready.carries, fun _ risk => risk.2.some ready.flushed.pending⟩
  first {run x xs s} fresh carries := by
    obtain ⟨gives, drained⟩ := fresh
    rcases RunReader.next_eq gives carries with
      ⟨run', s', hnext, gives', -, rest⟩ | fails
    · refine .inl ⟨run', s', hnext, gives', ?_⟩
      rcases rest with ⟨-, none | full⟩ | ready
      · exact absurd none (by simp)
      · exact absurd (drained.symm.trans full) (by simp)
      · exact ready
    · exact .inr fails

end Backing

/-! ## What comes out -/

/-- Reading the result of a sorter to its end gives the records, and no error. -/
def Drains {ρ : Type} [Storable ρ] (sorted : Sorted ρ) (s : Store) (xs : List ρ) : Prop :=
  ∀ count, xs.length < count →
    ((SortedSource.drain count sorted : StoreM _).run s).1.1 = (xs, .finished)

/-- Reading the result of a sorter to its end gives the records, and closing it then finds nothing
    wrong. -/
def ReadsOut {ρ : Type} [Storable ρ] (sorted : Sorted ρ) (s : Store) (xs : List ρ) : Prop :=
  ∀ count, xs.length < count → ∃ sorted' s',
    (SortedSource.drain count sorted : StoreM _).run s = (((xs, .finished), sorted'), s') ∧
      ((SortedSource.close sorted' : StoreM _).run s').1.1 = .ok ()

section Drains

open SortedSource (GivesEither Reliable)

variable {ρ : Type} [Storable ρ]

theorem ReadsOut.drains {sorted : Sorted ρ} {s : Store} {xs : List ρ} (h : ReadsOut sorted s xs) :
    Drains sorted s xs := by
  intro count long
  obtain ⟨sorted', s', hdrain, -⟩ := h count long
  rw [hdrain]

theorem readsOut_inMemory (xs : List ρ) (s : Store) : ReadsOut (.inl ⟨xs⟩) s xs := by
  have merge : Reliable (S := Store) (fun (_ : Merge (RunReader ρ) ρ) _ => False) fun _ => True :=
    ⟨fun h => h.elim, fun h => h.elim, fun h => h.elim⟩
  intro count long
  exact ((SortedSource.inMemory_reliable fun _ => True).either merge).drain_close_eq rfl trivial long

theorem readsOut_merge [TakesSpace ρ] [LawfulStorable ρ] {file : FileRef} {log : ByteArray}
    {order : Comparator ρ} [Std.TransCmp order] {q : Merge (RunReader ρ) ρ} {xs : List ρ}
    {s : Store} (gives : Merge.Gives (RunReader.Gives file log) order q xs)
    (ready : s.Ready file log) : ReadsOut (.inr q) s xs := by
  intro count long
  exact ((SortedSource.inMemory_reliable fun s : Store => s.Ready file log).either
    (Merge.reliable (RunReader.reliable file log))).drain_close_eq gives ready long

end Drains

/-! ## What options say -/

namespace Options

variable {options : Options} {forbidden : Bool}

/-- The number of records that a sorter gives out at most. -/
def most (options : Options) : Nat :=
  if options.limit = 0 then Merge.unlimited else options.limit.toNat

/-- The path of the spill file that a sorter gets. -/
def spillPath (options : Options) (names : NameSource) : Path :=
  (options.spillDirectory.getD default).join ⟨names.next.1⟩

/-- Valid options that allow to spill say where, and the process does not forbid it. -/
theorem can_spill_of_valid (valid : options.validate forbidden = .ok ())
    (allowed : options.spillAllowed = true) :
    options.hasSpillDirectory = true ∧ forbidden = false := by
  by_cases zero : options.memoryBudget = 0
  · simp [validate, zero, bind, Except.bind, throw, throwThe, MonadExceptOf.throw] at valid
  · cases directory : options.hasSpillDirectory with
    | false =>
      simp [validate, zero, allowed, directory, bind, Except.bind, throw, throwThe,
        MonadExceptOf.throw] at valid
    | true =>
      cases forbidden with
      | false => exact ⟨rfl, rfl⟩
      | true =>
        simp [validate, checkPermitted, zero, allowed, directory] at valid

theorem exists_directory (valid : options.validate forbidden = .ok ())
    (allowed : options.spillAllowed = true) :
    ∃ directory, options.spillDirectory = some directory := by
  have has := (can_spill_of_valid valid allowed).1
  rw [hasSpillDirectory] at has
  cases hdirectory : options.spillDirectory with
  | some directory => exact ⟨directory, rfl⟩
  | none =>
    rw [hdirectory] at has
    cases has

end Options

/-! ## The disk side of a sorter -/

namespace Backing

variable {ρ : Type} [Storable ρ] {options : Options} {b : Backing ρ} {s : Store}
  {lists : List (List ρ)}

/-- The file of a backing, and its runs with their records. -/
structure Stands (options : Options) (b : Backing ρ) (s : Store) (lists : List (List ρ)) :
    Prop where
  sameOptions : b.options = options
  faithful : FaithfulHook options.activeProtector
  usable : ∀ file, b.file = some file → s.Known file ∧ (s.file file).Usable s.disk
  runs : ∃ runs : List (RunReader ρ × List ρ), b.runs.toList = runs.map (·.1) ∧
    lists = runs.map (·.2) ∧
    (runs = [] ∨ ∃ file log, b.file = some file ∧ (s.file file).Holds s.disk log ∧
      Extent.Lined log.size (runs.map (·.1.extent)) ∧
      ∀ p ∈ runs, Stored file options.activeProtector options.database log p.1 p.2)

/-- The last write of a backing was cut short. -/
def IsCut (b : Backing ρ) (s : Store) : Prop :=
  ∃ file, b.file = some file ∧ (s.file file).Cut s.disk

instance (b : Backing ρ) (s : Store) : Decidable (b.IsCut s) :=
  match h : b.file with
  | none => .isFalse fun ⟨_, hfile, _⟩ => by cases h.symm.trans hfile
  | some file => decidable_of_iff ((s.file file).Cut s.disk)
      ⟨fun cut => ⟨file, h, cut⟩, fun ⟨_, hfile, cut⟩ => by
        obtain rfl := Option.some.inj (h.symm.trans hfile)
        exact cut⟩

/-- What a sorter goes through: its file stays the same, and runs are only added. -/
structure Follows (b : Backing ρ) (s : Store) (b' : Backing ρ) (s' : Store) : Prop extends
    Store.Around s s' where
  file : b'.file = b.file
  finished : b'.finished = b.finished
  runs : b.runs.toList <+: b'.runs.toList
  frame : ∀ file, b.file = some file → SpillFile.Frame (s.view file) (s'.view file)

omit [Storable ρ] in
theorem Follows.refl (b : Backing ρ) (s : Store) : Follows b s b s :=
  ⟨.refl s, rfl, rfl, List.prefix_rfl, fun _ _ => .refl _⟩

omit [Storable ρ] in
/-- What a backing counts does not matter. -/
theorem Follows.of_eq {b₁ b₂ b' : Backing ρ} {s s' : Store} (follows : Follows b₁ s b' s')
    (hfile : b₁.file = b₂.file) (hfinished : b₁.finished = b₂.finished) (hruns : b₁.runs = b₂.runs) :
    Follows b₂ s b' s' :=
  ⟨follows.toAround, follows.file.trans hfile, follows.finished.trans hfinished,
    hruns ▸ follows.runs, hfile ▸ follows.frame⟩

/-- Only the options, the file and the runs of a backing matter. -/
theorem Stands.of_eq (stands : Stands options b s lists) {b' : Backing ρ}
    (hoptions : b'.options = b.options) (hfile : b'.file = b.file) (hruns : b'.runs = b.runs) :
    Stands options b' s lists := by
  obtain ⟨sameOptions, faithful, usable, runs⟩ := stands
  refine ⟨hoptions.trans sameOptions, faithful, ?_, ?_⟩
  · rw [hfile]
    exact usable
  · rw [hruns, hfile]
    exact runs

theorem Stands.size_runs (stands : Stands options b s lists) : b.runs.size = lists.length := by
  obtain ⟨runs, hruns, rfl, -⟩ := stands.runs
  rw [← Array.length_toList, hruns, List.length_map, List.length_map]

theorem Stands.isEmpty_runs (stands : Stands options b s lists) :
    b.runs.isEmpty = lists.isEmpty := by
  rw [Bool.eq_iff_iff, Array.isEmpty_iff_size_eq_zero, List.isEmpty_iff_length_eq_zero,
    stands.size_runs]

/-- The runs stay where they are when the log gets longer. -/
theorem Stands.of_holds (stands : Stands options b s lists) {file : FileRef} {s' : Store}
    (hfile : b.file = some file) (known : s'.Known file) (usable : (s'.file file).Usable s'.disk)
    (grows : ∀ log, (s.file file).Holds s.disk log →
      ∃ more, (s'.file file).Holds s'.disk (log ++ more)) : Stands options b s' lists := by
  obtain ⟨sameOptions, faithful, -, runs, hruns, hlists, stored⟩ := stands
  refine ⟨sameOptions, faithful, fun file' hfile' => ?_, runs, hruns, hlists, ?_⟩
  · obtain rfl := Option.some.inj (hfile.symm.trans hfile')
    exact ⟨known, usable⟩
  -- what stands in the log stands in a longer one
  · rcases stored with none | ⟨file', log, hfile', holds, lined, stored⟩
    · exact .inl none
    · obtain rfl := Option.some.inj (hfile.symm.trans hfile')
      obtain ⟨more, holds'⟩ := grows log holds
      refine .inr ⟨file, log ++ more, hfile, holds', lined.raise ?_, fun p hp =>
        (stored p hp).grow more⟩
      rw [ByteArray.size_append]
      exact Nat.le_add_right _ _

omit [Storable ρ] in
/-- A new backing has no runs yet. -/
theorem ofOptions_empty (ρ : Type) (options : Options) (s : Store) :
    ((ofOptions options : StoreM (Backing ρ)).run s).1.runs = #[] ∧
      ((ofOptions options : StoreM (Backing ρ)).run s).1.finished = false ∧
      ((ofOptions options : StoreM (Backing ρ)).run s).1.options = options := by
  rw [ofOptions]
  split
  · exact ⟨rfl, rfl, rfl⟩
  · exact ⟨rfl, rfl, rfl⟩

omit [Storable ρ] in
theorem accepting_of_requireAccepting (h : b.requireAccepting = .ok ()) : b.finished = false := by
  cases hfinished : b.finished with
  | true =>
    rw [requireAccepting, hfinished] at h
    cases h
  | false => rfl

omit [Storable ρ] in
/-- As long as records are taken, none is refused for coming late. -/
theorem not_refused (accepting : b.finished = false) (e : Failure) :
    b.requireAccepting ≠ .error e := by
  rw [requireAccepting, accepting]
  exact fun refused => by cases refused

omit [Storable ρ] in
theorem accepting_of_requireUnfinished (h : b.requireUnfinished = .ok ()) :
    b.finished = false := by
  cases hfinished : b.finished with
  | true =>
    rw [requireUnfinished, hfinished] at h
    cases h
  | false => rfl

omit [Storable ρ] in
theorem finished_of_requireUnfinished {e : Failure} (h : b.requireUnfinished = .error e) :
    b.finished = true := by
  cases hfinished : b.finished with
  | true => rfl
  | false =>
    rw [requireUnfinished, hfinished] at h
    cases h

omit [Storable ρ] in
/-- As long as records are taken, the sorter can be done. -/
theorem not_again (accepting : b.finished = false) (e : Failure) :
    b.requireUnfinished ≠ .error e :=
  fun refused => absurd (accepting.symm.trans (finished_of_requireUnfinished refused)) (by simp)

variable [TakesSpace ρ]

omit [TakesSpace ρ] in
/-- A finished run goes behind the runs there are. -/
theorem Stands.push (stands : Stands options b s lists) {file : FileRef} (hfile : b.file = some file)
    (known : s.Known file) {records : List ρ} (some : records ≠ []) {run : RunReader ρ}
    {base : ByteArray} {s' : Store}
    (finished : RunWriter.Finished file b.options.activeProtector b.options.database base records
      run s')
    (same : ∀ log, (s.file file).Holds s.disk log → base = log) (beside : s.Beside file s') :
    Stands options { b with runs := b.runs.push run } s' (lists ++ [records]) := by
  obtain ⟨rfl, faithful, -, runs, hruns, rfl, stored⟩ := stands
  obtain ⟨⟨path, extent, reader⟩, h, more, isOpen, runAt, spans⟩ := finished
  obtain ⟨start, stop⟩ := spans.toNat_eq (runAt.lt some)
  have last : Stored file b.options.activeProtector b.options.database (base ++ more) run
      records := by
    refine ⟨⟨path, by rw [reader]; rfl⟩, ?_, some⟩
    rw [start, stop]
    exact runAt
  -- the run begins where the log ended, so the runs before it end there at the latest
  have earlier : Extent.Lined base.size (runs.map (·.1.extent)) ∧
      ∀ p ∈ runs, Stored file b.options.activeProtector b.options.database base p.1 p.2 := by
    rcases stored with rfl | ⟨file', log, hfile', holds, lined, stored⟩
    · exact ⟨.nil _, by simp⟩
    · obtain rfl := Option.some.inj (hfile.symm.trans hfile')
      obtain rfl := same log holds
      exact ⟨lined, stored⟩
  refine ⟨rfl, faithful, fun file' hfile' => ?_, runs ++ [(run, records)], ?_, ?_,
    .inr ⟨file, base ++ more, hfile, .opened isOpen, ?_, fun p hp => ?_⟩⟩
  · obtain rfl := Option.some.inj (hfile.symm.trans hfile')
    exact ⟨beside.known known, .inr ⟨h, _, isOpen⟩⟩
  · rw [Array.toList_push, hruns, List.map_append]
    rfl
  · rw [List.map_append]
    rfl
  · rw [List.map_append]
    exact earlier.1.concat start stop runAt.le
  · rcases List.mem_append.mp hp with hp | hp
    · exact (earlier.2 p hp).grow more
    · obtain rfl := List.mem_singleton.mp hp
      exact last

omit [TakesSpace ρ] in
/-- What a failed attempt to write a run leaves of a file has the runs there were, unless its last
    write was cut short. -/
theorem Stands.of_survives (stands : Stands options b s lists) {file : FileRef}
    (hfile : b.file = some file) {s' : Store} (known : s'.Known file)
    (survives : s.Survives file s') : Stands options b s' lists ∨ b.IsCut s' := by
  rcases survives with rfl | ⟨unopened, same⟩ | ⟨base, same, -, ⟨h, more, isOpen⟩ | cut⟩
  · exact .inl stands
  · -- the file could not be opened before, so no run stood in it
    exact .inl (stands.of_holds hfile known (.inl unopened) fun log holds =>
      absurd holds (same log))
  · refine .inl (stands.of_holds hfile known (.inr ⟨h, _, isOpen⟩) fun log holds => ?_)
    obtain rfl := same log holds
    exact ⟨more, .opened isOpen⟩
  · exact .inr ⟨file, hfile, cut⟩

/-- A run is added to the backing. When that fails the runs are as they were, or the last write was
    cut short. -/
theorem Stands.writeRun (stands : Stands options b s lists) {records : List ρ}
    (some : records ≠ []) :
    Leads (b.writeRun records) s
      (fun run s' => Stands options { b with runs := b.runs.push run } s' (lists ++ [records]) ∧
        Follows b s { b with runs := b.runs.push run } s')
      (fun _ s' => (Stands options b s' lists ∨ b.IsCut s') ∧ Store.Around s s') := by
  -- without a file nothing is written, and the failure is told
  rcases Option.eq_none_or_eq_some b.file with hfile | ⟨file, hfile⟩
  · rw [Backing.writeRun, spillFile, hfile]
    exact Leads.bind (Leads.of_lift (fun _ h => absurd h (by simp))
      fun _ _ => ⟨.inl stands, .refl s⟩)
  · obtain ⟨known, usable⟩ := stands.usable file hfile
    have faithful : FaithfulHook b.options.activeProtector := by
      rw [stands.sameOptions]
      exact stands.faithful
    refine (writeRun_leads faithful hfile known usable records).mono ?_ ?_
    · rintro run s' ⟨⟨base, finished, same⟩, -, beside⟩
      refine ⟨stands.push hfile known some finished same beside, beside.toAround, rfl, rfl, ?_,
        fun file' hfile' => ?_⟩
      · rw [Array.toList_push]
        exact List.prefix_append _ _
      · obtain rfl := Option.some.inj (hfile.symm.trans hfile')
        exact beside.frame
    · rintro e s' ⟨survives, around⟩
      exact ⟨stands.of_survives hfile (around.known known) survives, around⟩

/-- What is left to be written out does not fit on the disk. -/
def Stuck (b : Backing ρ) (s : Store) : Prop :=
  ∃ file, b.file = some file ∧ (s.file file).Stuck s.disk

/-- Merging the runs gives out the first records of the stable sort of all of them. It fails only if
    what is left to be written out does not fit on the disk. -/
theorem Stands.mergeRuns [LawfulStorable ρ] {order : Comparator ρ} [Std.TransCmp order]
    (stands : Stands options b s lists) (some : lists ≠ [])
    (inOrder : ∀ xs ∈ lists, InOrder order xs) :
    Leads (b.mergeRuns order) s
      (fun sorted s' => ReadsOut sorted s' (leading order options.most lists.flatten))
      (fun e _ => e.IsDiskFailure ∧ b.Stuck s) := by
  obtain ⟨rfl, -, usable, runs, hruns, rfl, stored⟩ := stands
  rcases stored with rfl | ⟨file, log, hfile, holds, -, stored⟩
  · exact absurd rfl some
  -- every run gives its records, since the file carries the log they stand in
  have merged := Merge.ofSources_eq (openable file log)
    (fun p hp => ⟨(stored p hp).gives, (stored p hp).some⟩)
    (fun p hp => inOrder p.2 (List.mem_map_of_mem hp)) (fun none => some (by rw [none]; rfl))
    b.options.limit b.options.verifyOrder ⟨(usable file hfile).1, holds⟩
  rw [Backing.mergeRuns, hruns]
  refine Leads.bind ?_
  rcases merged with ⟨q, s', hmerge, gives, ready⟩ | ⟨e, s', hmerge, failure, stuck⟩
  · exact Leads.of_runOn_ok hmerge (Leads.of_pure (readsOut_merge gives ready))
  · exact Leads.of_runOn_error hmerge ⟨failure, file, hfile, stuck⟩

omit [Storable ρ] [TakesSpace ρ] in
/-- A new backing has no file, or one with the next name in the directory of the options. -/
theorem ofOptions_cases (ρ : Type) (options : Options) (s : Store) :
    (ofOptions options : StoreM (Backing ρ)).run s = ({ options, file := none }, s) ∨
      ∃ directory name t, options.spillDirectory = some directory ∧ name = s.names.next.1 ∧
        (ofOptions options : StoreM (Backing ρ)).run s =
          ({ options, file := some ((Store.register (directory.join ⟨name⟩)).run t).1 },
            ((Store.register (directory.join ⟨name⟩)).run t).2) := by
  rw [ofOptions]
  split
  · rename_i directory hdirectory _
    exact .inr ⟨directory, _, { s with names := s.names.next.2 }, hdirectory, rfl, rfl⟩
  · exact .inl rfl

omit [TakesSpace ρ] in
/-- A new backing has no runs, and its file was not opened. -/
theorem ofOptions_stands (ρ : Type) [Storable ρ] (faithful : FaithfulHook options.activeProtector)
    (s : Store) :
    ((ofOptions options : StoreM (Backing ρ)).run s).1.finished = false ∧
      Stands options ((ofOptions options : StoreM (Backing ρ)).run s).1
        ((ofOptions options : StoreM (Backing ρ)).run s).2 [] := by
  rcases ofOptions_cases ρ options s with run | ⟨directory, name, t, -, -, run⟩ <;> rw [run]
  · exact ⟨rfl, rfl, faithful, (by simp), [], rfl, rfl, .inl rfl⟩
  · obtain ⟨known, fresh⟩ := Store.register_run (directory.join ⟨name⟩) t
    refine ⟨rfl, rfl, faithful, fun file hfile => ?_, [], rfl, rfl, .inl rfl⟩
    obtain rfl := Option.some.inj hfile
    have unopened : SpillFile.Unopened { path := directory.join ⟨name⟩ } := ⟨rfl, rfl⟩
    rw [← fresh] at unopened
    exact ⟨known, .inl unopened⟩

/-- A manifest describes the runs, which are on disk to stay. -/
structure Described (b : Backing ρ) (s : Store) (m : Manifest) (s' : Store) : Prop extends
    Store.Around s s' where
  extents : m.extents = b.runs.toList.map (·.extent)
  onDisk : ∃ file, b.file = some file ∧ m.fileName = (s'.file file).fileName ∧
    (s'.file file).path = (s.file file).path ∧ (s'.file file).kept = true ∧
    (s'.file file).pending = .empty ∧
    ((s.file file).Linked s.disk → (s'.file file).Linked s'.disk)

omit [Storable ρ] [TakesSpace ρ] in
/-- Nothing is left to be written out of runs that were described. -/
theorem Described.not_stuck {m : Manifest} {s' : Store} (h : b.Described s m s') :
    ¬ b.Stuck s' := by
  obtain ⟨-, -, file, hfile, -, -, -, none, -⟩ := h
  rintro ⟨file', hfile', stuck⟩
  obtain rfl := Option.some.inj (hfile.symm.trans hfile')
  exact stuck.some none

omit [Storable ρ] [TakesSpace ρ] in
/-- A manifest describes the runs, once the file was written out. What is true of the file then stays
    true if it does not depend on whether the file stays. -/
theorem manifest_leads {file : FileRef} (hfile : b.file = some file) (known : s.Known file)
    (ok : SpillFile × Disk → Prop) {err : SortError → SpillFile × Disk → Prop}
    (hflush : Leads SpillFile.flush (s.view file)
      (fun _ p => p.1.pending = .empty ∧ SpillFile.Frame (s.view file) p ∧ ok p) err)
    (hkeep : ∀ p, ok p → ok ({ p.1 with kept := true }, p.2)) :
    Leads b.manifest s (fun m s' => b.Described s m s' ∧ ok (s'.view file))
      (fun e s' => err e (s'.view file) ∧ Store.Around s s') := by
  apply manifest_of hfile
  refine (Store.onFile_leads known hflush).mono ?_ fun _ _ h => h
  rintro _ t ⟨⟨none, frame, holds⟩, around⟩
  -- that the file is kept is told to the file alone; the disk is as it was
  have keep : Leads SpillFile.keep (t.view file)
      (fun _ p => p = ({ t.file file with kept := true }, t.disk)) fun _ _ => False :=
    Leads.of_modify₂ rfl
  refine (Store.onFile_leads (around.known known) keep).mono ?_ fun _ _ h => h.1.elim
  rintro _ u ⟨view, around'⟩
  obtain ⟨file_eq, disk_eq⟩ := Prod.mk.inj view
  refine ⟨⟨around.trans around', rfl, file, hfile, rfl, ?_⟩, ?_⟩
  · rw [file_eq, disk_eq]
    exact ⟨frame.path, rfl, none, frame.linked⟩
  · rw [view]
    exact hkeep _ holds

omit [TakesSpace ρ] in
/-- The file of a backing is written out, and stays. -/
theorem Stands.manifest (stands : Stands options b s lists) :
    Leads b.manifest s (fun m s' => Stands options b s' lists ∧ b.Described s m s')
      (fun _ s' => (Stands options b s' lists ∨ b.IsCut s') ∧ Store.Around s s') := by
  rcases Option.eq_none_or_eq_some b.file with hfile | ⟨file, hfile⟩
  · rw [Backing.manifest, spillFile, hfile]
    exact Leads.bind (Leads.of_lift (fun _ h => absurd h (by simp)) fun _ _ => ⟨.inl stands, .refl s⟩)
  · obtain ⟨known, usable⟩ := stands.usable file hfile
    -- the log is the same after both steps, on disk and kept
    have same {s' : Store} (known' : s'.Known file)
        (stays : SpillFile.Stays (s.view file) (s'.view file)) : Stands options b s' lists :=
      stands.of_holds hfile known' stays.usable fun log holds =>
        ⟨.empty, by rw [ByteArray.append_empty]; exact stays.holds log holds⟩
    have flushed := (SpillFile.flush_of_usable usable).mono
      (fun _ p h => And.intro h.1 (And.intro h.2.2 h.2.1)) fun _ _ h => h
    refine (manifest_leads hfile known _ flushed fun p stays => ?_).mono ?_ ?_
    · have kept := SpillFile.stays_keep stays.usable
      exact ⟨kept.usable, fun log holds => kept.holds log (stays.holds log holds)⟩
    · rintro m s' ⟨described, stays⟩
      exact ⟨same (described.toAround.known known) stays, described⟩
    · rintro _ t ⟨⟨rest, -⟩, around⟩
      exact ⟨rest.imp (same (around.known known)) fun cut => ⟨file, hfile, cut⟩, around⟩

/-! ## The records in the runs -/

/-- The records in the runs of a backing, up to the order of unequal ones. -/
def Spilled (options : Options) (order : Comparator ρ) (b : Backing ρ) (s : Store)
    (spilled : List ρ) : Prop :=
  ∃ lists, Stands options b s lists ∧ (∀ xs ∈ lists, InOrder order xs) ∧
    Ties order lists.flatten spilled

section Spilled

variable {order : Comparator ρ} {spilled : List ρ}

omit [TakesSpace ρ] in
theorem Spilled.nil (stands : Stands options b s []) : Spilled options order b s [] :=
  ⟨[], stands, (by simp), Ties.refl []⟩

omit [TakesSpace ρ] in
theorem Spilled.of_eq (h : Spilled options order b s spilled) {b' : Backing ρ}
    (hoptions : b'.options = b.options) (hfile : b'.file = b.file) (hruns : b'.runs = b.runs) :
    Spilled options order b' s spilled := by
  obtain ⟨lists, stands, rest⟩ := h
  exact ⟨lists, stands.of_eq hoptions hfile hruns, rest⟩

variable [Std.TransCmp order]

omit [TakesSpace ρ] in
theorem Spilled.eq_nil (h : Spilled options order b s spilled) (none : b.runs.isEmpty = true) :
    spilled = [] := by
  obtain ⟨lists, stands, -, ties⟩ := h
  rw [stands.isEmpty_runs, List.isEmpty_iff] at none
  subst none
  exact List.nil_perm.mp ties.perm

omit [Storable ρ] [TakesSpace ρ] in
/-- After a spill there are still runs if there were some. -/
theorem isEmpty_runs_of_more {b' : Backing ρ} {none : Prop} (some : ¬ b.runs.isEmpty = true)
    (h : none ∧ b'.runs.size = b.runs.size ∨ b'.runs.size = b.runs.size + 1) :
    b'.runs.isEmpty = false := by
  rw [← Bool.not_eq_true, Array.isEmpty_iff_size_eq_zero]
  rw [Array.isEmpty_iff_size_eq_zero] at some
  rcases h with ⟨-, same⟩ | more
  · exact fun zero => some (same.symm.trans zero)
  · exact fun zero => Nat.succ_ne_zero _ (more.symm.trans zero)

/-- Records that are written as a run are among those in the runs. -/
theorem Spilled.writeRun (h : Spilled options order b s spilled) {xs records : List ρ}
    (inOrder : InOrder order xs) (ties : Ties order xs records) (some : records ≠ []) :
    Leads (b.writeRun xs) s
      (fun run s' =>
        Spilled options order { b with runs := b.runs.push run } s' (spilled ++ records) ∧
          Follows b s { b with runs := b.runs.push run } s')
      (fun _ s' => (Spilled options order b s' spilled ∨ b.IsCut s') ∧ Store.Around s s') := by
  obtain ⟨lists, stands, before, ties'⟩ := h
  have some' : xs ≠ [] := by
    rintro rfl
    exact some (List.nil_perm.mp ties.perm)
  apply (stands.writeRun some').mono
  · rintro run s' ⟨stands', follows⟩
    refine ⟨⟨lists ++ [xs], stands', ?_, ?_⟩, follows⟩
    · intro ys hys
      rcases List.mem_append.mp hys with hys | hys
      · exact before ys hys
      · rw [List.mem_singleton.mp hys]
        exact inOrder
    · rw [List.flatten_append, List.flatten_singleton]
      exact ties'.append ties
  · rintro e s' ⟨rest, around⟩
    exact ⟨rest.imp (fun stands' => ⟨lists, stands', before, ties'⟩) id, around⟩

/-- Merging the runs gives out the first records of the stable sort of what is in them. -/
theorem Spilled.mergeRuns [LawfulStorable ρ] (h : Spilled options order b s spilled)
    (some : b.runs.isEmpty = false) :
    Leads (b.mergeRuns order) s
      (fun sorted s' => ReadsOut sorted s' (leading order options.most spilled))
      (fun e _ => e.IsDiskFailure ∧ b.Stuck s) := by
  obtain ⟨lists, stands, inOrder, ties⟩ := h
  have some' : lists ≠ [] := by
    rintro rfl
    rw [stands.isEmpty_runs] at some
    exact Bool.noConfusion some
  rw [← leading_congr ties]
  exact stands.mergeRuns some' inOrder

omit [TakesSpace ρ] [Std.TransCmp order] in
/-- The runs stay when they are described. -/
theorem Spilled.manifest (h : Spilled options order b s spilled) :
    Leads b.manifest s (fun m s' => Spilled options order b s' spilled ∧ b.Described s m s')
      (fun _ s' => (Spilled options order b s' spilled ∨ b.IsCut s') ∧ Store.Around s s') := by
  obtain ⟨lists, stands, rest⟩ := h
  apply stands.manifest.mono
  · rintro m s' ⟨stands', described⟩
    exact ⟨⟨lists, stands', rest⟩, described⟩
  · rintro e s' ⟨stands', around⟩
    exact ⟨stands'.imp (fun stands' => ⟨lists, stands', rest⟩) id, around⟩

end Spilled

end Backing

/-! ## How a call ends -/

section Ends

variable {ρ : Type} {Keeps : List ρ → List ρ → Prop} {n runs : Nat} {spilled buffered : List ρ}

/-- Where there were `n` runs, the buffer stays where it is, or it moves into one more run. `Keeps`
    says what is in the runs and what is in the buffer. -/
inductive Took (Keeps : List ρ → List ρ → Prop) (n runs : Nat) (spilled buffered : List ρ) : Prop
  | stays (keeps : Keeps spilled buffered) (same : runs = n)
  | moves (keeps : Keeps (spilled ++ buffered) []) (more : runs = n + 1)

/-- How a call may end that fails: nothing is lost, or the buffer is, or the last write was cut
    short. -/
inductive Ends (Keeps : List ρ → List ρ → Prop) (Lost Cut : Prop) (n runs : Nat)
    (spilled buffered : List ρ) : Prop
  | took (took : Took Keeps n runs spilled buffered)
  | loses (lost : Lost) (some : buffered ≠ []) (same : runs = n)
  | cut (cut : Cut)

theorem Took.of_spilled (keeps : Keeps (spilled ++ buffered) [])
    (h : buffered = [] ∧ runs = n ∨ runs = n + 1) : Took Keeps n runs spilled buffered := by
  rcases h with ⟨rfl, same⟩ | more
  · rw [List.append_nil] at keeps
    exact .stays keeps same
  · exact .moves keeps more

theorem Took.exists_keeps (h : Took Keeps n runs spilled buffered) :
    ∃ spilled' buffered', spilled' ++ buffered' = spilled ++ buffered ∧
      Keeps spilled' buffered' := by
  cases h with
  | stays keeps => exact ⟨spilled, buffered, rfl, keeps⟩
  | moves keeps => exact ⟨spilled ++ buffered, [], List.append_nil _, keeps⟩

end Ends
end ExternalSort
