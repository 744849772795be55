/-
  ExternalSort.Proofs.Sorter.Persisted

  Runs that one sorter leaves to another.

  What a sorter persisted stands on disk where its manifest says, also after the
  sorter is gone. A sorter that takes up the manifest has the same runs, whatever
  its budget is.
-/

import ExternalSort.Proofs.Disk.Path
import ExternalSort.Proofs.Sorter.Strategies

namespace ExternalSort

variable {ρ : Type} [Storable ρ] {options options' : Options} {s : Store}

/-! ## Runs on disk -/

/-- The runs that a manifest tells of stand on disk, with these records. -/
structure Manifest.Describes (m : Manifest) (options : Options) (d : Disk)
    (lists : List (List ρ)) : Prop where
  plain : Path.Plain m.fileName
  runs : ∃ runs : List (Extent × List ρ), m.extents = runs.map (·.1) ∧ lists = runs.map (·.2) ∧
    (runs = [] ∨ ∃ directory log, options.spillDirectory = some directory ∧
      (d.HasParents (directory.join ⟨m.fileName⟩) ∧
        d.contentAt (directory.join ⟨m.fileName⟩) = .ok log) ∧
      Extent.Lined log.size m.extents ∧
      ∀ p ∈ runs, RunWriter.RunAt options.activeProtector options.database log p.1.start.toNat
        p.1.stop.toNat p.1.checksum p.2 ∧ p.2 ≠ [])

/-- Options that differ in nothing that the form and the place of runs depend on. -/
structure Options.Alike (options options' : Options) : Prop where
  directory : options'.spillDirectory = options.spillDirectory
  protector : options'.activeProtector = options.activeProtector
  database : options'.database = options.database

theorem Options.Alike.symm (h : options.Alike options') : options'.Alike options :=
  ⟨h.directory.symm, h.protector.symm, h.database.symm⟩

theorem Options.Alike.trans {options'' : Options} (h : options.Alike options')
    (k : options'.Alike options'') : options.Alike options'' :=
  ⟨k.directory.trans h.directory, k.protector.trans h.protector, k.database.trans h.database⟩

theorem Manifest.Describes.alike {m : Manifest} {d : Disk} {lists : List (List ρ)}
    (h : m.Describes options d lists) (alike : options.Alike options') :
    m.Describes options' d lists := by
  obtain ⟨plain, runs⟩ := h
  rw [← alike.directory, ← alike.protector, ← alike.database] at runs
  exact ⟨plain, runs⟩

theorem Manifest.Describes.checkExtents {m : Manifest} {d : Disk} {lists : List (List ρ)}
    (h : m.Describes options d lists) : m.checkExtents = .ok () := by
  obtain ⟨-, runs, extents, -, none | ⟨_, _, -, -, lined, -⟩⟩ := h
  · have lined : Extent.Lined 0 m.extents := by
      rw [extents, none]
      exact .nil 0
    exact checkExtents_of_lined lined
  · exact checkExtents_of_lined lined

namespace Backing

variable {b b' : Backing ρ} {s' : Store} {lists : List (List ρ)} {name : String}

/-- The file of a backing is the one of a name in the directory of the options, and its path leads
    to it. -/
structure Housed (options : Options) (name : String) (b : Backing ρ) (s : Store) : Prop where
  plain : Path.Plain name
  path : ∀ file, b.file = some file → ∃ directory, options.spillDirectory = some directory ∧
    (s.file file).path = directory.join ⟨name⟩
  linked : ∀ file, b.file = some file → (s.file file).Linked s.disk

/-- What a sorter goes through when it also persists its runs. -/
structure Advances (b : Backing ρ) (s : Store) (b' : Backing ρ) (s' : Store) : Prop extends
    Store.Around s s' where
  file : b'.file = b.file
  runs : b.runs.toList <+: b'.runs.toList
  path : ∀ file, b.file = some file → (s'.file file).path = (s.file file).path
  linked : ∀ file, b.file = some file → (s.file file).Linked s.disk → (s'.file file).Linked s'.disk

omit [Storable ρ] in
theorem Follows.advances (h : Follows b s b' s') : Advances b s b' s' :=
  ⟨h.toAround, h.file, h.runs, fun file hfile => (h.frame file hfile).path,
    fun file hfile => (h.frame file hfile).linked⟩

omit [Storable ρ] in
theorem Described.advances {m : Manifest} (h : b.Described s m s') : Advances b s b s' := by
  obtain ⟨around, -, file, hfile, -, path, -, -, linked⟩ := h
  refine ⟨around, rfl, List.prefix_rfl, fun file' hfile' => ?_, fun file' hfile' => ?_⟩ <;>
    obtain rfl := Option.some.inj (hfile.symm.trans hfile')
  · exact path
  · exact linked

omit [Storable ρ] in
/-- Only the file and the runs of a backing matter. -/
theorem Advances.of_eq (hfile : b'.file = b.file) (hruns : b'.runs = b.runs) :
    Advances b s b' s :=
  ⟨.refl s, hfile, hruns ▸ List.prefix_rfl, fun _ _ => rfl, fun _ _ => id⟩

omit [Storable ρ] in
theorem Advances.refl (b : Backing ρ) (s : Store) : Advances b s b s := .of_eq rfl rfl

omit [Storable ρ] in
theorem Advances.trans {b'' : Backing ρ} {s'' : Store} (h : Advances b s b' s')
    (k : Advances b' s' b'' s'') : Advances b s b'' s'' :=
  ⟨h.toAround.trans k.toAround, k.file.trans h.file, h.runs.trans k.runs,
    fun file hfile => (k.path file (h.file.trans hfile)).trans (h.path file hfile),
    fun file hfile => k.linked file (h.file.trans hfile) ∘ h.linked file hfile⟩

omit [Storable ρ] in
theorem Housed.of_advances (h : Housed options name b s) (k : Advances b s b' s') :
    Housed options name b' s' := by
  refine ⟨h.plain, fun file hfile => ?_, fun file hfile => ?_⟩ <;> rw [k.file] at hfile
  · rw [k.path file hfile]
    exact h.path file hfile
  · exact k.linked file hfile (h.linked file hfile)

omit [Storable ρ] in
/-- A new backing has a file that nobody opened, with a name of its own. -/
theorem ofOptions_housed (ρ : Type) (options : Options) (s : Store) :
    ∃ name, Housed options name ((ofOptions options : StoreM (Backing ρ)).run s).1
      ((ofOptions options : StoreM (Backing ρ)).run s).2 := by
  rcases ofOptions_cases ρ options s with run | ⟨directory, name, t, hdirectory, named, run⟩ <;>
    rw [run]
  · exact ⟨s.names.next.1, s.names.plain_next, fun _ => nofun, fun _ => nofun⟩
  · obtain ⟨-, fresh⟩ := Store.register_run (directory.join ⟨name⟩) t
    refine ⟨name, named ▸ s.names.plain_next, fun file hfile => ?_, fun file hfile h handle => ?_⟩ <;>
      obtain rfl := Option.some.inj hfile
    · exact ⟨directory, hdirectory, congrArg SpillFile.path fresh⟩
    · rw [fresh] at handle
      exact nomatch handle

omit [Storable ρ] in
/-- The manifest tells the last name of the path, which is the name of the file. -/
theorem Described.fileName_eq {m : Manifest} (described : b.Described s m s')
    (housed : Housed options name b s') : m.fileName = name := by
  obtain ⟨-, -, file, hfile, named, -⟩ := described
  obtain ⟨directory, -, path⟩ := housed.path file hfile
  rw [named, SpillFile.fileName, path, Path.fileName_join directory housed.plain]

/-- The manifest of a backing describes its runs. -/
theorem Housed.describes {m : Manifest} (h : Housed options name b s) (described : b.Described s m s')
    (stands : Stands options b s' lists) : m.Describes options s'.disk lists ∧ m.fileName = name := by
  have housed := h.of_advances described.advances
  have same := described.fileName_eq housed
  obtain ⟨-, extents, file, hfile, -, -, kept, pending, -⟩ := described
  obtain ⟨directory, hdirectory, path⟩ := housed.path file hfile
  obtain ⟨-, -, -, runs, hruns, hlists, stored⟩ := stands
  refine ⟨⟨by rw [same]; exact h.plain, runs.map fun p => (p.1.extent, p.2), ?_, ?_, ?_⟩, same⟩
  · rw [extents, hruns, List.map_map, List.map_map]
    rfl
  · rw [hlists, List.map_map]
    rfl
  · rcases stored with rfl | ⟨file', log, hfile', holds, lined, stored⟩
    · exact .inl rfl
    · obtain rfl := Option.some.inj (hfile.symm.trans hfile')
      have settled : (s'.file file).Settled := ⟨kept, pending⟩
      have reopens := settled.reopens holds (housed.linked file hfile)
      rw [path, ← same] at reopens
      refine .inr ⟨directory, log, hdirectory, reopens, ?_, ?_⟩
      · rw [extents, hruns, List.map_map]
        exact lined
      · refine List.forall_mem_map.mpr fun p hp => ?_
        exact ⟨(stored p hp).runAt, (stored p hp).some⟩

/-- Letting go of a settled file any number of times changes nothing. -/
theorem releaseAll_of_settled {file : FileRef} {runs : List (RunReader ρ)}
    (same : ∀ r ∈ runs, r.file = file) (known : s.Known file) (settled : (s.file file).Settled) :
    ((SortedSource.releaseAll runs : StoreM Unit).run s).2.view file = s.view file ∧
      s.Around ((SortedSource.releaseAll runs : StoreM Unit).run s).2 := by
  induction runs generalizing s with
  | nil => exact ⟨rfl, .refl s⟩
  | cons r runs ih =>
    obtain ⟨rfl, others⟩ := List.forall_mem_cons.mp same
    have view := Store.release_of_settled known settled
    have around := Store.around_release known
    obtain ⟨rest, around'⟩ := ih others (around.known known)
      (by rw [(Prod.mk.inj view).1]; exact settled)
    exact ⟨rest.trans view, around.trans around'⟩

theorem Stands.file_of_run (stands : Stands options b s lists) {file : FileRef}
    (hfile : b.file = some file) : ∀ r ∈ b.runs.toList, r.file = file := by
  obtain ⟨-, -, -, runs, hruns, -, stored⟩ := stands
  rw [hruns]
  rcases stored with rfl | ⟨file', log, hfile', -, -, stored⟩
  · simp
  · obtain rfl := Option.some.inj (hfile.symm.trans hfile')
    refine List.forall_mem_map.mpr fun p hp => ?_
    exact (stored p hp).gives.1.1

/-- Giving up a backing whose runs were persisted leaves the disk as it is. -/
theorem Described.release {m : Manifest} {t : Store} (described : b.Described t m s)
    (known : ∀ file, b.file = some file → s.Known file)
    (same : ∀ file, b.file = some file → ∀ r ∈ b.runs.toList, r.file = file) :
    (b.release.run s).2.disk = s.disk ∧ s.Around (b.release.run s).2 := by
  obtain ⟨-, -, file, hfile, -, -, kept, pending, -⟩ := described
  have settled : (s.file file).Settled := ⟨kept, pending⟩
  have known := known file hfile
  have view := Store.release_of_settled known settled
  have around := Store.around_release known
  -- the backing holds the file once, and each of its runs does once more
  obtain ⟨rest, around'⟩ := releaseAll_of_settled (same file hfile) (around.known known)
    (by rw [(Prod.mk.inj view).1]; exact settled)
  rw [Backing.release, hfile]
  exact ⟨congrArg Prod.snd (rest.trans view), around.trans around'⟩

theorem release_of_described {m : Manifest} {t : Store} (described : b.Described t m s)
    (stands : Stands options b s lists) :
    (b.release.run s).2.disk = s.disk ∧ s.Around (b.release.run s).2 :=
  described.release (fun file hfile => (stands.usable file hfile).1) fun _ => stands.file_of_run

end Backing

/-! ## Taking runs up -/

theorem Unbounded.requireContent_eq_ok_iff {d : Disk} {path : Path} :
    requireContent d path = .ok () ↔ ∃ n, d.fileSize path = .ok n ∧ 0 < n := by
  rw [requireContent]
  rcases d.fileSize path with e | _ | n <;> simp

theorem Unbounded.requireContent_of_contentAt {d : Disk} {path : Path} {log : ByteArray}
    (content : d.contentAt path = .ok log) (size : 0 < log.size) :
    requireContent d path = .ok () := by
  refine requireContent_eq_ok_iff.mpr ⟨log.size, ?_, size⟩
  rw [Disk.contentAt] at content
  rw [Disk.fileSize]
  rcases hfind : d.find path with e | node <;> rw [hfind] at content
  · cases content
  · cases node with
    | directory => cases content
    | fullDevice =>
      cases content
      rfl
    | file number =>
      cases content
      rfl

/-- Manifests that tell of runs tell of a file that is not empty. -/
theorem Manifest.Describes.requireContent {m : Manifest} {d : Disk} {lists : List (List ρ)}
    (h : m.Describes options d lists) {directory : Path}
    (hdirectory : options.spillDirectory = some directory) (some : m.extents ≠ []) :
    Unbounded.requireContent d (directory.join ⟨m.fileName⟩) = .ok () := by
  obtain ⟨-, runs, extents, -, rfl | ⟨directory', log, hdirectory', ⟨-, content⟩, lined, stored⟩⟩ := h
  · exact absurd extents some
  · obtain rfl := Option.some.inj (hdirectory.symm.trans hdirectory')
    refine Unbounded.requireContent_of_contentAt content ?_
    cases runs with
    | nil => exact absurd extents some
    | cons p runs =>
      obtain ⟨runAt, full⟩ := stored p List.mem_cons_self
      have begins := runAt.lt full
      have ends := lined.below p.1 (by rw [extents]; exact List.mem_cons_self)
      omega

namespace Unbounded

variable {order : Comparator ρ} {m : Manifest} {lists : List (List ρ)} {u : Unbounded ρ}

/-- What a sorter has that took up the runs of a manifest. -/
structure TookUp (options : Options) (order : Comparator ρ) (m : Manifest) (lists : List (List ρ))
    (u : Unbounded ρ) (s : Store) : Prop where
  limit : options.limit = 0
  accepting : u.backing.finished = false
  sameOrder : u.order = order
  data : u.data = #[]
  stands : u.backing.Stands options s lists
  written : ¬ u.backing.Stuck s
  housed : u.backing.Housed options m.fileName s
  extents : u.backing.runs.toList.map (·.extent) = m.extents

section TakesUp

variable {directory : Path} {file : FileRef} (takesUp : TakesUp m options order directory file u s)

include takesUp

omit [Storable ρ] in
theorem TakesUp.unopened : (s.file file).Unopened := by
  rw [takesUp.fresh]
  exact ⟨rfl, rfl⟩

omit [Storable ρ] in
theorem TakesUp.extents : u.backing.runs.toList.map (·.extent) = m.extents := by
  rw [takesUp.eq, List.map_map]
  exact List.map_id' _

omit [Storable ρ] in
/-- The file that was taken up is the one of the manifest. -/
theorem TakesUp.housed (plain : Path.Plain m.fileName)
    (hdirectory : options.spillDirectory = some directory) :
    u.backing.Housed options m.fileName s := by
  have unopened := takesUp.unopened
  obtain ⟨rfl, -, fresh⟩ := takesUp
  refine ⟨plain, ?_, ?_⟩
  · rintro _ ⟨⟩
    exact ⟨directory, hdirectory, by rw [fresh]⟩
  · rintro _ ⟨⟩ h handle
    exact absurd (unopened.handle.symm.trans handle) (by simp)

/-- Readers of all extents, on a file that was not opened, are what a manifest describes. -/
theorem TakesUp.tookUp (limit : options.limit = 0)
    (hdirectory : options.spillDirectory = some directory)
    (faithful : FaithfulHook options.activeProtector)
    (describes : m.Describes options s.disk lists) : TookUp options order m lists u s := by
  have unopened := takesUp.unopened
  have extents := takesUp.extents
  have housed := takesUp.housed describes.plain hdirectory
  obtain ⟨rfl, known, fresh⟩ := takesUp
  have path : (s.file file).path = directory.join ⟨m.fileName⟩ := by rw [fresh]
  obtain ⟨-, runs, described, hlists, stored⟩ := describes
  refine ⟨limit, rfl, rfl, rfl, ⟨rfl, faithful, ?_, ?_⟩, ?_, housed, extents⟩
  · rintro _ ⟨⟩
    exact ⟨known, .inl unopened⟩
  · refine ⟨runs.map fun p => (RunReader.ofExtent file (directory.join ⟨m.fileName⟩) p.1
      options.activeProtector options.database, p.2), ?_, ?_, ?_⟩
    · rw [described, List.map_map, List.map_map]
      rfl
    · rw [hlists, List.map_map]
      rfl
    -- the log is what the path leads to; opening the file will find it there
    · rcases stored with rfl | ⟨directory', log, hdirectory', ⟨parents, content⟩, lined, stored⟩
      · exact .inl rfl
      · obtain rfl := Option.some.inj (hdirectory.symm.trans hdirectory')
        rw [← path] at parents content
        refine .inr ⟨file, log, rfl, .unopened unopened parents content, ?_, ?_⟩
        · rw [described] at lined
          rw [List.map_map]
          exact lined
        · refine List.forall_mem_map.mpr fun p hp => ?_
          obtain ⟨runAt, full⟩ := stored p hp
          exact ⟨⟨_, rfl⟩, runAt, full⟩
  · rintro ⟨_, ⟨⟩, stuck⟩
    exact stuck.some unopened.pending

end TakesUp

/-- A sorter that takes up the runs of a manifest has them, and nothing else. It is made whenever
    the options allow it. -/
theorem resume_of_describes (faithful : FaithfulHook options.activeProtector)
    (describes : m.Describes options s.disk lists) :
    Leads (resume m options order : SpillM (Unbounded ρ)) s (TookUp options order m lists)
      (fun _ _ => ∃ e, resumeDirectory options m.fileName s.spillForbidden = .error e) := by
  apply (resume_leads m options order s).mono
  · rintro u t ⟨directory, file, allowed, -, -, takesUp, disk⟩
    obtain ⟨limit, hdirectory⟩ := of_resumeDirectory allowed
    rw [← disk] at describes
    exact takesUp.tookUp limit hdirectory faithful describes
  -- what a manifest describes passes its check, and its file has content
  · rintro e _ (denied | failed | ⟨directory, allowed, some, failed⟩)
    · exact ⟨e, denied⟩
    · cases describes.checkExtents.symm.trans failed
    · obtain ⟨-, hdirectory⟩ := of_resumeDirectory allowed
      cases (describes.requireContent hdirectory some).symm.trans failed

end Unbounded
end ExternalSort
