/-
  ExternalSort.Proofs.Sorter.Renewed

  A manifest that is taken up, added to, and persisted again.

  What the old extents hold, what the hook makes of new records, and what the
  comparator says does not matter here. New runs go to the end of the file, so
  they lie behind the old extents if those end within it, and the file keeps its
  name if the name is a plain one. The new manifest can then be taken up as well.
-/

import ExternalSort.Proofs.Order.StableSort.Rearranging
import ExternalSort.Proofs.Run.Placement
import ExternalSort.Proofs.Sorter.Conserved

namespace ExternalSort

/-- A sort puts back the elements it was given, in some order. -/
theorem Leads.of_arranges {S β : Type} {p : S × Store} {sort : StableSort.Arranging Checked β (List β)}
    {xs : List β} {replace : List β → S → S} {ok : Unit → S × Store → Prop}
    (arranges : StableSort.Arranges id sort xs)
    (h : ∀ ys, ys.Perm xs → ok () (replace ys p.1, p.2)) :
    Leads (SorterM.arrange sort replace) p ok (fun _ _ => True) := by
  have sorted := arranges none
  rw [SorterM.arrange]
  rcases hrun : sort.run.run none with ⟨_ | ys, violation⟩
  · rw [show sort.run.runFresh = _ from hrun]
    exact Leads.bind (Leads.of_modify₂ (Leads.of_throw₂ trivial))
  · rw [show sort.run.runFresh = _ from hrun]
    have perm : ys.Perm xs := sorted.of_ok (show Failing.runOn sort none = _ from hrun)
    apply Leads.bind
    apply Leads.of_modify₂
    cases violation with
    | none => exact Leads.of_pure (h ys perm)
    | some v => exact Leads.of_throw₂ trivial

variable {ρ : Type} [Storable ρ] {options : Options} {order : Comparator ρ} {earlier m : Manifest}
  {file : FileRef} {s : Store}

/-! ## Runs in a file -/

namespace Backing

variable {b b' : Backing ρ}

/-- The extents of an earlier manifest and of the runs behind them lie within the file. It has content
    if records take space, or if it had some. -/
structure Lays (earlier : Manifest) (b : Backing ρ) (file : FileRef) (s : Store) : Prop where
  isFile : b.file = some file
  known : s.Known file
  usable : (s.file file).Usable s.disk
  calm : (s.file file).pending.size < SpillFile.bufferLimit
  sameFile : ∀ run ∈ b.runs.toList, run.file = file
  extents : earlier.extents <+: b.runs.toList.map (·.extent)
  lined : b.runs = #[] ∨ ∃ n, (s.file file).EndsAt s.disk n ∧
    Extent.Lined n (b.runs.toList.map (·.extent)) ∧ (TakesSpace ρ ∨ earlier.extents ≠ [] → 0 < n)

theorem Lays.of_eq (lays : Lays earlier b file s) (hfile : b'.file = b.file)
    (hruns : b'.runs = b.runs) : Lays earlier b' file s := by
  obtain ⟨isFile, known, usable, calm, sameFile, extents, lined⟩ := lays
  rw [← hruns] at sameFile extents lined
  exact ⟨hfile.trans isFile, known, usable, calm, sameFile, extents, lined⟩

/-- A run goes to the end of the file, behind those that are there. -/
theorem Lays.push (lays : Lays earlier b file s) {run : RunReader ρ} {base n : Nat} {s' : Store}
    (ends : ∀ n, (s.file file).EndsAt s.disk n → base = n) (beside : s.Beside file s')
    (placed : RunWriter.Placed file base run s' n) (some : TakesSpace ρ → base < n) :
    Lays earlier { b with runs := b.runs.push run } file s' := by
  obtain ⟨isFile, known, -, -, sameFile, extents, lined⟩ := lays
  have pushed : (b.runs.push run).toList = b.runs.toList ++ [run] := Array.toList_push
  have before : Extent.Lined base (b.runs.toList.map (·.extent)) ∧
      (earlier.extents ≠ [] → 0 < base) := by
    rcases lined with none | ⟨n', ends', lined, full⟩
    · rw [none] at extents ⊢
      exact ⟨.nil _, absurd (List.prefix_nil.mp extents)⟩
    · obtain rfl := ends n' ends'
      exact ⟨lined, fun some => full (.inr some)⟩
  refine ⟨isFile, beside.known known, placed.usable, placed.calm, ?_, ?_, .inr ⟨n, placed.ends, ?_, ?_⟩⟩
  · rw [pushed]
    exact List.forall_mem_append.mpr ⟨sameFile, List.forall_mem_singleton.mpr placed.sameFile⟩
  · rw [pushed, List.map_append]
    exact extents.trans (List.prefix_append _ _)
  · rw [pushed, List.map_append]
    exact before.1.concat placed.start placed.stop placed.le
  · rintro (space | old)
    · exact Nat.lt_of_le_of_lt (Nat.zero_le _) (some space)
    · exact Nat.lt_of_lt_of_le (before.2 old) placed.le

/-- Records that are written become a run at the end of the file. -/
theorem Lays.writeRun (lays : Lays earlier b file s) {records : List ρ} (some : records ≠ []) :
    Leads (b.writeRun records) s
      (fun run s' => Lays earlier { b with runs := b.runs.push run } file s' ∧
        Advances b s { b with runs := b.runs.push run } s')
      (fun _ _ => True) := by
  apply writeRun_of lays.isFile
  apply (RunWriter.begin_lies lays.known lays.usable lays.calm).mono _ fun _ _ _ => trivial
  rintro w t ⟨rfl, ⟨base, lies, ends⟩, beside⟩
  apply (RunWriter.addAll_goes lies records).mono _ fun _ _ _ => trivial
  rintro _ ⟨w', u⟩ ⟨n, ⟨⟨buffer, checksum, rfl⟩, lies', -, -, beside'⟩, begun⟩
  dsimp only
  apply (RunWriter.finish_places lies').mono _ fun _ _ _ => trivial
  rintro run v ⟨n', placed, full, beside''⟩
  have beside := (beside.trans beside').trans beside''
  have full (space : TakesSpace ρ) : base < n' := by
    obtain ⟨x, hx⟩ := List.exists_mem_of_ne_nil records some
    exact full (begun x hx (TakesSpace.size_encode_pos x))
  refine ⟨lays.push ends beside placed full, beside.toAround, rfl, ?_, ?_, ?_⟩
  · rw [Array.toList_push]
    exact List.prefix_append _ _
  all_goals
    intro file' hfile'
    obtain rfl := Option.some.inj (lays.isFile.symm.trans hfile')
  · exact beside.frame.path
  · exact beside.frame.linked

/-- The runs stay where they are when they are described. -/
theorem Lays.manifest (lays : Lays earlier b file s) :
    Leads b.manifest s (fun m s' => Lays earlier b file s' ∧ b.Described s m s')
      (fun _ _ => True) := by
  obtain ⟨isFile, known, usable, -, sameFile, extents, lined⟩ := lays
  have flushed := (SpillFile.flush_of_usable usable).and (SpillFile.flush_endsAt usable)
  have kept : Leads b.manifest s
      (fun m s' => b.Described s m s' ∧ (s'.view file).1.Usable (s'.view file).2 ∧
        ∀ n, (s.file file).EndsAt s.disk n → (s'.view file).1.EndsAt (s'.view file).2 n)
      (fun _ _ => True) := by
    apply (manifest_leads isFile known (fun p => p.1.Usable p.2 ∧
      ∀ n, (s.file file).EndsAt s.disk n → p.1.EndsAt p.2 n) (flushed.mono _ fun _ _ h => h) _).mono
      (fun _ _ h => h) fun _ _ _ => trivial
    · rintro _ p ⟨⟨none, stays, frame⟩, ends⟩
      exact ⟨none, frame, stays.usable, ends⟩
    · rintro p ⟨usable', ends⟩
      exact ⟨(SpillFile.stays_keep usable').usable, fun n h => (ends n h).keep⟩
  apply kept.mono _ fun _ _ h => h
  rintro m s' ⟨described, usable', ends⟩
  have lined' := lined.imp_right fun h => h.imp fun n lies => And.imp_left (ends n) lies
  refine ⟨⟨isFile, described.toAround.known known, usable', ?_, sameFile, extents, lined'⟩, described⟩
  obtain ⟨-, -, file', isFile', -, -, -, pending, -⟩ := described
  obtain rfl := Option.some.inj (isFile.symm.trans isFile')
  rw [pending]
  exact (by decide : 0 < SpillFile.bufferLimit)

end Backing

/-! ## Operations of a sorter -/

namespace Unbounded

open Backing (Lays Advances)

variable {u : Unbounded ρ}

omit [Storable ρ] in
/-- The buffer has the same records when it is sorted, whatever the comparator says. -/
theorem sortData_perm (u : Unbounded ρ) (s : Store) :
    Leads sortData (u, s)
      (fun _ p => ∃ data sorted, data.toList.Perm u.data.toList ∧
        p = ({ u with data, backing := { u.backing with sorted } }, s))
      (fun _ _ => True) := by
  rw [sortData]
  apply Leads.bind
  apply Leads.of_get₂
  apply Leads.bind
  apply Leads.of_arranges (StableSort.sort_arranges u.less u.data.toList)
  intro ys perm
  exact Leads.of_modify₂ ⟨ys.toArray, _, perm, rfl⟩

/-- A spill adds a run at the end of the file. -/
theorem spill_lays (lays : Lays earlier u.backing file s) :
    Leads spill (u, s)
      (fun _ p => Lays earlier p.1.backing file p.2 ∧ Advances u.backing s p.1.backing p.2)
      (fun _ _ => True) := by
  apply spill_of
  · exact fun _ => ⟨lays.of_eq rfl rfl, .of_eq rfl rfl⟩
  · exact fun _ _ _ => trivial
  · intro hsome _
    apply (sortData_perm u.spilling s).mono _ fun _ _ _ => trivial
    rintro _ _ ⟨data, sorted, perm, rfl⟩
    have some : data.toList.map (·.record) ≠ [] := by
      intro none
      rw [List.map_eq_nil_iff.mp none] at perm
      exact hsome (Array.toList_eq_nil_iff.mp (List.nil_perm.mp perm))
    have lays' : Lays earlier { u.spilling.backing with sorted } file s := lays.of_eq rfl rfl
    have counted : Advances u.backing s { u.spilling.backing with sorted } s := .of_eq rfl rfl
    apply (lays'.writeRun some).mono _ fun _ _ _ => trivial
    rintro run s' ⟨written, advances⟩
    refine ⟨written.of_eq rfl rfl, (counted.trans advances).trans ?_⟩
    exact .of_eq rfl rfl

theorem add_lays (lays : Lays earlier u.backing file s) (x : ρ) (spare : Nat) :
    Leads (add x spare) (u, s)
      (fun _ p => Lays earlier p.1.backing file p.2 ∧ Advances u.backing s p.1.backing p.2)
      (fun _ _ => True) := by
  have taken : Lays earlier (u.charging ⟨x, spare⟩).backing file s := lays.of_eq rfl rfl
  have counted : Advances u.backing s (u.charging ⟨x, spare⟩).backing s := .of_eq rfl rfl
  refine add_of_charging (fun _ _ => trivial) fun _ => ?_
  split
  · apply (spill_lays taken).mono _ fun _ _ h => h
    rintro _ p ⟨lays', advances⟩
    exact ⟨lays', counted.trans advances⟩
  · exact Leads.of_pure ⟨taken, counted⟩

/-- The manifest tells of the old extents and of the runs behind them. -/
theorem persist_lays (lays : Lays earlier u.backing file s) :
    Leads persist (u, s)
      (fun m p => Lays earlier p.1.backing file p.2 ∧ Advances u.backing s p.1.backing p.2 ∧
        ∃ t, p.1.backing.Described t m p.2)
      (fun _ _ => True) := by
  refine persist_of (fun _ _ => trivial) (fun _ _ => trivial) fun _ => ?_
  apply (spill_lays lays).mono _ fun _ _ _ => trivial
  rintro _ ⟨u', t⟩ ⟨lays', advances⟩
  apply lays'.manifest.mono _ fun _ _ _ => trivial
  rintro m s' ⟨lays'', described⟩
  exact ⟨lays'', advances.trans described.advances, t, described⟩

/-! ## Taking a manifest up again -/

/-- Extents that pass their check and end within the file are where runs can follow. -/
theorem TakesUp.lays {directory : Path} (takesUp : TakesUp earlier options order directory file u s)
    (checked : earlier.checkExtents = .ok ())
    (content : earlier.extents ≠ [] →
      requireContent s.disk (directory.join ⟨earlier.fileName⟩) = .ok ())
    (inside : ∀ n, s.disk.fileSize (directory.join ⟨earlier.fileName⟩) = .ok n →
      ∀ e ∈ earlier.extents, e.stop.toNat ≤ n) : Lays earlier u.backing file s := by
  have unopened := takesUp.unopened
  have extents := takesUp.extents
  have inherited : earlier.extents <+: u.backing.runs.toList.map (·.extent) :=
    extents ▸ List.prefix_rfl
  obtain ⟨rfl, known, fresh⟩ := takesUp
  have path : (s.file file).path = directory.join ⟨earlier.fileName⟩ := by rw [fresh]
  refine ⟨rfl, known, .inl unopened, ?_, List.forall_mem_map.mpr fun _ _ => rfl,
    inherited, ?_⟩
  · rw [unopened.pending]
    exact (by decide : 0 < SpillFile.bufferLimit)
  · by_cases none : earlier.extents = []
    · left
      rw [none]
      rfl
    · right
      obtain ⟨n, size, full⟩ := requireContent_eq_ok_iff.mp (content none)
      refine ⟨n, .unopened unopened (path ▸ size), ?_, fun _ => full⟩
      rw [extents]
      exact Manifest.lined_of_checkExtents checked (inside n size)

/-- A sorter whose manifest tells of the extents of an earlier one and of runs behind them. -/
structure Renewed (options : Options) (earlier m : Manifest) (u : Unbounded ρ) (file : FileRef)
    (s : Store) : Prop where
  lays : Lays earlier u.backing file s
  housed : u.backing.Housed options earlier.fileName s
  described : ∃ t, u.backing.Described t m s

namespace Renewed

variable (renewed : Renewed options earlier m u file s)

include renewed

theorem extend : earlier.Extends m := by
  obtain ⟨t, described⟩ := renewed.described
  refine ⟨described.fileName_eq renewed.housed, ?_⟩
  rw [described.extents]
  exact renewed.lays.extents

theorem checkExtents : m.checkExtents = .ok () := by
  obtain ⟨t, described⟩ := renewed.described
  have extents := described.extents
  rcases renewed.lays.lined with none | ⟨n, -, lined, -⟩
  · have lined : Extent.Lined 0 m.extents := by
      rw [extents, none]
      exact .nil 0
    exact Manifest.checkExtents_of_lined lined
  · rw [← extents] at lined
    exact Manifest.checkExtents_of_lined lined

/-- The file that the manifest names has content. -/
theorem requireContent {directory : Path} (hdirectory : options.spillDirectory = some directory)
    (some : m.extents ≠ []) (full : TakesSpace ρ ∨ earlier.extents ≠ []) :
    requireContent s.disk (directory.join ⟨m.fileName⟩) = .ok () := by
  have isFile := renewed.lays.isFile
  have sameName := renewed.extend.fileName
  obtain ⟨t, -, extents, file', hfile, -, -, kept, pending, -⟩ := renewed.described
  obtain rfl := Option.some.inj (isFile.symm.trans hfile)
  obtain ⟨directory', hdirectory', path⟩ := renewed.housed.path file isFile
  obtain rfl := Option.some.inj (hdirectory.symm.trans hdirectory')
  rcases renewed.lays.lined with none | ⟨n, ends, -, pos⟩
  · exact absurd (by rw [extents, none]; rfl) some
  · have settled : (s.file file).Settled := ⟨kept, pending⟩
    rw [sameName, ← path]
    exact requireContent_eq_ok_iff.mpr
      ⟨n, settled.fileSize ends (renewed.housed.linked file isFile), pos full⟩

/-- The manifest is taken up wherever the disk is the same, and the options allow it. -/
theorem resume {options' : Options} {order' : Comparator ρ} {t : Store} (disk : t.disk = s.disk)
    (full : m.extents ≠ [] → TakesSpace ρ ∨ earlier.extents ≠ [])
    (same : options'.spillDirectory = options.spillDirectory) (limit : options'.limit = 0)
    (allowed : options'.spillAllowed = true) (valid : options'.validate t.spillForbidden = .ok ()) :
    Leads (Sorter.resume m options' order') t (fun _ _ => True) (fun _ _ => False) := by
  have plain : Path.Plain m.fileName := by
    rw [renewed.extend.fileName]
    exact renewed.housed.plain
  obtain ⟨directory, permitted⟩ := resumeDirectory_ok limit allowed valid plain
  rw [Sorter.resume]
  apply Leads.seq (resume_leads m options' order' t) fun _ _ _ => Leads.of_pure trivial
  rintro e _ (denied | failed | ⟨directory', permitted', some, failed⟩)
  · cases permitted.symm.trans denied
  · cases renewed.checkExtents.symm.trans failed
  · obtain ⟨-, hdirectory⟩ := of_resumeDirectory permitted'
    rw [same] at hdirectory
    rw [disk, renewed.requireContent hdirectory some (full some)] at failed
    cases failed

/-- Giving the sorter up leaves the disk as it is. -/
theorem release : ((Sorter.unbounded u).release.run s).2.disk = s.disk := by
  obtain ⟨t, described⟩ := renewed.described
  have isFile := renewed.lays.isFile
  refine (described.release (fun file' hfile => ?_) fun file' hfile => ?_).1 <;>
    obtain rfl := Option.some.inj (isFile.symm.trans hfile)
  · exact renewed.lays.known
  · exact renewed.lays.sameFile

end Renewed
end Unbounded

namespace Sorter

open Backing (Lays Advances)

variable {u : Unbounded ρ}

theorem feed_lays (lays : Lays earlier u.backing file s) (calls : List (Call ρ)) :
    Leads (feed calls) (.unbounded u, s)
      (fun _ p => ∃ u', p.1 = .unbounded u' ∧ Lays earlier u'.backing file p.2 ∧
        Advances u.backing s u'.backing p.2)
      (fun _ _ => True) := by
  induction calls generalizing u s with
  | nil => exact Leads.of_pure ⟨u, rfl, lays, .refl _ _⟩
  | cons call rest ih =>
    -- the rest of the calls goes on from where this one led
    have continues {u' : Unbounded ρ} {t : Store} (lays' : Lays earlier u'.backing file t)
        (advances : Advances u.backing s u'.backing t) :
        Leads (feed rest) (.unbounded u', t)
          (fun _ p => ∃ u'', p.1 = .unbounded u'' ∧ Lays earlier u''.backing file p.2 ∧
            Advances u.backing s u''.backing p.2)
          (fun _ _ => True) := by
      apply (ih lays').mono _ fun _ _ h => h
      rintro _ p ⟨u'', kind, lays'', advances'⟩
      exact ⟨u'', kind, lays'', advances.trans advances'⟩
    cases call with
    | add x spare =>
      apply Leads.bind
      apply dispatch_unbounded
      apply (Unbounded.add_lays lays x spare).mono _ fun _ _ h => h
      exact fun _ _ added => continues added.1 added.2
    | persist =>
      apply Leads.bind
      apply dispatch_unbounded
      apply (Unbounded.persist_lays lays).mono _ fun _ _ h => h
      exact fun _ _ persisted => continues persisted.1 persisted.2.1

/-- A sorter that took up a manifest, some records, and was persisted. -/
theorem renewed_leads (plain : Path.Plain earlier.fileName)
    (inside : ∀ directory n, options.spillDirectory = some directory →
      s.disk.fileSize (directory.join ⟨earlier.fileName⟩) = .ok n →
      ∀ e ∈ earlier.extents, e.stop.toNat ≤ n) (calls : List (Call ρ)) :
    Leads (employ (resume earlier options order) (do feed calls; persist)) s
      (fun p t => ∃ u file, p.2 = .unbounded u ∧ u.Renewed options earlier p.1 file t)
      (fun _ _ => True) := by
  have made : Leads (resume earlier options order : SpillM (Sorter ρ)) s
      (fun sorter t => ∃ u file, sorter = .unbounded u ∧ Lays earlier u.backing file t ∧
        u.backing.Housed options earlier.fileName t)
      (fun _ _ => True) := by
    rw [resume]
    apply Leads.seq (Unbounded.resume_leads earlier options order s) _ fun _ _ _ => trivial
    rintro u t ⟨directory, file, permitted, checked, content, takesUp, disk⟩
    obtain ⟨-, hdirectory⟩ := Unbounded.of_resumeDirectory permitted
    rw [← disk] at content inside
    exact Leads.of_pure ⟨u, file, rfl,
      takesUp.lays checked content fun n => inside directory n hdirectory,
      takesUp.housed plain hdirectory⟩
  apply employ_leads made
  rintro _ t ⟨u, file, rfl, lays, housed⟩
  apply Leads.seq (feed_lays lays calls) _ fun _ _ _ => trivial
  rintro _ ⟨_, t'⟩ ⟨u', rfl, lays', advances⟩
  apply dispatch_unbounded
  apply (Unbounded.persist_lays lays').mono _ fun _ _ h => h
  rintro m ⟨u'', t''⟩ ⟨lays'', advances', described⟩
  exact ⟨u'', file, rfl, lays'', housed.of_advances (advances.trans advances'), described⟩

/-- A manifest with a plain name, whose extents end within the file, can be taken up, added to and
    persisted any number of times. Each manifest passes its check, names the same file, and tells of
    the same extents first; it is taken up unless it tells of runs of records that take no space in
    a file that had none. -/
theorem resumes_again {key value : Kind} {options : Options}
    {order : Comparator (Record key value)} {manifest m : Manifest}
    {calls : List (Call (Record key value))} {s s' : Store} {sorter : Sorter (Record key value)}
    (plain : Path.Plain manifest.fileName)
    (inside : ∀ directory n, options.spillDirectory = some directory →
      s.disk.fileSize (directory.join ⟨manifest.fileName⟩) = .ok n →
      ∀ e ∈ manifest.extents, e.stop.toNat ≤ n)
    (h : (employ (resume manifest options order) (do feed calls; persist)).run.run s =
      (.ok (m, sorter), s')) :
    m.checkExtents = .ok () ∧ manifest.Extends m ∧
      ((key = .null ∧ value = .null → manifest.extents = [] → m.extents = []) →
        ∀ options' (order' : Comparator (Record key value)) t,
          t.disk = s'.disk ∨ t.disk = (sorter.release.run s').2.disk →
          options'.spillDirectory = options.spillDirectory → options'.limit = 0 →
          options'.spillAllowed = true → options'.validate t.spillForbidden = .ok () →
          ∃ sorter' t', (resume m options' order').run.run t = (.ok sorter', t')) := by
  obtain ⟨u, file, rfl, renewed⟩ := (renewed_leads plain inside calls).of_ok h
  refine ⟨renewed.checkExtents, renewed.extend, fun full options' order' t disk same limit allowed
    valid => ?_⟩
  have disk : t.disk = s'.disk := disk.elim id fun released => released.trans renewed.release
  have full (some : m.extents ≠ []) :
      TakesSpace (Record key value) ∨ manifest.extents ≠ [] := by
    by_cases kinds : key = .null ∧ value = .null
    · exact .inr fun none => some (full kinds none)
    · exact .inl (Record.takesSpace kinds)
  obtain ⟨sorter', t', hresume, -⟩ :=
    (renewed.resume disk full same limit allowed valid).exists_ok
  exact ⟨sorter', t', hresume⟩

/-- A file of one byte where runs are to be. -/
def oneByte : Store where
  disk := ((do
    Disk.makeParents ⟨"/tmp/runs"⟩
    Disk.writeFile ⟨"/tmp/runs"⟩ ⟨#[0]⟩ : DiskM Unit).run.run default).2

/-- Runs that are said to end within the file. -/
def within : Manifest := ⟨"runs", [⟨0, 1, 0⟩]⟩

/-- A record is added to the runs of a manifest, and they are persisted again. -/
def renew (manifest : Manifest) : ExceptT Failure StoreM (Manifest × Sorter Numbered) :=
  employ (resume manifest spilling ascending) do feed [.add (7, ())]; persist

/-- The runs within the file are taken up and persisted, and spilling stays allowed. -/
def renewsWithin : Bool :=
  match (renew within).run.run oneByte with
  | (.ok (_, sorter), s') => !(sorter.release.run s').2.spillForbidden
  | (.error _, _) => false

theorem resumes_again_within :
    ∃ m sorter s' sorter' t', (renew within).run.run oneByte = (.ok (m, sorter), s') ∧
      m.checkExtents = .ok () ∧ within.Extends m ∧
      (resume m spilling ascending).run.run (sorter.release.run s').2 = (.ok sorter', t') := by
  have succeeds : renewsWithin = true := by decide +kernel
  rw [renewsWithin] at succeeds
  have size : oneByte.disk.fileSize ⟨"/tmp/runs"⟩ = .ok 1 := by decide +kernel
  rcases h : (renew within).run.run oneByte with ⟨_ | ⟨m, sorter⟩, s'⟩ <;> rw [h] at succeeds
  · exact Bool.noConfusion succeeds
  · have plain : Path.Plain within.fileName := ⟨by decide, by decide, by decide, by decide⟩
    obtain ⟨checked, extend, taken⟩ := resumes_again plain (fun directory n hdirectory found => by
      cases hdirectory
      cases size.symm.trans found
      exact List.forall_mem_singleton.mpr (by decide)) h
    have valid : spilling.validate (sorter.release.run s').2.spillForbidden = .ok () := by
      rw [show (sorter.release.run s').2.spillForbidden = false by simpa using succeeds]
      rfl
    obtain ⟨sorter', t', hresume⟩ := taken (fun kinds => absurd kinds (by decide)) spilling ascending
      _ (.inr rfl) rfl rfl rfl valid
    exact ⟨m, sorter, s', sorter', t', rfl, checked, extend, hresume⟩

/-- Renewing a manifest succeeds, but the new one is refused. -/
def refusesRenewed (manifest : Manifest) (s : Store) : Bool :=
  match (renew manifest).run.run s with
  | (.ok (m, _), s') => !((resume m spilling ascending).run.run s').1.isOk
  | (.error _, _) => false

theorem exists_of_refusesRenewed {manifest : Manifest} {s : Store}
    (h : refusesRenewed manifest s = true) :
    ∃ m sorter s' e t', (renew manifest).run.run s = (.ok (m, sorter), s') ∧
      (resume m spilling ascending).run.run s' = (.error e, t') := by
  rw [refusesRenewed] at h
  rcases hrenew : (renew manifest).run.run s with ⟨_ | ⟨m, sorter⟩, s'⟩ <;> rw [hrenew] at h
  · exact Bool.noConfusion h
  · dsimp only at h
    rcases hresume : (resume m spilling ascending).run.run s' with ⟨e | _, t'⟩ <;> rw [hresume] at h
    · exact ⟨m, sorter, s', e, t', rfl, hresume⟩
    · exact Bool.noConfusion h

/-- Runs that are said to end behind the file overlap with new ones, and a name with a directory in
    it comes back without the directory. -/
theorem refuses_again :
    (∃ m sorter s' e t', (renew ⟨"runs", [⟨0, 100, 0⟩]⟩).run.run oneByte = (.ok (m, sorter), s') ∧
      (resume m spilling ascending).run.run s' = (.error e, t')) ∧
    ∃ m sorter s' e t', (renew ⟨"below/runs", []⟩).run.run {} = (.ok (m, sorter), s') ∧
      (resume m spilling ascending).run.run s' = (.error e, t') :=
  ⟨exists_of_refusesRenewed (by decide +kernel), exists_of_refusesRenewed (by decide +kernel)⟩

end Sorter
end ExternalSort
