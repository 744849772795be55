/-
  ExternalSort.Proofs.Sorter.Custody

  Who holds the spill file of a sorter.

  A sorter holds its file once, and every run that it has written holds it once
  more. When it is done the runs go to the merge, or to no one if there is none.
  This holds for any comparator and hook, and after any failure.
-/

import ExternalSort.Proofs.Merge.Custody
import ExternalSort.Proofs.Sorter.Checking.Limited
import ExternalSort.Proofs.Sorter.TopK
import ExternalSort.Proofs.Sorter.Unbounded

namespace ExternalSort

open Store (Lasts)

variable {ρ : Type} [Storable ρ] {c : Custody} {k : Nat} {s : Store}

/-- The extents of a manifest lie within the file that a path leads to. -/
def Manifest.Within (m : Manifest) (p : Path) (d : Disk) : Prop :=
  ∀ e ∈ m.extents, ∃ bytes, d.contentAt p = .ok bytes ∧ e.stop.toNat ≤ bytes.size

theorem Manifest.Within.mono {m : Manifest} {p : Path} {d d' : Disk} (within : m.Within p d)
    (longer : d.Lengthens p d') : m.Within p d' := by
  intro e mem
  obtain ⟨bytes, before, inside⟩ := within e mem
  obtain ⟨more, after⟩ := longer bytes before
  refine ⟨bytes ++ more, after, ?_⟩
  rw [ByteArray.size_append]
  exact Nat.le_add_right_of_le inside

/-! ## Comparisons -/

section Comparing

variable {S α : Type} {p : S × Store} {P : S × Store → Prop}

theorem report_keeps (violation : Option Violation) (h : P p) :
    Leads (SorterM.report violation) p (fun _ q => P q) (fun _ q => P q) := by
  cases violation with
  | none => exact Leads.of_pure h
  | some v => exact Leads.of_throw₂ h

theorem checked_keeps (comparisons : Checked α) (h : P p) :
    Leads (SorterM.checked comparisons) p (fun _ q => P q) (fun _ q => P q) :=
  Leads.seq (report_keeps _ h) (fun _ _ h' => Leads.of_pure h') fun _ _ h' => h'

theorem arrange_keeps {β : Type} (sort : StableSort.Arranging Checked β (List β))
    {replace : List β → S → S} (h : ∀ xs, P (replace xs p.1, p.2)) :
    Leads (SorterM.arrange sort replace) p (fun _ q => P q) (fun _ q => P q) := by
  rw [SorterM.arrange]
  rcases sort.run.runFresh with ⟨arranged | sorted, violation⟩
  · exact Leads.bind (Leads.of_modify₂ (Leads.of_throw₂ (h arranged)))
  · exact Leads.bind (Leads.of_modify₂ (report_keeps violation (h sorted)))

end Comparing

/-! ## The disk side of a sorter -/

namespace Backing

variable {b b' : Backing ρ}

/-- A backing and its runs hold the file in custody, beside `k` others. -/
structure InCustody (c : Custody) (k : Nat) (b : Backing ρ) (s : Store) : Prop where
  file : b.file = some c.ref
  runs : ∀ r ∈ b.runs.toList, r.file = c.ref
  held : Store.Held c (b.runs.toList.map (·.stop)) (k + b.runs.size + 1) s

omit [Storable ρ] in
/-- Only the file and the runs of a backing matter. -/
theorem InCustody.of_eq (custody : InCustody c k b s) (hfile : b'.file = b.file)
    (hruns : b'.runs = b.runs) : InCustody c k b' s := by
  obtain ⟨file, runs, held⟩ := custody
  rw [← hruns] at runs held
  exact ⟨hfile.trans file, runs, held⟩

omit [Storable ρ] in
/-- The backing and its runs hold the file, whatever the others do. -/
theorem InCustody.others (custody : InCustody c k b s) :
    ∃ ends n, Lasts c ends (n + k) s ∧ ∀ k' s', Lasts c ends (n + k') s' → InCustody c k' b s' := by
  obtain ⟨file, runs, held⟩ := custody
  refine ⟨b.runs.toList.map (·.stop), b.runs.size + 1, ?_, fun k' s' lasts => ⟨file, runs, ?_⟩⟩
  · exact (Lasts.held held).of_eq (by omega)
  · exact (lasts.of_eq (by omega)).toHeld (Nat.succ_pos _)

/-- A run that is written is held with the others. What fails holds nothing. -/
theorem writeRun_inCustody (custody : InCustody c k b s) (records : List ρ) :
    Leads (b.writeRun records) s
      (fun run s' => InCustody c k { b with runs := b.runs.push run } s')
      (fun _ s' => InCustody c k b s') := by
  obtain ⟨file, runs, held⟩ := custody
  -- a writer that fails lets go, and the sorter holds what it held
  have released {t : Store}
      (lasts : Lasts c (b.runs.toList.map (·.stop)) (k + b.runs.size + 1) t) :
      InCustody c k b t := ⟨file, runs, lasts.toHeld (Nat.succ_pos _)⟩
  apply writeRun_of file
  refine (RunWriter.begin_held b.options held).mono ?_ fun _ t held => ⟨file, runs, held⟩
  intro w t writes
  refine (RunWriter.addAll_writes records writes).mono ?_ ?_
  · rintro _ ⟨w', u⟩ writes'
    apply (RunWriter.finish_held writes').mono
    · rintro run v ⟨file', held'⟩
      have pushed : (b.runs.push run).toList = b.runs.toList ++ [run] := Array.toList_push
      refine ⟨file, ?_, ?_⟩
      · rw [pushed]
        exact List.forall_mem_append.mpr ⟨runs, List.forall_mem_singleton.mpr file'⟩
      · rw [pushed, Array.size_push, ← Nat.add_assoc]
        refine held'.mono fun stop mem => ⟨stop, ?_, Nat.le_refl stop⟩
        simpa [or_comm] using mem
    · exact fun _ v lasts => released lasts
  · exact fun _ p writes' => released writes'.release

omit [Storable ρ] in
/-- Describing the runs makes the file stay, with all of them on disk. -/
theorem manifest_inCustody (custody : InCustody c k b s) :
    Leads b.manifest s
      (fun m s' => InCustody { c with kept := true } k b s' ∧ m.Within c.path s'.disk)
      (fun _ s' => InCustody c k b s') := by
  obtain ⟨file, runs, held⟩ := custody
  apply manifest_of file
  refine (held.onFile (SpillFile.flush_lasts held.lasts)).mono ?_ ?_
  · rintro _ t ⟨⟨lasts, whole⟩, known, count⟩
    have held : Store.Held c (b.runs.toList.map (·.stop)) (k + b.runs.size + 1) t :=
      ⟨Nat.succ_pos _, known, count, lasts⟩
    have keep : Leads SpillFile.keep (t.view c.ref)
        (fun _ p => p = ({ t.file c.ref with kept := true }, t.disk)) fun _ _ => False :=
      Leads.of_modify₂ rfl
    refine (held.onFile keep).mono ?_ fun _ _ h => h.1.elim
    rintro _ v ⟨view, known', count'⟩
    refine ⟨⟨file, runs, ?_⟩, ?_⟩
    · refine ⟨Nat.succ_pos _, known', count', ?_⟩
      show SpillFile.Lasts _ _ (v.view c.ref)
      rw [view]
      exact SpillFile.keep_lasts lasts
    · -- every run ends where the file is open, and what is open is on disk
      intro e mem
      obtain ⟨run, here, rfl⟩ := List.mem_map.mp mem
      obtain ⟨isOpen, le⟩ := lasts.reaches run.stop (List.mem_map_of_mem here)
      obtain ⟨h, handle⟩ := Option.isSome_iff_exists.mp isOpen
      refine ⟨t.disk.bytesOf h, ?_, Nat.le_trans le (whole h handle)⟩
      rw [show v.disk = t.disk from congrArg Prod.snd view, ← lasts.path]
      exact (lasts.anchored h handle).contentAt
  · rintro _ t ⟨lasts, known, count⟩
    exact ⟨file, runs, Nat.succ_pos _, known, count, lasts⟩

/-- A backing that is given up lets go of the file, and so do its runs. -/
theorem release_lasts (custody : InCustody c k b s) :
    Runs b.release s fun _ s' => Lasts c [] k s' := by
  obtain ⟨file, runs, held⟩ := custody
  have held : Store.Held c [] (k + b.runs.size + 1) s := held.mono (by simp)
  rw [release, file]
  have freed : Runs (Store.release c.ref) s fun _ s' => Lasts c [] (k + b.runs.size) s' := held.release
  exact freed.seq fun _ t lasts => RunReader.releaseAll_lasts runs (Array.length_toList ▸ lasts)

end Backing

/-! ## What a sorter gives out -/

namespace Sorted

/-- How many runs the output of a sorter reads. -/
def inUse : Sorted ρ → Nat
  | .inl _ => 0
  | .inr q => q.heap.size

/-- The runs that an output reads are in the file in custody. -/
def InFile (c : Custody) : Sorted ρ → Prop
  | .inl _ => True
  | .inr q => ∀ t ∈ q.heap.toList, t.source.file = c.ref

/-- An output holds the file in custody once for every run that it reads, beside `k` others. -/
structure Owns (c : Custody) (ends : List Nat) (k : Nat) (output : Sorted ρ) (s : Store) : Prop where
  inFile : output.InFile c
  lasts : Lasts c ends (k + output.inUse) s

variable {ends : List Nat} {output : Sorted ρ}

omit [Storable ρ] in
theorem owns_merge {q : Merge (RunReader ρ) ρ} :
    Owns c ends k (.inr q) s ↔ Merge.Owns c ends k q.heap.toList s :=
  ⟨fun h => ⟨h.inFile, h.lasts⟩, fun h => ⟨h.files, h.lasts⟩⟩

theorem next_owns (owns : Owns c ends k output s) :
    Runs (SortedSource.next output : StoreM _) s fun p s' => Owns c ends k p.2 s' := by
  cases output with
  | inl memory => exact Runs.of_pure ⟨trivial, owns.lasts⟩
  | inr q =>
    refine (Merge.next_owns (owns_merge.mp owns)).seq ?_
    exact fun _ _ owns' => Runs.of_pure (owns_merge.mpr owns')

theorem close_owns (owns : Owns c ends k output s) :
    Runs (SortedSource.close output : StoreM _) s fun p s' => Owns c ends k p.2 s' := by
  cases output with
  | inl memory => exact Runs.of_pure ⟨trivial, owns.lasts⟩
  | inr q =>
    refine (Merge.close_owns (owns_merge.mp owns)).seq ?_
    exact fun _ _ owns' => Runs.of_pure (owns_merge.mpr owns')

theorem release_lasts (owns : Owns c ends k output s) :
    Runs (SortedSource.release output : StoreM Unit) s fun _ s' => Lasts c ends k s' := by
  cases output with
  | inl memory => exact owns.lasts
  | inr q => exact Merge.release_lasts_merge (owns_merge.mp owns)

end Sorted

namespace Backing

variable {b : Backing ρ}

/-- What a sorter gives out takes the place of its runs. -/
structure HandsOver (c : Custody) (k : Nat) (out : Sorted ρ) (b : Backing ρ) (s : Store) : Prop where
  inFile : out.InFile c
  custody : InCustody c (k + out.inUse) b s

/-- The backing without its runs. -/
def cleared (b : Backing ρ) : Backing ρ := { b with runs := #[] }

/-- A merge takes over the runs of a backing, which forgets them. -/
theorem mergeRuns_handsOver (custody : InCustody c k b s) (order : Comparator ρ) :
    Leads (b.mergeRuns order) s (fun out s' => HandsOver c k out b.cleared s')
      (fun _ s' => InCustody c k b.cleared s') := by
  obtain ⟨file, runs, held⟩ := custody
  have noRuns : b.cleared.runs.toList = [] := rfl
  have lasts : Lasts c [] (k + 1 + b.runs.toList.length) s := by
    have every : Lasts c [] (k + b.runs.size + 1) s := .held (held.mono (by simp))
    exact every.of_eq (by rw [Array.length_toList]; omega)
  have merged := (Merge.ofSources_takesOver runs b.options.limit order b.options.verifyOrder
    lasts).leads
  rw [mergeRuns]
  refine Leads.seq merged ?_ ?_
  · rintro q t ⟨files, lasts⟩
    have same : k + 1 + q.heap.toList.length = k + q.heap.size + 0 + 1 := by
      rw [Array.length_toList]
      omega
    exact Leads.of_pure ⟨files, file, by simp [noRuns], (lasts.of_eq same).toHeld (Nat.succ_pos _)⟩
  · exact fun _ t lasts => ⟨file, by simp [noRuns], lasts.toHeld (Nat.succ_pos _)⟩

end Backing

/-! ## Sorters without a limit -/

open Backing (InCustody HandsOver writeRun_inCustody manifest_inCustody mergeRuns_handsOver)

namespace Unbounded

variable {u : Unbounded ρ}

omit [Storable ρ] in
theorem sortData_inCustody (custody : InCustody c k u.backing s) :
    Leads sortData (u, s) (fun _ p => InCustody c k p.1.backing p.2)
      (fun _ p => InCustody c k p.1.backing p.2) := by
  rw [sortData]
  refine Leads.bind (Leads.of_get₂ ?_)
  refine Leads.seq (arrange_keeps (P := fun p => InCustody c k p.1.backing p.2) _ fun _ => custody) ?_
    fun _ _ post => post
  exact fun _ p custody => Leads.of_modify₂ (custody.of_eq rfl rfl)

theorem spill_inCustody (custody : InCustody c k u.backing s) :
    Leads spill (u, s) (fun _ p => InCustody c k p.1.backing p.2)
      (fun _ p => InCustody c k p.1.backing p.2) := by
  have counted : InCustody c k u.spilling.backing s := custody.of_eq rfl rfl
  refine spill_of (fun _ => counted) (fun _ _ _ => counted) fun _ _ => ?_
  refine (sortData_inCustody counted).mono ?_ fun _ _ post => post
  exact fun _ p custody => writeRun_inCustody custody p.1.records

theorem add_inCustody (custody : InCustody c k u.backing s) (x : ρ) (spare : Nat) :
    Leads (add x spare) (u, s) (fun _ p => InCustody c k p.1.backing p.2)
      (fun _ p => InCustody c k p.1.backing p.2) := by
  have charged : InCustody c k (u.charging ⟨x, spare⟩).backing s := custody.of_eq rfl rfl
  refine add_of_charging (fun _ _ => custody) fun _ => ?_
  split
  · exact spill_inCustody charged
  · exact Leads.of_pure charged

theorem persist_inCustody (custody : InCustody c k u.backing s) :
    Leads persist (u, s)
      (fun m p => InCustody { c with kept := true } k p.1.backing p.2 ∧ m.Within c.path p.2.disk)
      (fun _ p => InCustody c k p.1.backing p.2) := by
  refine persist_of (fun _ _ => custody) (fun _ _ => custody) fun _ => ?_
  refine (spill_inCustody custody).mono ?_ fun _ _ post => post
  exact fun _ p custody => manifest_inCustody custody

theorem done_handsOver (custody : InCustody c k u.backing s) :
    Leads done (u, s) (fun out p => HandsOver c k out p.1.backing p.2)
      (fun _ p => InCustody c k p.1.backing p.2) := by
  have finished : InCustody c k u.finishing.backing s := custody.of_eq rfl rfl
  apply done_of (fun _ _ => custody)
  · refine fun _ _ => (sortData_inCustody finished).mono ?_ fun _ _ post => post
    exact fun _ _ custody _ _ => ⟨trivial, custody⟩
  · refine fun _ _ => (spill_inCustody finished).mono ?_ fun _ _ post => post
    exact fun _ p custody => mergeRuns_handsOver custody p.1.order

end Unbounded

/-! ## Sorters with a limit -/

namespace TopK

variable {t : TopK ρ}

omit [Storable ρ] in
theorem sortData_inCustody (custody : InCustody c k t.backing s) :
    Leads sortData (t, s) (fun _ p => InCustody c k p.1.backing p.2)
      (fun _ p => InCustody c k p.1.backing p.2) := by
  rw [sortData]
  refine Leads.bind (Leads.of_get₂ ?_)
  exact arrange_keeps (P := fun p : TopK ρ × Store => InCustody c k p.1.backing p.2) _ fun _ => custody

omit [Storable ρ] in
theorem promoteWorst_backing (t : TopK ρ) (known : Option Violation) :
    (t.promoteWorst.run known).1.backing = t.backing := by
  rw [promoteWorst]
  split <;> rfl

omit [Storable ρ] in
theorem promoteMedian_backing (t : TopK ρ) (known : Option Violation) :
    (t.promoteMedian.run known).1.backing = t.backing := by
  rw [promoteMedian]
  split <;> rfl

omit [Storable ρ] in
theorem learn_backing (t : TopK ρ) (worst median : Entry ρ) :
    (t.learn worst median).runFresh.1.backing = t.backing :=
  (promoteMedian_backing _ _).trans (promoteWorst_backing _ _)

omit [Storable ρ] in
theorem updateCutoff_inCustody (custody : InCustody c k t.backing s) :
    Leads updateCutoff (t, s) (fun _ p => InCustody c k p.1.backing p.2)
      (fun _ p => InCustody c k p.1.backing p.2) := by
  rw [updateCutoff]
  refine Leads.bind (Leads.of_get₂ ?_)
  dsimp only
  split
  · rename_i worst median _ _
    refine Leads.bind (Leads.of_set₂ ?_)
    refine report_keeps (P := fun p : TopK ρ × Store => InCustody c k p.1.backing p.2) _ ?_
    dsimp only
    rw [← learn_backing t worst median] at custody
    exact custody
  · exact Leads.of_pure custody

theorem spill_inCustody (custody : InCustody c k t.backing s) :
    Leads spill (t, s) (fun _ p => InCustody c k p.1.backing p.2)
      (fun _ p => InCustody c k p.1.backing p.2) := by
  have counted : InCustody c k t.spilling.backing s := custody.of_eq rfl rfl
  apply spill_of
  apply writeOut_of
  · exact fun _ => counted
  · exact fun _ _ _ => counted
  · intro _ _
    apply (sortData_inCustody counted).mono _ fun _ _ post => post
    rintro _ ⟨t₁, s₁⟩ custody
    apply (updateCutoff_inCustody custody).mono _ fun _ _ post => post
    rintro _ ⟨t₂, s₂⟩ custody
    apply (writeRun_inCustody custody (t₂.data.toList.map (·.record))).mono
    · exact fun _ _ custody' => custody'
    · exact fun _ _ custody' => custody'

theorem place_backing (t : TopK ρ) (entry : Entry ρ) :
    (t.place entry).runFresh.1.backing = t.backing := by
  rw [place]
  split
  · dsimp only
    split <;> rfl
  · rfl

theorem insert_inCustody (custody : InCustody c k t.backing s) (x : Resident ρ) :
    Leads (insert x) (t, s) (fun _ p => InCustody c k p.1.backing p.2)
      (fun _ p => InCustody c k p.1.backing p.2) := by
  have charged : InCustody c k (t.charging x).backing s := custody.of_eq rfl rfl
  rw [insert_eq]
  refine Leads.bind (Leads.of_get₂ (Leads.bind (Leads.of_set₂ ?_)))
  rw [← place_backing (t.charging x) ⟨x, t.nextSeq⟩] at charged
  refine Leads.seq (report_keeps (P := fun p : TopK ρ × Store => InCustody c k p.1.backing p.2) _
    charged) ?_ fun _ _ post => post
  rintro _ ⟨t', s'⟩ custody
  rw [spillIfFull]
  split
  · exact spill_inCustody custody
  · exact Leads.of_pure custody

theorem add_inCustody (custody : InCustody c k t.backing s) (x : ρ) (spare : Nat) :
    Leads (add x spare) (t, s) (fun _ p => InCustody c k p.1.backing p.2)
      (fun _ p => InCustody c k p.1.backing p.2) := by
  have counted : InCustody c k t.counting.backing s := custody.of_eq rfl rfl
  refine add_of (fun _ _ => custody) fun _ => ?_
  refine (checked_keeps (P := fun p : TopK ρ × Store => InCustody c k p.1.backing p.2) _
    counted).mono ?_ fun _ _ post => post
  rintro admitted ⟨t', s'⟩ custody
  split
  · exact insert_inCustody custody ⟨x, spare⟩
  · exact Leads.of_pure custody

theorem persist_inCustody (custody : InCustody c k t.backing s) :
    Leads persist (t, s)
      (fun m p => InCustody { c with kept := true } k p.1.backing p.2 ∧ m.Within c.path p.2.disk)
      (fun _ p => InCustody c k p.1.backing p.2) := by
  refine persist_of (fun _ _ => custody) (fun _ _ => custody) fun _ => ?_
  refine (spill_inCustody custody).mono ?_ fun _ _ post => post
  exact fun _ p custody => manifest_inCustody custody

theorem done_handsOver (custody : InCustody c k t.backing s) :
    Leads done (t, s) (fun out p => HandsOver c k out p.1.backing p.2)
      (fun _ p => InCustody c k p.1.backing p.2) := by
  have finished : InCustody c k t.finishing.backing s := custody.of_eq rfl rfl
  apply done_of (fun _ _ => custody)
  · refine fun _ _ => (sortData_inCustody finished).mono ?_ fun _ _ post => post
    exact fun _ _ custody _ _ => ⟨trivial, custody⟩
  · refine fun _ _ => (spill_inCustody finished).mono ?_ fun _ _ post => post
    exact fun _ p custody => mergeRuns_handsOver custody p.1.order

end TopK
end ExternalSort
