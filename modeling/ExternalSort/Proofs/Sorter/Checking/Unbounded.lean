/-
  ExternalSort.Proofs.Sorter.Checking.Unbounded

  What checking the comparator changes about an unbounded sorter.

  Every operation of a sorter that checks agrees with the same operation of one
  that does not. Records are compared only while they are sorted.
-/

import ExternalSort.Proofs.Sorter.Checking.Backing

namespace ExternalSort

namespace Unbounded

variable {ρ : Type}

theorem ofOptions_agrees (options : Options) (order : Comparator ρ) (s : Store) :
    Agrees (.same (Std.OrientedCmp order)) (erasure ρ) (ofOptions options order)
      (ofOptions options.unverified order) s := by
  rw [ofOptions, ofOptions]
  apply (Discreet.of_get.agrees s).ask
  intro t s
  apply ((Discreet.of_lift (options.validate_discreet _)).agrees s).ask
  intro _ s
  apply Agrees.ite
  · exact fun _ => .of_failure id
  · intro _
    apply (Backing.ofOptions_agrees options s).seq
    exact fun b _ _ => Agrees.of_pure (F := erasure ρ) id

theorem resumeDirectory_discreet (options : Options) (fileName : String) (forbidden : Bool) :
    Discreet (resumeDirectory options fileName forbidden) := by
  rw [resumeDirectory]
  apply Discreet.ite
  · exact fun _ => .of_error id
  intro _
  apply Discreet.ite
  · exact fun _ => .of_error id
  intro _
  apply Discreet.ite
  · exact fun _ => .of_error id
  intro _
  apply (options.validate_discreet forbidden).seq
  intro _
  split
  · exact .of_ok _
  · exact .of_error id

theorem requireContent_discreet (disk : Disk) (path : Path) :
    Discreet (requireContent disk path) := by
  rw [requireContent]
  split
  · exact .of_error id
  · exact .of_error id
  · exact .of_ok _

/-- The readers of runs do not depend on checks. -/
theorem readersOf_unverified (options : Options) (file : FileRef) (path : Path)
    (extents : List Extent) :
    (readersOf options.unverified file path extents : StoreM (List (RunReader ρ))) =
      readersOf options file path extents := by
  induction extents with
  | nil => rfl
  | cons extent rest ih =>
    rw [readersOf, readersOf, ih]
    rfl

/-- The sorter over the runs of a manifest that was accepted. -/
def overRuns (manifest : Manifest) (options : Options) (order : Comparator ρ) (path : Path) :
    SpillM (Unbounded ρ) := do
  let file ← Store.register path
  let runs ← (readersOf options file path manifest.extents : StoreM (List (RunReader ρ)))
  return {
    backing :=
      { options, file := some file, runs := runs.toArray, spills := manifest.extents.length }
    order }

theorem overRuns_agrees (manifest : Manifest) (options : Options) (order : Comparator ρ) (path : Path)
    (s : Store) :
    Agrees (.same (Std.OrientedCmp order)) (erasure ρ) (overRuns manifest options order path)
      (overRuns manifest options.unverified order path) s := by
  apply ((Discreet.of_state _).agrees s).ask
  intro file s
  rw [readersOf_unverified]
  apply ((Discreet.of_state _).agrees s).ask
  exact fun runs _ => Agrees.of_pure (F := erasure ρ) id

theorem resume_agrees (manifest : Manifest) (options : Options) (order : Comparator ρ) (s : Store) :
    Agrees (.same (Std.OrientedCmp order)) (erasure ρ) (resume manifest options order)
      (resume manifest options.unverified order) s := by
  rw [resume, resume]
  apply (Discreet.of_get.agrees s).ask
  intro t s
  apply ((Discreet.of_lift (resumeDirectory_discreet options _ _)).agrees s).ask
  intro directory s
  apply ((Discreet.of_lift manifest.checkExtents_discreet).agrees s).ask
  intro _ s
  apply Agrees.ite
  · intro _
    apply (Discreet.of_get.agrees s).ask
    intro t s
    apply ((Discreet.of_lift (requireContent_discreet _ _)).agrees s).ask
    exact fun _ s => overRuns_agrees manifest options order _ s
  · exact fun _ => overRuns_agrees manifest options order _ s

theorem less_echoes (u : Unbounded ρ) (a b : Resident ρ) :
    Echoes (Std.OrientedCmp u.order) id (u.less a b) (((erasure ρ).erase u).less a b) :=
  (checkedCompare_echoes u.order _ a.record b.record).ask fun _ => .of_pure id _

theorem sortData_agrees (p : Unbounded ρ × Store) :
    Agrees ((erasure ρ).inside Store) (.same True) sortData sortData p := by
  rw [sortData]
  apply Agrees.of_get
  refine Agrees.ask (.of_arrange (StableSort.sort_alike p.1.less_echoes _) (fun _ => rfl) fun _ => id) ?_
  exact fun _ _ => .of_modify rfl id

variable [Storable ρ]

theorem spill_agrees (p : Unbounded ρ × Store) :
    Agrees ((erasure ρ).inside Store) (.same True) spill spill p := by
  rw [spill]
  refine Agrees.ask (.of_modify rfl id) ?_
  intro _ p
  apply Agrees.of_get
  apply Agrees.ite
  · exact fun _ => .of_pure fun _ => trivial
  intro _
  apply Agrees.of_lift p.1.backing.requireSpillAllowed_discreet
  intro _ _
  apply (sortData_agrees p).ask
  intro _ p
  apply Agrees.of_get
  refine Agrees.of_set rfl id ?_
  refine Agrees.ask (.of_spill (p.1.backing.writeRun_agrees _ _)) ?_
  exact fun _ _ => .of_modify rfl id

theorem add_agrees (record : ρ) (spare : Nat) (p : Unbounded ρ × Store) :
    Agrees ((erasure ρ).inside Store) (.same True) (add record spare) (add record spare) p := by
  rw [add]
  apply Agrees.of_get
  apply Agrees.of_lift p.1.backing.requireAccepting_discreet
  intro _ _
  refine Agrees.ask (.of_modify rfl id) ?_
  intro _ p
  apply Agrees.of_get
  exact .ite (fun _ => spill_agrees p) fun _ => .of_pure fun _ => trivial

theorem done_agrees (p : Unbounded ρ × Store) :
    Agrees ((erasure ρ).inside Store) (Sorted.erasure ρ) done done p := by
  rw [done]
  apply Agrees.of_get
  apply Agrees.of_lift p.1.backing.requireUnfinished_discreet
  intro _ _
  refine Agrees.ask (.of_modify rfl id) ?_
  intro _ p
  apply Agrees.of_get
  apply Agrees.ite
  · intro _
    apply (sortData_agrees p).ask
    intro _ p
    apply Agrees.of_get
    apply Agrees.ite
    · intro _
      refine Agrees.of_set rfl id ?_
      exact .of_pure (F := Sorted.erasure ρ) (a := .inl _) fun _ => trivial
    · exact fun _ => .of_pure (F := Sorted.erasure ρ) (a := .inl _) fun _ => trivial
  · intro _
    apply (spill_agrees p).ask
    intro _ p
    apply Agrees.of_get
    refine Agrees.of_set rfl id ?_
    exact Agrees.of_spill (p.1.backing.mergeRuns_agrees p.1.order p.2)

theorem persist_agrees (p : Unbounded ρ × Store) :
    Agrees ((erasure ρ).inside Store) (.same True) persist persist p := by
  rw [persist]
  apply Agrees.of_get
  apply Agrees.of_lift p.1.backing.requireAccepting_discreet
  intro _ _
  apply Agrees.of_get
  refine Agrees.ask (.of_spill ((Discreet.of_lift p.1.backing.spillFile_discreet).agrees _)) ?_
  intro _ p
  apply (spill_agrees p).ask
  intro _ p
  apply Agrees.of_get
  exact .of_spill (p.1.backing.manifest_discreet.agrees _)

end Unbounded

end ExternalSort
