/-
  ExternalSort.Proofs.Sorter.Checking.Backing

  What checking the comparator changes about the parts of a sorter.

  Sorting only asks for comparisons, and what they found is told after the state
  was changed, so up to there a sorter that checks and one that does not are in
  the same state. Writing runs does not depend on checks; merging them does.
-/

import ExternalSort.Proofs.Merge.Checking
import ExternalSort.Proofs.Order.StableSort.Checking
import ExternalSort.Proofs.Run.Discreet
import ExternalSort.Proofs.Sorter.Backing
import ExternalSort.Sorter.Basic

namespace ExternalSort

open Telling (Tells)

/-! ## Operations on sorters -/

theorem SorterM.runOn_spill {S α : Type} (op : SpillM α) (p : S × Store) :
    Failing.runOn (SorterM.spill op : SorterM S α) p =
      ((Failing.runOn op p.2).1.mapError .error, p.1, (Failing.runOn op p.2).2) := by
  have run : Failing.runOn (liftM (op.run : StoreM _) : SorterM S (Except SortError α)) p =
      (.ok (Failing.runOn op p.2).1, p.1, (Failing.runOn op p.2).2) := rfl
  rw [SorterM.spill, Failing.runOn_bind, run]
  rcases Failing.runOn op p.2 with ⟨_ | _, _⟩ <;> rfl

namespace Agrees

variable {S T α β : Type} {E : Erasure S T} {p : S × Store}

theorem of_spill {F : Erasure α β} {op : SpillM α} {op' : SpillM β}
    (h : Agrees (.same (E.sound p.1)) F op op' p.2) :
    Agrees (E.inside Store) F (SorterM.spill op) (SorterM.spill op') p := by
  rw [Agrees, Leads, SorterM.runOn_spill, SorterM.runOn_spill]
  rcases h.outcome with ⟨a, t, hrun, keeps, same⟩ | ⟨e, t, hrun, told | ⟨quiet, -, same⟩⟩ <;>
    rw [hrun]
  · refine ⟨keeps, ?_⟩
    rw [show Failing.runOn op' ((E.inside Store).erase p).2 = _ from same]
    rfl
  · exact .inl told
  · refine .inr ⟨quiet, id, ?_⟩
    rw [show Failing.runOn op' ((E.inside Store).erase p).2 = _ from same]
    rfl

/-- What was found is told, if anything was. -/
theorem of_report {violation violation' : Option Violation} (none : violation' = none)
    (found : E.sound p.1 → violation = .none) :
    Agrees (E.inside Store) (.same True) (SorterM.report violation) (SorterM.report violation') p := by
  subst none
  cases violation with
  | some v => exact .inl ⟨trivial, fun sound => Option.some_ne_none v (found sound)⟩
  | none => exact .of_pure fun _ => trivial

section Settling

variable {c : Checked S} {c' : Checked T} (h : Echoes (E.sound p.1) E.erase c c')
  (sound : E.sound c.runFresh.1 ↔ E.sound p.1)

include h sound

/-- The state becomes what was computed with comparisons, and what they found is told. -/
theorem of_settle :
    Agrees (E.inside Store) (.same True)
      (do
        set c.runFresh.1
        SorterM.report c.runFresh.2)
      (do
        set c'.runFresh.1
        SorterM.report c'.runFresh.2) p := by
  obtain ⟨alike, found⟩ := h.run_eq none
  refine of_set (congrArg Prod.fst alike) sound.mpr ?_
  exact of_report (congrArg Prod.snd alike) fun before => found (sound.mp before)

theorem of_settle_seq {F : Erasure α β} {k : S → SorterM S α} {l : T → SorterM T β}
    (hk : ∀ q, Agrees (E.inside Store) F (k c.runFresh.1) (l (E.erase c.runFresh.1)) q) :
    Agrees (E.inside Store) F
      (do
        set c.runFresh.1
        SorterM.report c.runFresh.2
        k c.runFresh.1)
      (do
        set c'.runFresh.1
        SorterM.report c'.runFresh.2
        l c'.runFresh.1) p := by
  obtain ⟨alike, found⟩ := h.run_eq none
  refine of_set (congrArg Prod.fst alike) sound.mpr ?_
  refine ask (of_report (congrArg Prod.snd alike) fun before => found (sound.mp before)) ?_
  rw [show c'.runFresh.1 = E.erase c.runFresh.1 from congrArg Prod.fst alike]
  exact fun _ q => hk q

end Settling

theorem of_checked {c c' : Checked α} (h : Echoes (E.sound p.1) id c c') :
    Agrees (E.inside Store) (.same True) (SorterM.checked c) (SorterM.checked c') p := by
  obtain ⟨alike, found⟩ := h.run_eq none
  rw [SorterM.checked, SorterM.checked, Checked.runFresh, Checked.runFresh, alike]
  exact (of_report rfl found).ask fun _ _ => .of_pure fun _ => trivial

theorem of_arrange {γ : Type} {sort sort' : StableSort.Arranging Checked γ (List γ)}
    {replace : List γ → S → S} {replace' : List γ → T → T}
    (h : StableSort.ArrangesAlike (E.sound p.1) sort sort')
    (same : ∀ xs, replace' xs (E.erase p.1) = E.erase (replace xs p.1))
    (keeps : ∀ xs, E.sound p.1 → E.sound (replace xs p.1)) :
    Agrees (E.inside Store) (.same True) (SorterM.arrange sort replace)
      (SorterM.arrange sort' replace') p := by
  obtain ⟨alike, found⟩ := h.run_eq none
  rw [SorterM.arrange, SorterM.arrange, Checked.runFresh, Checked.runFresh, alike]
  rcases hrun : sort.run.run none with ⟨arranged | sorted, violation⟩ <;> rw [hrun] at found
  · exact (of_modify (same arranged) (keeps arranged)).ask fun _ _ => .of_throw id
  · refine Leads.bind (Leads.of_modify₂ ?_)
    cases violation with
    | some v =>
      exact Leads.of_throw₂ (.inl ⟨trivial, fun sound => Option.some_ne_none v (found sound)⟩)
    | none =>
      exact Leads.of_pure ⟨fun sound => ⟨keeps sorted sound, trivial⟩,
        congrArg (fun b => (Except.ok (), b, p.2)) (same sorted)⟩

end Agrees

/-! ## Without checks -/

/-- The same options, without checks. -/
def Options.unverified (options : Options) : Options := { options with verifyOrder := false }

section Sorters

variable {ρ : Type}

/-- The same backing, without checks. -/
def Backing.unverified (b : Backing ρ) : Backing ρ := { b with options := b.options.unverified }

/-- Checks are taken away from backings. -/
def Backing.erasure (ρ : Type) : Erasure (Backing ρ) (Backing ρ) := ⟨unverified, fun _ => True⟩

/-- Checks are taken away from unbounded sorters. -/
def Unbounded.erasure (ρ : Type) : Erasure (Unbounded ρ) (Unbounded ρ) :=
  ⟨fun u => { u with backing := u.backing.unverified }, fun u => Std.OrientedCmp u.order⟩

/-- Checks are taken away from single-best sorters. -/
def SingleBest.erasure (ρ : Type) : Erasure (SingleBest ρ) (SingleBest ρ) :=
  ⟨fun b => { b with options := b.options.unverified }, fun b => Std.OrientedCmp b.order⟩

/-- Checks are taken away from top-k sorters. -/
def TopK.erasure (ρ : Type) : Erasure (TopK ρ) (TopK ρ) :=
  ⟨fun t => { t with backing := t.backing.unverified }, fun t => Std.OrientedCmp t.order⟩

/-- Checks are taken away from what sorters give out. -/
def Sorted.erasure (ρ : Type) : Erasure (Sorted ρ) (Sorted ρ) :=
  ⟨Sum.map id Merge.unverified, Sum.elim (fun _ => True) Merge.Sound⟩

end Sorters

/-! ## Backings -/

theorem Manifest.checkExtents_discreet (manifest : Manifest) : Discreet manifest.checkExtents := by
  rw [checkExtents]
  split
  · exact .of_error id
  · exact .of_ok _

namespace Backing

variable {ρ : Type}

theorem requireAccepting_discreet (b : Backing ρ) : Discreet b.requireAccepting :=
  .ite (fun _ => .of_error id) fun _ => .of_ok _

theorem requireUnfinished_discreet (b : Backing ρ) : Discreet b.requireUnfinished :=
  .ite (fun _ => .of_error id) fun _ => .of_ok _

theorem requireSpillAllowed_discreet (b : Backing ρ) : Discreet b.requireSpillAllowed :=
  .ite (fun _ => .of_ok _) fun _ => .of_error id

theorem spillFile_discreet (b : Backing ρ) : Discreet b.spillFile := by
  rw [spillFile]
  split
  · exact .of_ok _
  · exact .of_error id

theorem ofOptions_agrees (options : Options) {p : Prop} (s : Store) :
    Agrees (.same p) (erasure ρ) (liftM (ofOptions options : StoreM (Backing ρ)) : SpillM (Backing ρ))
      (liftM (ofOptions options.unverified : StoreM (Backing ρ)) : SpillM (Backing ρ)) s := by
  refine ⟨fun holds => ⟨holds, trivial⟩, ?_⟩
  have run : (ofOptions options.unverified : StoreM (Backing ρ)).run s =
      (((ofOptions options).run s).1.unverified,
        ((ofOptions options : StoreM (Backing ρ)).run s).2) := by
    rw [ofOptions, ofOptions]
    dsimp only [Options.unverified]
    split <;> rfl
  exact congrArg (fun out => (Except.ok out.1, out.2)) run

variable [Storable ρ]

theorem writeRun_discreet (b : Backing ρ) (records : List ρ) : Discreet (b.writeRun records) := by
  intro s
  cases hfile : b.file with
  | none =>
    rw [writeRun, spillFile, hfile]
    exact Leads.bind (Leads.of_throw id)
  | some file =>
    exact (writeRun_hindered hfile records s).mono (fun _ _ _ => trivial) fun _ _ h => h.not_tells

/-- Writing a run does not depend on checks. -/
theorem writeRun_agrees (b : Backing ρ) (records : List ρ) {p : Prop} (s : Store) :
    Agrees (.same p) (.same True) (b.writeRun records) (b.unverified.writeRun records) s :=
  (b.writeRun_discreet records).agrees s

omit [Storable ρ] in
theorem manifest_discreet (b : Backing ρ) : Discreet b.manifest := by
  rw [manifest]
  apply (Discreet.of_lift b.spillFile_discreet).seq
  intro file
  apply (Store.onFile_discreet (SpillFile.discreet_of_calm SpillFile.flush_calm) file).seq
  intro _
  apply (Store.onFile_discreet SpillFile.keep_discreet file).seq
  exact fun _ => Discreet.of_get.seq fun _ => .of_pure _

end Backing

/-! ## Merging -/

/-- Merging the runs checks the comparator. -/
theorem Backing.mergeRuns_agrees {ρ : Type} [Storable ρ] (b : Backing ρ) (order : Comparator ρ)
    (s : Store) :
    Agrees (.same (Std.OrientedCmp order)) (Sorted.erasure ρ) (b.mergeRuns order)
      (b.unverified.mergeRuns order) s := by
  rw [mergeRuns, mergeRuns]
  apply ((Merge.ofSources_conforms (fun _ => RunReader.silent ρ) _ _ _ _).agrees
    (F := Merge.erasure _ ρ) s).seq
  exact fun merge _ keeps => .of_pure (F := Sorted.erasure ρ) (a := .inr merge) fun holds =>
    (keeps holds).2

end ExternalSort
