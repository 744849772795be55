/-
  ExternalSort.Proofs.Sorter.Checking.Limited

  What checking the comparator changes about sorters with a limit.

  They compare a record also when they take it. Heaps and partition points only
  ask for comparisons, as sorting does, and the entries and the cutoff that they
  come to are put into the state before it is told what was found.
-/

import ExternalSort.Proofs.Sorter.Checking.Backing
import ExternalSort.Proofs.Sorter.TopK

namespace ExternalSort

/-! ## Single-best sorters -/

namespace SingleBest

variable {ρ : Type}

theorem ofOptions_agrees (options : Options) (order : Comparator ρ) (s : Store) :
    Agrees (.same (Std.OrientedCmp order)) (erasure ρ) (ofOptions options order)
      (ofOptions options.unverified order) s := by
  rw [ofOptions, ofOptions]
  apply (Discreet.of_get.agrees s).ask
  intro t s
  apply ((Discreet.of_lift (options.validate_discreet _)).agrees s).ask
  intro _ s
  apply Agrees.ite
  · exact fun _ => .of_failure id
  · exact fun _ => Agrees.of_pure (F := erasure ρ) id

theorem beatsBest_echoes (b : SingleBest ρ) (record : ρ) :
    Echoes (Std.OrientedCmp b.order) id (b.beatsBest record)
      (((erasure ρ).erase b).beatsBest record) := by
  rw [beatsBest, beatsBest]
  dsimp only [erasure]
  split
  · exact .of_pure id _
  · exact (checkedCompare_echoes b.order _ _ _).ask fun _ => .of_pure id _

theorem done_agrees (p : SingleBest ρ × Store) :
    Agrees ((erasure ρ).inside Store) (Sorted.erasure ρ) done done p := by
  rw [done]
  apply Agrees.of_get
  apply Agrees.ite
  · exact fun _ => .of_throw_seq id
  · intro _
    apply Agrees.of_get
    refine Agrees.of_set rfl id ?_
    exact .of_pure (F := Sorted.erasure ρ) (a := .inl _) fun _ => trivial

variable [Storable ρ]

theorem add_agrees (record : ρ) (spare : Nat) (p : SingleBest ρ × Store) :
    Agrees ((erasure ρ).inside Store) (.same True) (add record spare) (add record spare) p := by
  rw [add]
  apply Agrees.of_get
  apply Agrees.ite
  · exact fun _ => .of_throw_seq id
  · intro _
    refine Agrees.ask (.of_modify rfl id) ?_
    intro _ p
    apply Agrees.of_get
    apply (Agrees.of_checked (p.1.beatsBest_echoes record)).ask
    intro better p
    exact .ite (fun _ => .of_modify rfl id) fun _ => .of_pure fun _ => trivial

end SingleBest

/-! ## Top-k sorters -/

namespace TopK

variable {ρ : Type}

/-- Checks are taken away from top-k sorters. -/
abbrev unverified (t : TopK ρ) : TopK ρ := (erasure ρ).erase t

theorem ofOptions_agrees (options : Options) (order : Comparator ρ) (s : Store) :
    Agrees (.same (Std.OrientedCmp order)) (erasure ρ) (ofOptions options order)
      (ofOptions options.unverified order) s := by
  rw [ofOptions, ofOptions]
  apply (Discreet.of_get.agrees s).ask
  intro t s
  apply ((Discreet.of_lift (options.validate_discreet _)).agrees s).ask
  intro _ s
  apply Agrees.ite
  · exact fun _ => .of_failure id
  · intro _
    apply (Backing.ofOptions_agrees options s).seq
    exact fun b _ _ => Agrees.of_pure (F := erasure ρ) id

theorem less_echoes (t : TopK ρ) (a b : Entry ρ) :
    Echoes (Std.OrientedCmp t.order) id (t.less a b) (t.unverified.less a b) :=
  ((checkedCompare_echoes t.order _ _ _).ask fun _ => .of_pure id _).ask fun _ => .of_pure id _

theorem beats_echoes (t : TopK ρ) (a : Entry ρ) (b : Option (Entry ρ)) :
    Echoes (Std.OrientedCmp t.order) id (t.beats a b) (t.unverified.beats a b) := by
  cases b with
  | some b => exact t.less_echoes a b
  | none => exact .of_pure id true

theorem admits_echoes (t : TopK ρ) (resident : Resident ρ) :
    Echoes (Std.OrientedCmp t.order) id (t.admits resident) (t.unverified.admits resident) :=
  .ite (fun _ => t.beats_echoes _ _) fun _ => t.beats_echoes _ _

/-! ### Spilling -/

theorem sortData_agrees (p : TopK ρ × Store) :
    Agrees ((erasure ρ).inside Store) (.same True) sortData sortData p := by
  rw [sortData]
  apply Agrees.of_get
  refine Agrees.of_arrange ?_ (fun _ => rfl) fun _ => id
  apply StableSort.ArrangesAlike.ite
  · exact fun _ => .ask (Heap.onArray_echoes (fun v => Heap.sort_echoes p.1.less_echoes v) _)
      fun _ => .of_pure _
  · exact fun _ => StableSort.sort_alike p.1.less_echoes _

theorem replacesWorst_echoes (t : TopK ρ) (worst : Entry ρ) :
    Echoes (Std.OrientedCmp t.order) id (t.replacesWorst worst)
      (t.unverified.replacesWorst worst) := by
  rw [replacesWorst, replacesWorst]
  dsimp only [unverified, erasure]
  split
  · exact .ite (fun _ => t.less_echoes _ _) fun _ => .of_pure id _
  · exact .of_pure id _

theorem trackAnchors_echoes (t : TopK ρ) (worst median : Entry ρ) :
    Echoes (Std.OrientedCmp t.order) unverified (t.trackAnchors worst median)
      (t.unverified.trackAnchors worst median) := by
  apply (t.replacesWorst_echoes worst).ask
  intro replace
  refine Echoes.ask (partitionPoint_echoes (fun e => ?_) t.data) ?_
  · exact (t.less_echoes _ e).ask fun _ => .of_pure id _
  · exact fun noWorse => .of_pure unverified _

theorem promote_echoes (t : TopK ρ) (anchor : Option (Entry ρ)) :
    Echoes (Std.OrientedCmp t.order) id (t.promote anchor) (t.unverified.promote anchor) := by
  rw [promote.eq_def, promote.eq_def]
  split
  · exact .of_pure id _
  · exact (t.beats_echoes _ _).ask fun _ => .of_pure id _

theorem promoteWorst_echoes (t : TopK ρ) :
    Echoes (Std.OrientedCmp t.order) unverified t.promoteWorst t.unverified.promoteWorst :=
  .ite (fun _ => (t.promote_echoes _).ask fun _ => .of_pure unverified _)
    fun _ => .of_pure unverified _

theorem promoteMedian_echoes (t : TopK ρ) :
    Echoes (Std.OrientedCmp t.order) unverified t.promoteMedian t.unverified.promoteMedian :=
  .ite (fun _ => (t.promote_echoes _).ask fun _ => .of_pure unverified _)
    fun _ => .of_pure unverified _

/-- What is learnt from a spill, as one computation. -/
abbrev learn (t : TopK ρ) (worst median : Entry ρ) : Checked (TopK ρ) := do
  (← (← t.trackAnchors worst median).promoteWorst).promoteMedian

theorem promoteWorst_order (t : TopK ρ) (known : Option Violation) :
    (t.promoteWorst.run known).1.order = t.order := by
  rw [promoteWorst]
  split <;> rfl

theorem promoteMedian_order (t : TopK ρ) (known : Option Violation) :
    (t.promoteMedian.run known).1.order = t.order := by
  rw [promoteMedian]
  split <;> rfl

theorem learn_echoes (t : TopK ρ) (worst median : Entry ρ) :
    Echoes (Std.OrientedCmp t.order) unverified (t.learn worst median)
      (t.unverified.learn worst median) := by
  apply (t.trackAnchors_echoes worst median).seq
  intro t₁ h₁
  have same₁ : t₁.order = t.order := h₁ ▸ rfl
  rw [← same₁]
  apply t₁.promoteWorst_echoes.seq
  intro t₂ h₂
  have same₂ : t₂.order = t₁.order := h₂ ▸ t₁.promoteWorst_order none
  rw [← same₂]
  exact t₂.promoteMedian_echoes

theorem learn_order (t : TopK ρ) (worst median : Entry ρ) :
    ((t.learn worst median).run none).1.order = t.order :=
  (promoteMedian_order _ _).trans (promoteWorst_order _ _)

theorem updateCutoff_agrees (p : TopK ρ × Store) :
    Agrees ((erasure ρ).inside Store) (.same True) updateCutoff updateCutoff p := by
  rw [updateCutoff]
  apply Agrees.of_get
  rw [show ((erasure ρ).erase p.1).data = p.1.data from rfl]
  split
  · rename_i worst median _ _
    dsimp only
    refine Agrees.of_settle (E := erasure ρ) (p.1.learn_echoes worst median) ?_
    exact iff_of_eq (congrArg Std.OrientedCmp (p.1.learn_order worst median))
  · exact .of_pure fun _ => trivial

variable [Storable ρ]

theorem writeOut_agrees (p : TopK ρ × Store) :
    Agrees ((erasure ρ).inside Store) (.same True) writeOut writeOut p := by
  rw [writeOut]
  apply Agrees.of_get
  apply Agrees.ite
  · exact fun _ => .of_pure fun _ => trivial
  intro _
  apply Agrees.of_lift p.1.backing.requireSpillAllowed_discreet
  intro _ _
  apply (sortData_agrees p).ask
  intro _ p
  apply (updateCutoff_agrees p).ask
  intro _ p
  apply Agrees.of_get
  refine Agrees.of_set rfl id ?_
  refine Agrees.ask (.of_spill (p.1.backing.writeRun_agrees _ _)) ?_
  exact fun _ _ => .of_modify rfl id

theorem spill_agrees (p : TopK ρ × Store) :
    Agrees ((erasure ρ).inside Store) (.same True) spill spill p := by
  rw [spill]
  refine Agrees.ask (.of_modify rfl id) ?_
  exact fun _ p => writeOut_agrees p

/-! ### Taking records -/

theorem place_echoes (t : TopK ρ) (entry : Entry ρ) :
    Echoes (Std.OrientedCmp t.order) unverified (t.place entry) (t.unverified.place entry) := by
  apply Echoes.ite
  · intro _
    apply Echoes.ite
    · intro _
      refine Echoes.ask (Heap.onArray_echoes (fun v => Heap.make_echoes t.less_echoes v) _) ?_
      exact fun _ => .of_pure unverified _
    · exact fun _ => .of_pure unverified _
  · intro _
    refine Echoes.ask (Heap.onArray_echoes (fun v => Heap.pop_echoes t.less_echoes v) _) ?_
    intro data
    refine Echoes.ask (Heap.onArray_echoes (fun v => Heap.push_echoes t.less_echoes v) _) ?_
    exact fun _ => .of_pure unverified _

theorem place_order (t : TopK ρ) (entry : Entry ρ) :
    ((t.place entry).run none).1.order = t.order := by
  rw [place]
  split
  · dsimp only
    split <;> rfl
  · rfl

/-- Spills if the records take too much memory. -/
def spillIfFull (t : TopK ρ) : SorterM (TopK ρ) Unit := do
  if t.backing.options.memoryBudget.toNat < t.memoryUsed then spill

theorem insert_eq (resident : Resident ρ) : insert resident = (do
    let t ← get
    set ((t.charging resident).place ⟨resident, t.nextSeq⟩).runFresh.1
    SorterM.report ((t.charging resident).place ⟨resident, t.nextSeq⟩).runFresh.2
    spillIfFull ((t.charging resident).place ⟨resident, t.nextSeq⟩).runFresh.1) := rfl

theorem insert_agrees (resident : Resident ρ) (p : TopK ρ × Store) :
    Agrees ((erasure ρ).inside Store) (.same True) (insert resident) (insert resident) p := by
  rw [insert_eq]
  apply Agrees.of_get
  rw [show ((erasure ρ).erase p.1).charging resident = (p.1.charging resident).unverified from rfl]
  refine Agrees.of_settle_seq (E := erasure ρ) (k := spillIfFull) (l := spillIfFull)
    ((p.1.charging resident).place_echoes _) ?_ ?_
  · exact iff_of_eq (congrArg Std.OrientedCmp ((p.1.charging resident).place_order _))
  · exact fun q => .ite (fun _ => spill_agrees q) fun _ => .of_pure fun _ => trivial

theorem add_agrees (record : ρ) (spare : Nat) (p : TopK ρ × Store) :
    Agrees ((erasure ρ).inside Store) (.same True) (add record spare) (add record spare) p := by
  rw [add]
  apply Agrees.of_get
  apply Agrees.of_lift p.1.backing.requireAccepting_discreet
  intro _ _
  refine Agrees.ask (.of_modify rfl id) ?_
  intro _ p
  apply Agrees.of_get
  apply (Agrees.of_checked (p.1.admits_echoes ⟨record, spare⟩)).ask
  intro _ p
  exact .ite (fun _ => insert_agrees ⟨record, spare⟩ p) fun _ => .of_pure fun _ => trivial

theorem done_agrees (p : TopK ρ × Store) :
    Agrees ((erasure ρ).inside Store) (Sorted.erasure ρ) done done p := by
  rw [done]
  apply Agrees.of_get
  apply Agrees.of_lift p.1.backing.requireUnfinished_discreet
  intro _ _
  refine Agrees.ask (.of_modify rfl id) ?_
  intro _ p
  apply Agrees.of_get
  apply Agrees.ite
  · intro _
    apply (sortData_agrees p).ask
    intro _ p
    apply Agrees.of_get
    apply Agrees.ite
    · intro _
      refine Agrees.of_set rfl id ?_
      exact .of_pure (F := Sorted.erasure ρ) (a := .inl _) fun _ => trivial
    · exact fun _ => .of_pure (F := Sorted.erasure ρ) (a := .inl _) fun _ => trivial
  · intro _
    apply (spill_agrees p).ask
    intro _ p
    apply Agrees.of_get
    refine Agrees.of_set rfl id ?_
    exact Agrees.of_spill (p.1.backing.mergeRuns_agrees p.1.order p.2)

theorem persist_agrees (p : TopK ρ × Store) :
    Agrees ((erasure ρ).inside Store) (.same True) persist persist p := by
  rw [persist]
  apply Agrees.of_get
  apply Agrees.of_lift p.1.backing.requireAccepting_discreet
  intro _ _
  apply Agrees.of_get
  refine Agrees.ask (.of_spill ((Discreet.of_lift p.1.backing.spillFile_discreet).agrees _)) ?_
  intro _ p
  apply (spill_agrees p).ask
  intro _ p
  apply Agrees.of_get
  exact .of_spill (p.1.backing.manifest_discreet.agrees _)

end TopK

end ExternalSort
