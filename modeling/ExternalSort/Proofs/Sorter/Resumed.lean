/-
  ExternalSort.Proofs.Sorter.Resumed

  A sorter that takes up runs from a disk it knows nothing about.

  The manifest may be wrong and the file may hold anything. If such a sorter
  gives out records to their end, then every extent of the manifest was read,
  once, and what was read there has the checksum that the manifest tells.
-/

import ExternalSort.Proofs.Merge.Interleaving
import ExternalSort.Proofs.Run.Verification
import ExternalSort.Proofs.Sorter.Session

namespace ExternalSort

namespace RunReader

variable {ρ : Type} [Storable ρ]

omit [Storable ρ] in
theorem isOpen_of_begins {runs : List (RunReader ρ)} {extents : List Extent}
    (begins : List.Forall₂ Begins runs extents) : ∀ run ∈ runs, run.closed = false := by
  induction begins with
  | nil => simp
  | cons begins _ ih => exact List.forall_mem_cons.mpr ⟨begins.isOpen, ih⟩

theorem checks_of_expects {runs : List (RunReader ρ)} {extents : List Extent}
    {lists : List (List ρ)} (begins : List.Forall₂ Begins runs extents)
    (expects : List.Forall₂ Expects runs lists) : List.Forall₂ Extent.Checks extents lists := by
  induction begins generalizing lists with
  | nil =>
    cases expects
    exact .nil
  | cons begins _ ih =>
    cases expects with
    | cons expects rest => exact .cons (begins.checks expects) (ih rest)

end RunReader

/-! ## Taking up runs -/

namespace Unbounded

variable {ρ : Type} {options : Options} {manifest : Manifest} {order : Comparator ρ} {s : Store}

/-- A reader for every extent, and nothing in memory. -/
theorem resume_begins :
    Leads (resume manifest options order : SpillM (Unbounded ρ)) s
      (fun u _ => u.backing.options.limit = 0 ∧ u.data = #[] ∧
        List.Forall₂ RunReader.Begins u.backing.runs.toList manifest.extents)
      (fun _ _ => True) := by
  apply (resume_leads manifest options order s).mono
  · rintro _ _ ⟨directory, file, allowed, -, -, ⟨rfl, -, -⟩, -⟩
    refine ⟨(of_resumeDirectory allowed).1, rfl, ?_⟩
    exact List.forall₂_map_left_iff.mpr (List.forall₂_same.mpr fun _ _ => ⟨rfl, rfl, rfl⟩)
  · exact fun _ _ _ => trivial

variable [Storable ρ]

/-- Without records, a sorter gives out a merge of its runs. -/
theorem done_of_empty {u : Unbounded ρ} (empty : u.data = #[]) :
    Leads done (u, s)
      (fun sorted _ => u.backing.runs = #[] ∧ sorted = .inl ⟨[]⟩ ∨
        ∃ q t t', sorted = .inr q ∧
          (Merge.ofSources u.backing.runs.toList u.backing.options.limit u.order
            u.backing.options.verifyOrder : StoreM _).run t = (.ok q, t'))
      (fun _ _ => True) := by
  apply done_of (fun _ _ => trivial)
  · intro _ none
    -- whatever the comparator says, there is nothing to compare
    have nothing : StableSort.sort u.finishing.less u.finishing.data.toList = pure [] := by
      rw [show u.finishing.data = #[] from empty]
      rfl
    rw [sortData]
    refine Leads.bind (Leads.of_get₂ (Leads.bind (Leads.of_arrange nothing ?_)))
    exact Leads.of_modify₂ fun _ _ => .inl ⟨none, rfl⟩
  · intro _ _
    refine spill_of (fun _ => ?_) (fun _ some => absurd empty some) fun some => absurd empty some
    rw [Backing.mergeRuns]
    refine Leads.bind ?_
    rcases hmerge : (Merge.ofSources u.backing.runs.toList u.backing.options.limit u.order
      u.backing.options.verifyOrder : StoreM _).run s with ⟨e | q, t⟩
    · exact Leads.of_runOn_error hmerge trivial
    · exact Leads.of_runOn_ok hmerge (Leads.of_pure (.inr ⟨q, s, t, rfl, hmerge⟩))

end Unbounded

/-! ## What comes out -/

namespace Sorter

variable {ρ : Type} [Storable ρ]

/-- Makes a sorter and operates on it. -/
def employ {α : Type} (make : SpillM (Sorter ρ)) (use : SorterM (Sorter ρ) α) :
    ExceptT Failure StoreM (α × Sorter ρ) := ExceptT.mk do
  match ← make.run with
  | .error e => return .error (.error e)
  | .ok sorter =>
    let (result, sorter) ← use.run.run sorter
    return result.map (·, sorter)

omit [Storable ρ] in
theorem employ_leads {α : Type} {make : SpillM (Sorter ρ)} {use : SorterM (Sorter ρ) α} {s : Store}
    {made : Sorter ρ → Store → Prop} {ok : α × Sorter ρ → Store → Prop}
    {err : Failure → Store → Prop} (hmade : Leads make s made fun e t => err (.error e) t)
    (hused : ∀ sorter t, made sorter t →
      Leads use (sorter, t) (fun a p => ok (a, p.1) p.2) fun e p => err e p.2) :
    Leads (employ make use) s ok err := by
  rcases hmade.outcome with ⟨sorter, t, hmake, made⟩ | ⟨e, t, hmake, failed⟩
  · have run (result : Except Failure α) (sorter' : Sorter ρ) (t' : Store)
        (huse : Failing.runOn use (sorter, t) = (result, sorter', t')) :
        Failing.runOn (employ make use) s = (result.map (·, sorter'), t') :=
      (run_bind_of_run hmake).trans (run_bind_of_run (Leads.run_run_run huse))
    rcases (hused sorter t made).outcome with
      ⟨a, ⟨sorter', t'⟩, huse, used⟩ | ⟨e, ⟨sorter', t'⟩, huse, failed⟩
    · exact Leads.of_runOn_ok (run _ _ _ huse) used
    · exact Leads.of_runOn_error (run _ _ _ huse) failed
  · exact Leads.of_runOn_error (run_bind_of_run hmake) failed

variable [CanonicalStorable ρ] {manifest : Manifest} {options : Options} {order : Comparator ρ}
  {s : Store}

/-- Once a resumed sorter gave out everything, each of its extents has the checksum of one list of
    records, and what came out is an interleaving of these lists. -/
theorem resumed_leads :
    Leads (employ (resume manifest options order) done) s
      (fun p _ => ∀ (count : UInt64) t out end_ t',
        (SortedSource.drain count.toNat p.1 : StoreM _).run t = (((out, .finished), end_), t') →
        ∃ lists, List.Forall₂ Extent.Checks manifest.extents lists ∧ Interleaves lists out)
      (fun _ _ => True) := by
  have made : Leads (resume manifest options order) s (fun sorter _ => ∃ u, sorter = .unbounded u ∧
      u.backing.options.limit = 0 ∧ u.data = #[] ∧
      List.Forall₂ RunReader.Begins u.backing.runs.toList manifest.extents) fun _ _ => True := by
    refine Leads.seq Unbounded.resume_begins ?_ fun _ _ _ => trivial
    exact fun u _ resumed => Leads.of_pure ⟨u, rfl, resumed⟩
  refine employ_leads made ?_
  · rintro _ t ⟨u, rfl, limit, empty, begins⟩
    apply dispatch_unbounded
    apply (Unbounded.done_of_empty empty).mono
    · rintro sorted _ result count t out end_ t' drained
      have both := (SortedSource.inMemory_accounts (S := Store) (ρ := ρ)).either
        (Merge.accounts RunReader.accounts u.backing.runs.toList.length)
      -- without extents there is nothing to read, else the merge gave out all of its readers
      rcases result with ⟨none, rfl⟩ | ⟨q, t, t', rfl, merged⟩
      · obtain ⟨-, rfl⟩ := both.drain drained trivial
        rw [none] at begins
        cases h : manifest.extents with
        | nil => exact ⟨[], .nil, .nil (by simp)⟩
        | cons e rest =>
          rw [h] at begins
          cases begins
      · obtain ⟨isOpen, whole⟩ := Merge.ofSources_ok RunReader.accounts
          (RunReader.isOpen_of_begins begins) merged
        obtain ⟨few, owes⟩ := both.drain drained isOpen
        have small : out.length < Merge.unlimited :=
          Nat.lt_of_lt_of_le few (Nat.le_pred_of_lt count.toNat_lt)
        rw [if_pos limit] at whole
        obtain ⟨lists, expects, interleaves⟩ := whole out owes small
        exact ⟨lists, RunReader.checks_of_expects begins expects, interleaves⟩
    · exact fun _ _ _ => trivial

/-- Whatever stands on the disk, when a sorter that took up the runs of a manifest gave out its
    records to their end, they are an interleaving of one list for each extent, and each of these
    lists has the checksum of its extent. The reads are counted with 64 bits, which leaves out an
    output of `2 ^ 64 - 1` records: there a merge stops counting and ends, and it need not have
    verified its runs if their records take no space. -/
theorem interleaves_of_resumed {key value : Kind} {manifest : Manifest} {options : Options}
    {order : Comparator (Record key value)} {s s' t t' : Store}
    {sorted end_ : Sorted (Record key value)} {sorter : Sorter (Record key value)}
    (h : (employ (resume manifest options order) done).run.run s = (.ok (sorted, sorter), s'))
    {count : UInt64} {out : List (Record key value)}
    (drained : (SortedSource.drain count.toNat sorted : StoreM _).run t =
      (((out, .finished), end_), t')) :
    ∃ lists, List.Forall₂ Extent.Checks manifest.extents lists ∧ Interleaves lists out :=
  resumed_leads.of_ok h count t out end_ t' drained

/-- What a sorter leaves behind that spilled two runs. -/
def leftBehind : Manifest × Store :=
  match (employ (ofOptions spilling ascending) (do feed [.add (2, ()), .add (1, ())]; persist)).run.run
    {} with
  | (.ok (manifest, _), s) => (manifest, s)
  | (.error _, s) => ({}, s)

/-- The sorter that took up what was left behind gives it out to its end. -/
def givesLeftBehind : Bool :=
  match (employ (resume leftBehind.1 spilling ascending) done).run.run leftBehind.2 with
  | (.ok (sorted, _), s') =>
    match (SortedSource.drain 3 sorted : StoreM _).run s' with
    | (((_, .finished), _), _) => true
    | _ => false
  | (.error _, _) => false

theorem interleaves_of_leftBehind :
    leftBehind.1.extents.length = 2 ∧ ∃ sorted sorter s' end_ t' out lists,
      (employ (resume leftBehind.1 spilling ascending) done).run.run leftBehind.2 =
        (.ok (sorted, sorter), s') ∧
      (SortedSource.drain 3 sorted : StoreM _).run s' = (((out, .finished), end_), t') ∧
      List.Forall₂ Extent.Checks leftBehind.1.extents lists ∧ Interleaves lists out := by
  refine ⟨by decide +kernel, ?_⟩
  have succeeds : givesLeftBehind = true := by decide +kernel
  unfold givesLeftBehind at succeeds
  rcases h : (employ (resume leftBehind.1 spilling ascending) done).run.run leftBehind.2 with
    ⟨_ | ⟨sorted, sorter⟩, s'⟩
  · rw [h] at succeeds
    exact Bool.noConfusion succeeds
  · rw [h] at succeeds
    dsimp only at succeeds
    rcases drained : (SortedSource.drain 3 sorted : StoreM _).run s' with ⟨⟨⟨out, end_⟩, source⟩, t'⟩
    rw [drained] at succeeds
    cases end_ with
    | finished =>
      obtain ⟨lists, checks, interleaves⟩ := interleaves_of_resumed h (show
        (SortedSource.drain (3 : UInt64).toNat sorted : StoreM _).run s' = _ from drained)
      exact ⟨sorted, sorter, s', source, t', out, lists, rfl, drained, checks, interleaves⟩
    | failed _ => exact Bool.noConfusion succeeds
    | enough => exact Bool.noConfusion succeeds

end Sorter
end ExternalSort
