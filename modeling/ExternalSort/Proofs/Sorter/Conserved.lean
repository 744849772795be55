/-
  ExternalSort.Proofs.Sorter.Conserved

  How many records come out of runs that were persisted.

  Nothing is left to be written then, so asking the sorter for its result does
  not fail, and a sorter that takes up the runs does not fail either. Both give
  out as many records as were handed over, as long as every record takes space:
  a run of records that take none has no chunks, and nothing is read from it.
-/

import ExternalSort.Proofs.Sorter.Generations

namespace ExternalSort

variable {ρ : Type} [Storable ρ] {options options' : Options} {order : Comparator ρ}
  {earlier : Option Manifest} {xs : List ρ} {m : Manifest} {u : Unbounded ρ} {s : Store}

/-! ## Options to resume with -/

omit [Storable ρ] in
/-- Valid options without a limit that allow to spill can be resumed with, under any name. -/
theorem Unbounded.resumeDirectory_ok {name : String} {forbidden : Bool} (limit : options.limit = 0)
    (allowed : options.spillAllowed = true) (valid : options.validate forbidden = .ok ())
    (plain : Path.Plain name) :
    ∃ directory, resumeDirectory options name forbidden = .ok directory := by
  obtain ⟨directory, hdirectory⟩ := Options.exists_directory valid allowed
  have named : name.isEmpty = false :=
    String.isEmpty_eq_false_iff.mpr fun empty => plain.some (by rw [empty]; rfl)
  refine ⟨directory, ?_⟩
  simp [resumeDirectory, limit, allowed, named, valid, hdirectory]

/-! ## Results that do not fail -/

namespace Sorter

variable [TakesSpace ρ] [LawfulStorable ρ] [Std.TransCmp order]

/-- What is entirely in runs that were written out comes out, and nothing fails. -/
theorem done_of_written (limit : options.limit = 0) (keeps : u.Keeps options order s xs [])
    (accepting : u.backing.finished = false) (written : ¬ u.backing.Stuck s)
    (few : xs.length ≤ Merge.unlimited) :
    Leads done (.unbounded u, s) (fun sorted p => Drains sorted p.2 (stableSort order xs))
      (fun _ _ => False) := by
  apply dispatch_unbounded
  have few' : (xs ++ []).length ≤ options.most := by
    rw [List.append_nil, Options.most, if_pos limit]
    exact few
  apply (Unbounded.done_leads keeps few').mono
  · rintro sorted p ⟨-, drains⟩
    rw [List.append_nil] at drains
    exact drains
  -- none of the three ways to fail is left
  · rintro e p ⟨-, again | some | pending⟩
    · exact Bool.noConfusion (again.symm.trans accepting)
    · exact some rfl
    · exact written pending

/-- A sorter that persisted its records gives them out. -/
theorem done_of_persisted (persisted : u.Persisted options order earlier xs m s)
    (few : xs.length ≤ Merge.unlimited) :
    Leads done (.unbounded u, s) (fun sorted p => Drains sorted p.2 (stableSort order xs))
      (fun _ _ => False) := by
  obtain ⟨_, described⟩ := persisted.described
  exact done_of_written persisted.limit persisted.keeps persisted.accepting described.not_stuck few

/-- A sorter that takes up what another one left gives it out. -/
theorem done_of_leaves (leaves : m.Leaves options order s.disk xs) (alike : options.Alike options')
    (faithful : FaithfulHook options.activeProtector) (limit : options'.limit = 0)
    (allowed : options'.spillAllowed = true)
    (valid : options'.validate s.spillForbidden = .ok ()) (few : xs.length ≤ Merge.unlimited) :
    Leads (employ (resume m options' order) done) s
      (fun p t => Drains p.1 t (stableSort order xs)) (fun _ _ => False) := by
  obtain ⟨lists, describes, inOrder, ties⟩ := leaves
  obtain ⟨directory, hdirectory⟩ := Unbounded.resumeDirectory_ok limit allowed valid describes.plain
  rw [← alike.protector] at faithful
  have made : Leads (resume m options' order) s
      (fun sorter t => ∃ u, sorter = .unbounded u ∧ u.TookUp options' order m lists t)
      (fun _ _ => False) := by
    refine Leads.seq (Unbounded.resume_of_describes faithful (describes.alike alike)) ?_ ?_
    · exact fun u t tookUp => Leads.of_pure ⟨u, rfl, tookUp⟩
    · rintro _ _ ⟨e, he⟩
      cases hdirectory.symm.trans he
  refine employ_leads made ?_
  rintro _ t ⟨u, rfl, tookUp⟩
  have keeps : u.Keeps options' order t xs [] :=
    ⟨tookUp.sameOrder, ⟨lists, tookUp.stands, inOrder, ties⟩,
      u.records_eq_nil_iff.mpr tookUp.data⟩
  exact done_of_written limit keeps tookUp.accepting tookUp.written few

end Sorter

/-! ## Records of any kinds that take space -/

namespace Sorter

/-- Once the runs of a sorter were persisted, the sorter itself and every sorter that takes them up
    give out all records, none of them lost and none of them twice, if they are fewer than the
    `2 ^ 64 - 1` that a merge counts at most. -/
theorem conserves_of_persisted {key value : Kind} (kinds : ¬ (key = .null ∧ value = .null))
    {options : Options} {order : Comparator (Record key value)} [Std.TransCmp order]
    (limit : options.limit = 0) (faithful : FaithfulHook options.activeProtector)
    {calls : List (Call (Record key value))} (few : (offered calls).length < UInt64.size - 1)
    {s s' : Store} {m : Manifest} {sorter : Sorter (Record key value)}
    (h : (employ (ofOptions options order) (do feed calls; persist)).run.run s =
      (.ok (m, sorter), s')) :
    (stableSort order (offered calls)).length = (offered calls).length ∧
      (∃ sorted sorter' t, (done.run.run sorter).run s' = ((.ok sorted, sorter'), t) ∧
        Drains sorted t (stableSort order (offered calls))) ∧
      ∀ options' t, options.Alike options' → options'.limit = 0 → options'.spillAllowed = true →
        options'.validate t.spillForbidden = .ok () → t.disk = s'.disk →
        ∃ sorted sorter' t', (employ (resume m options' order) done).run.run t =
          (.ok (sorted, sorter'), t') ∧ Drains sorted t' (stableSort order (offered calls)) := by
  have space := Record.takesSpace kinds
  have few := Nat.le_of_lt few
  obtain ⟨u, rfl, persisted⟩ := (persisted_leads (ofOptions_heir limit faithful)).of_ok h
  rw [List.nil_append] at persisted
  refine ⟨(perm_stableSort _).length_eq, ?_, fun options' t alike limit' allowed valid disk => ?_⟩
  · obtain ⟨sorted, ⟨sorter', t⟩, hdone, drains⟩ := (done_of_persisted persisted few).exists_ok
    exact ⟨sorted, sorter', t, Leads.run_run_run hdone, drains⟩
  · have leaves := persisted.leaves
    rw [← disk] at leaves
    obtain ⟨⟨sorted, sorter'⟩, t', hdone, drains⟩ :=
      (done_of_leaves leaves alike faithful limit' allowed valid few).exists_ok
    exact ⟨sorted, sorter', t', hdone, drains⟩

/-- Two records are persisted, and spilling stays allowed. -/
def persistsTwo : Bool :=
  match (employ (ofOptions spilling ascending)
      (do feed [.add (2, ()), .add (1, ())]; persist)).run.run {} with
  | (.ok _, s') => !s'.spillForbidden
  | (.error _, _) => false

theorem conserves_of_persisted_two :
    ∃ m sorter s', (employ (ofOptions spilling ascending)
        (do feed [.add (2, ()), .add (1, ())]; persist)).run.run {} = (.ok (m, sorter), s') ∧
      (stableSort ascending [(2, ()), (1, ())]).length = 2 ∧
      (∃ sorted sorter' t, (done.run.run sorter).run s' = ((.ok sorted, sorter'), t) ∧
        Drains sorted t (stableSort ascending [(2, ()), (1, ())])) ∧
      ∃ sorted sorter' t', (employ (resume m spilling ascending) done).run.run s' =
        (.ok (sorted, sorter'), t') ∧ Drains sorted t' (stableSort ascending [(2, ()), (1, ())]) := by
  have succeeds : persistsTwo = true := by decide +kernel
  rw [persistsTwo] at succeeds
  rcases h : (employ (ofOptions spilling ascending)
    (do feed [.add (2, ()), .add (1, ())]; persist)).run.run {} with ⟨_ | ⟨m, sorter⟩, s'⟩
  · rw [h] at succeeds
    exact Bool.noConfusion succeeds
  · rw [h] at succeeds
    have faithful : FaithfulHook spilling.activeProtector := .of_none rfl
    obtain ⟨same, again, resumed⟩ :=
      conserves_of_persisted (by decide) rfl faithful (by decide) h
    refine ⟨m, sorter, s', rfl, same, again, ?_⟩
    refine resumed spilling s' ⟨rfl, rfl, rfl⟩ rfl rfl ?_ rfl
    rw [show s'.spillForbidden = false by simpa using succeeds]
    rfl

/-- Records that take no space. -/
abbrev Blank := Record .null .null

/-- They are all equal. -/
def indifferent : Comparator Blank := compareOn fun _ => 0

instance : Std.TransCmp indifferent :=
  inferInstanceAs (Std.TransCmp (compareOn fun _ : Blank => 0))

/-- Two blank records are persisted; the sorter gives out none of them, and resuming fails. -/
def losesBlank : Bool :=
  match (employ (ofOptions spilling indifferent)
      (do feed [.add ((), ()), .add ((), ())]; persist)).run.run {} with
  | (.ok (m, sorter), s') =>
    (match (done.run.run sorter).run s' with
    | ((.ok sorted, _), t) =>
      match ((SortedSource.drain 3 sorted : StoreM _).run t).1.1 with
      | ([], .finished) => true
      | _ => false
    | ((.error _, _), _) => false) &&
      !((employ (resume m spilling indifferent) done).run.run s').1.isOk
  | (.error _, _) => false

theorem loses_of_persisted_blank :
    ∃ m sorter s', (employ (ofOptions spilling indifferent)
        (do feed [.add ((), ()), .add ((), ())]; persist)).run.run {} = (.ok (m, sorter), s') ∧
      (∃ sorted sorter' t source t', (done.run.run sorter).run s' = ((.ok sorted, sorter'), t) ∧
        (SortedSource.drain 3 sorted : StoreM _).run t = ((([], .finished), source), t')) ∧
      ∃ e t', (employ (resume m spilling indifferent) done).run.run s' = (.error e, t') := by
  have lost : losesBlank = true := by decide +kernel
  rw [losesBlank] at lost
  rcases h : (employ (ofOptions spilling indifferent)
    (do feed [.add ((), ()), .add ((), ())]; persist)).run.run {} with ⟨_ | ⟨m, sorter⟩, s'⟩ <;>
    rw [h] at lost
  · exact Bool.noConfusion lost
  · refine ⟨m, sorter, s', rfl, ?_⟩
    obtain ⟨here, there⟩ := Bool.and_eq_true_iff.mp lost
    constructor
    · rcases hdone : (done.run.run sorter).run s' with ⟨⟨_ | sorted, sorter'⟩, t⟩ <;>
        rw [hdone] at here
      · exact Bool.noConfusion here
      · dsimp only at here
        rcases hdrain : (SortedSource.drain 3 sorted : StoreM _).run t with ⟨⟨⟨out, end_⟩, source⟩, t'⟩
        rw [hdrain] at here
        dsimp only at here
        split at here
        · rename_i nothing
          cases nothing
          exact ⟨sorted, sorter', t, source, t', rfl, hdrain⟩
        · exact Bool.noConfusion here
    · rcases hresumed : (employ (resume m spilling indifferent) done).run.run s' with ⟨e | _, t'⟩ <;>
        rw [hresumed] at there
      · exact ⟨e, t', rfl⟩
      · exact Bool.noConfusion there

end Sorter
end ExternalSort
