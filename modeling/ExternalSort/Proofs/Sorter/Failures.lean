/-
  ExternalSort.Proofs.Sorter.Failures

  What becomes of records when calls fail.

  A sorter can be used on after a call that failed. A call that could not write
  a run either leaves the records in memory where they are, or drops them: the
  buffer is emptied before its run is written. What was dropped is missing from
  the result, and nothing else is, unless the last write was cut short.
-/

import ExternalSort.Proofs.Sorter.Resumed

namespace ExternalSort

variable {ρ : Type}

/-! ## What goes on around the sorter -/

/-- What a process and its disk allow for the time being. -/
structure Surroundings where
  /-- The process must not spill. -/
  forbidden : Bool := false
  /-- The number of bytes that still fit on the disk, if it is bounded. -/
  free : Option Nat := none

/-- The store, as the surroundings are now. -/
def Store.within (s : Store) (now : Surroundings) : Store :=
  { s with spillForbidden := now.forbidden, disk := { s.disk with free := now.free } }

theorem Disk.grown_free (d : Disk) (free : Option Nat) : Disk.Grown d { d with free := free } :=
  ⟨rfl, id⟩

theorem SpillFile.Holds.within {f : SpillFile} {s : Store} {log : ByteArray}
    (h : f.Holds s.disk log) (now : Surroundings) : f.Holds (s.within now).disk log := by
  cases h with
  | opened isOpen => exact .opened (isOpen.of_contents rfl)
  | unopened unopened parents content =>
    have grown := s.disk.grown_free now.free
    exact .unopened unopened (grown.hasParents parents) (grown.contentAt rfl content)

theorem SpillFile.Usable.within {f : SpillFile} {s : Store} (h : f.Usable s.disk)
    (now : Surroundings) : f.Usable (s.within now).disk :=
  h.imp id fun ⟨handle, log, isOpen⟩ => ⟨handle, log, isOpen.of_contents rfl⟩

variable [Storable ρ] {options : Options} {order : Comparator ρ} {s : Store}

theorem Backing.Stands.within {b : Backing ρ} {lists : List (List ρ)}
    (h : b.Stands options s lists) (now : Surroundings) : b.Stands options (s.within now) lists := by
  obtain ⟨sameOptions, faithful, usable, runs, hruns, hlists, stored⟩ := h
  refine ⟨sameOptions, faithful, fun file hfile => ?_, runs, hruns, hlists, stored.imp id ?_⟩
  · exact ⟨(usable file hfile).1, (usable file hfile).2.within now⟩
  · rintro ⟨file, log, hfile, holds, rest⟩
    exact ⟨file, log, hfile, holds.within now, rest⟩

theorem Backing.Spilled.within {b : Backing ρ} {spilled : List ρ}
    (h : b.Spilled options order s spilled) (now : Surroundings) :
    b.Spilled options order (s.within now) spilled := by
  obtain ⟨lists, stands, rest⟩ := h
  exact ⟨lists, stands.within now, rest⟩

namespace Sorter

variable {sorter : Sorter ρ} {xs : List ρ}

/-- What a sorter retains does not depend on what it may do next. -/
theorem Retains.within (h : Retains options order sorter s xs) (now : Surroundings) :
    Retains options order sorter (s.within now) xs := by
  cases h with
  | unbounded limit keeps all =>
    exact .unbounded limit ⟨keeps.sameOrder, keeps.spilled.within now, keeps.data⟩ all
  | singleBest limit keeps => exact .singleBest limit keeps
  | topK limit keeps same =>
    exact .topK limit ⟨keeps.sameOrder, keeps.sameLimit, keeps.positive, keeps.inRuns.within now,
      keeps.entries, keeps.sound⟩ same

/-! ## Calls that may fail -/

/-- A call that was made, with the sorter before it, and the sorter and the store after it. -/
structure Attempt (ρ : Type) where
  call : Call ρ
  failed : Bool
  before : Sorter ρ
  after : Sorter ρ
  store : Store

namespace Attempt

variable (m : Attempt ρ)

/-- The records in memory, the one that was handed over included. -/
def held : Nat := m.before.inMemory + (offered [m.call]).length

/-- The records in memory are gone, and no run has them. -/
def Dropped : Prop := m.failed = true ∧ m.held ≠ 0 ∧ m.before.Drops m.after

/-- The last write was cut short. -/
def IsCut : Prop := m.after.IsCut m.store

instance : Decidable m.Dropped := inferInstanceAs (Decidable (_ ∧ _ ∧ _ ∧ _))

instance : Decidable m.IsCut := inferInstanceAs (Decidable (m.after.IsCut m.store))

/-- What is left of the records so far and of the one that was handed over. -/
def keeps (xs : List ρ) : List ρ :=
  let given := xs ++ offered [m.call]
  if m.Dropped then given.take (given.length - m.held) else given

end Attempt

/-- What is left of records when calls were made one after another. -/
def left (made : List (Attempt ρ)) (xs : List ρ) : List ρ :=
  made.foldl (fun xs m => m.keeps xs) xs

/-- Does what a call asks for. -/
def perform : Call ρ → SorterM (Sorter ρ) Unit
  | .add x spare => add x spare
  | .persist => do
    let _ ← persist

/-- Makes a call, and goes on if it fails. -/
def attempt (now : Surroundings) (call : Call ρ) : SorterM (Sorter ρ) (Attempt ρ) := do
  (modify (·.within now) : StoreM Unit)
  let before ← get
  let result ← ExceptT.lift (perform call).run
  return { call, failed := !result.isOk, before, after := ← get, store := ← (get : StoreM Store) }

/-- Makes calls, each in its surroundings, whether they fail or not. -/
def attempts : List (Surroundings × Call ρ) → SorterM (Sorter ρ) (List (Attempt ρ))
  | [] => return []
  | (now, call) :: rest => do
    let made ← attempt now call
    return made :: (← attempts rest)

section

variable [TakesSpace ρ] [Std.TransCmp order]

theorem perform_leads (retains : Retains options order sorter s xs)
    (accepting : sorter.finished = false) (call : Call ρ) :
    Leads (perform call) (sorter, s)
      (fun _ p => p.1.finished = false ∧ Retains options order p.1 p.2 (xs ++ offered [call]))
      (fun _ p => p.1.finished = false ∧
        Fails options order (sorter.inMemory + (offered [call]).length ≠ 0 ∧ sorter.Drops p.1)
          (sorter.inMemory + (offered [call]).length) p.1 p.2 (xs ++ offered [call])) := by
  cases call with
  | add x spare =>
    refine (add_leads retains accepting x spare).mono (fun _ _ h => h) ?_
    rintro _ p ⟨accepting', fails⟩
    refine ⟨accepting', ?_⟩
    cases fails with
    | retains kept retains => exact .retains (fun h => kept h.2) retains
    | drops dropped earlier => exact .drops ⟨Nat.succ_ne_zero _, dropped⟩ earlier
    | cut cut => exact .cut cut
  | persist =>
    rw [perform, offered, offered, List.append_nil]
    exact Leads.seq (persist_leads retains accepting) (fun _ _ h => Leads.of_pure h) fun _ _ h => h

/-- One call, as long as no write was cut short: what is left is retained. With a limit this needs
    that nothing was dropped, for the cutoff already counts on what is spilled. -/
theorem attempt_leads (retains : Retains options order sorter s xs)
    (accepting : sorter.finished = false) (now : Surroundings) (call : Call ρ) :
    Leads (attempt now call) (sorter, s)
      (fun m p => m.call = call ∧ p.1.finished = false ∧
        (m.IsCut ∨ (options.limit ≠ 0 ∧ m.Dropped) ∨ Retains options order p.1 p.2 (m.keeps xs)))
      (fun _ _ => False) := by
  -- the surroundings change first, then the outcome of the call is looked at, not raised
  rw [attempt]
  refine Leads.bind (Leads.of_outer (Leads.bind (Leads.of_get₂ (Leads.bind (Leads.of_result ?_)))))
  refine (perform_leads (retains.within now) accepting call).mono ?_ ?_
  · rintro _ p ⟨accepting', retains'⟩
    refine Leads.bind (Leads.of_get₂ (Leads.bind (Leads.of_outer (Leads.of_pure
      ⟨rfl, accepting', .inr (.inr ?_)⟩))))
    rw [Attempt.keeps, if_neg fun dropped => Bool.noConfusion dropped.1]
    exact retains'
  · rintro e p ⟨accepting', fails⟩
    refine Leads.bind (Leads.of_get₂ (Leads.bind (Leads.of_outer (Leads.of_pure
      ⟨rfl, accepting', ?_⟩))))
    cases fails with
    | retains kept retains' =>
      refine .inr (.inr ?_)
      rw [Attempt.keeps, if_neg fun dropped => kept dropped.2]
      exact retains'
    | drops dropped earlier =>
      by_cases limit : options.limit = 0
      · refine .inr (.inr ?_)
        rw [Attempt.keeps, if_pos ⟨rfl, dropped⟩]
        exact earlier limit
      · exact .inr (.inl ⟨limit, rfl, dropped⟩)
    | cut cut => exact .inl cut

/-- What is left after any number of calls is retained. -/
theorem attempts_leads (retains : Retains options order sorter s xs)
    (accepting : sorter.finished = false) (calls : List (Surroundings × Call ρ)) :
    Leads (attempts calls) (sorter, s)
      (fun made p => (∀ m ∈ made, ¬ m.IsCut) → (options.limit = 0 ∨ ∀ m ∈ made, ¬ m.Dropped) →
        made.map (·.call) = calls.map (·.2) ∧
          Retains options order p.1 p.2 (left made xs))
      (fun _ _ => True) := by
  -- by induction on the calls, for whatever is retained before them
  induction calls generalizing sorter s xs with
  | nil => exact Leads.of_pure fun _ _ => ⟨rfl, retains⟩
  | cons first rest ih =>
    obtain ⟨now, call⟩ := first
    rw [attempts]
    refine Leads.seq (attempt_leads retains accepting now call) ?_ fun _ _ h => h.elim
    rintro m ⟨sorter', t⟩ ⟨rfl, accepting', cut | dropped | retains'⟩
    · refine Leads.bind (Leads.of_forall (fun made _ => Leads.of_pure fun uncut _ => ?_) fun _ _ =>
        trivial)
      exact absurd cut (uncut m List.mem_cons_self)
    · refine Leads.bind (Leads.of_forall (fun made _ => Leads.of_pure fun _ kept => ?_) fun _ _ =>
        trivial)
      exact absurd dropped.2 (kept.resolve_left dropped.1 m List.mem_cons_self)
    · refine Leads.seq (ih retains' accepting') ?_ fun _ _ _ => trivial
      refine fun made p later => Leads.of_pure fun uncut kept => ?_
      obtain ⟨calls, retains''⟩ := later (List.forall_mem_cons.mp uncut).2
        (kept.imp id fun kept => (List.forall_mem_cons.mp kept).2)
      exact ⟨congrArg (_ :: ·) calls, retains''⟩

end

omit [Storable ρ] in
theorem offered_cons (call : Call ρ) (rest : List (Call ρ)) :
    offered (call :: rest) = offered [call] ++ offered rest := by
  cases call <;> rfl

omit [Storable ρ] in
/-- Where nothing is dropped everything is left. -/
theorem left_eq {made : List (Attempt ρ)} (kept : ∀ m ∈ made, ¬ m.Dropped) (xs : List ρ) :
    left made xs = xs ++ offered (made.map (·.call)) := by
  induction made generalizing xs with
  | nil => exact (List.append_nil xs).symm
  | cons m made ih =>
    obtain ⟨first, others⟩ := List.forall_mem_cons.mp kept
    calc left (m :: made) xs = left made (m.keeps xs) := rfl
      _ = m.keeps xs ++ offered (made.map (·.call)) := ih others _
      _ = xs ++ (offered [m.call] ++ offered (made.map (·.call))) := by
        rw [Attempt.keeps, if_neg first, List.append_assoc]
      _ = xs ++ offered ((m :: made).map (·.call)) := by rw [List.map_cons, ← offered_cons]

omit [Storable ρ] in
theorem length_keeps_le (m : Attempt ρ) (xs : List ρ) :
    (m.keeps xs).length ≤ xs.length + (offered [m.call]).length := by
  rw [Attempt.keeps, ← List.length_append]
  split
  · exact List.length_take_le' _ _
  · exact Nat.le_refl _

omit [Storable ρ] in
theorem length_left_le (made : List (Attempt ρ)) (xs : List ρ) :
    (left made xs).length ≤ xs.length + (offered (made.map (·.call))).length := by
  induction made generalizing xs with
  | nil => exact Nat.le_add_right _ _
  | cons m made ih =>
    have first := length_keeps_le m xs
    have rest : (left (m :: made) xs).length ≤ _ := ih (m.keeps xs)
    rw [List.map_cons, offered_cons, List.length_append]
    omega

/-! ## The result -/

/-- Makes calls, whether they fail or not, and asks for the result. -/
def attemptSort (options : Options) (order : Comparator ρ)
    (calls : List (Surroundings × Call ρ)) (last : Surroundings) :
    ExceptT Failure StoreM ((List (Attempt ρ) × Sorted ρ) × Sorter ρ) :=
  employ (ofOptions options order) do
    let made ← attempts calls
    (modify (·.within last) : StoreM Unit)
    return (made, ← done)

/-- A sorter gives out the first of what is left. -/
theorem attemptSort_leads [TakesSpace ρ] [LawfulStorable ρ] [Std.TransCmp order]
    (faithful : FaithfulHook options.activeProtector) {calls : List (Surroundings × Call ρ)}
    {last : Surroundings}
    (few : options.limit = 0 → (offered (calls.map (·.2))).length ≤ Merge.unlimited) :
    Leads (attemptSort options order calls last) s
      (fun p t => (∀ m ∈ p.1.1, ¬ m.IsCut) → (options.limit = 0 ∨ ∀ m ∈ p.1.1, ¬ m.Dropped) →
        p.1.1.map (·.call) = calls.map (·.2) ∧
          Drains p.1.2 t (leading order options.most (left p.1.1 [])))
      (fun _ _ => True) := by
  refine employ_leads (ofOptions_leads faithful s) ?_
  rintro sorter t ⟨accepting, retains⟩
  refine Leads.seq (attempts_leads retains accepting calls) ?_ fun _ _ _ => trivial
  rintro made ⟨sorter', t'⟩ retained
  refine Leads.bind (Leads.of_outer ?_)
  -- nothing is claimed of a sorter that had a write cut short, or dropped records it needs
  by_cases good : (∀ m ∈ made, ¬ m.IsCut) ∧ (options.limit = 0 ∨ ∀ m ∈ made, ¬ m.Dropped)
  · obtain ⟨same, retains'⟩ := retained good.1 good.2
    have few' : options.limit = 0 → (left made []).length ≤ Merge.unlimited := by
      intro limit
      have le := length_left_le made []
      rw [same, List.length_nil, Nat.zero_add] at le
      exact Nat.le_trans le (few limit)
    refine Leads.seq (done_leads (retains'.within last) few') ?_ fun _ _ _ => trivial
    exact fun sorted p drains => Leads.of_pure fun _ _ => ⟨same, drains.2⟩
  · exact Leads.bind (Leads.of_forall (fun _ _ => Leads.of_pure fun uncut kept =>
      absurd ⟨uncut, kept⟩ good) fun _ _ => trivial)

/-- Whatever failed on the way, as long as no write was cut short: what comes out of a sorter without
    a limit, which was handed fewer than `2 ^ 64 - 1` records, is what was not dropped; and if nothing
    was dropped, the first of all records that were handed over come out, with any limit. Nothing is
    said of a sorter with a limit once it dropped records, for its cutoff counts on them. -/
theorem drains_of_attempts {key value : Kind} (kinds : ¬ (key = .null ∧ value = .null))
    {options : Options} {order : Comparator (Record key value)} [Std.TransCmp order]
    (faithful : FaithfulHook options.activeProtector)
    {calls : List (Surroundings × Call (Record key value))} {last : Surroundings}
    (few : options.limit = 0 → (offered (calls.map (·.2))).length < UInt64.size - 1)
    {s s' : Store} {made : List (Attempt (Record key value))} {sorted : Sorted (Record key value)}
    {sorter : Sorter (Record key value)}
    (h : (attemptSort options order calls last).run.run s = (.ok ((made, sorted), sorter), s'))
    (uncut : ∀ m ∈ made, ¬ m.IsCut) :
    (options.limit = 0 → Drains sorted s' (stableSort order (left made []))) ∧
      ((∀ m ∈ made, ¬ m.Dropped) →
        Drains sorted s' (leading order options.most (offered (calls.map (·.2))))) := by
  have space := Record.takesSpace kinds
  have leads := (attemptSort_leads faithful fun limit => Nat.le_of_lt (few limit)).of_ok h uncut
  refine ⟨fun limit => ?_, fun kept => ?_⟩
  · obtain ⟨same, drains⟩ := leads (.inl limit)
    have le := length_left_le made []
    rw [same, List.length_nil, Nat.zero_add] at le
    rwa [Options.most, if_pos limit, leading, List.take_of_length_le] at drains
    rw [(perm_stableSort _).length_eq]
    exact Nat.le_trans le (Nat.le_of_lt (few limit))
  · obtain ⟨same, drains⟩ := leads (.inr kept)
    rwa [left_eq kept, List.nil_append, same] at drains

/-- A record is handed over while the process must not spill, and another one when it may again. -/
def refusedOnce : List (Surroundings × Call Numbered) :=
  [({ forbidden := true }, .add (7, ())), ({}, .add (8, ()))]

/-- Of the two records, one is left, and no run was cut. -/
def keepsOne : Bool :=
  match ((attemptSort spilling ascending refusedOnce {}).run.run {}).1 with
  | .ok ((made, _), _) => decide (∀ m ∈ made, ¬ m.IsCut) && (left made []).length == 1
  | .error _ => false

theorem drains_of_attempts_refused :
    ∃ made sorted sorter s',
      (attemptSort spilling ascending refusedOnce {}).run.run {} = (.ok ((made, sorted), sorter), s') ∧
      (∀ m ∈ made, ¬ m.IsCut) ∧ (left made []).length = 1 ∧
      Drains sorted s' (stableSort ascending (left made [])) := by
  have succeeds : keepsOne = true := by decide +kernel
  unfold keepsOne at succeeds
  rcases h : (attemptSort spilling ascending refusedOnce {}).run.run {} with
    ⟨_ | ⟨⟨made, sorted⟩, sorter⟩, s'⟩ <;> rw [h] at succeeds
  · exact Bool.noConfusion succeeds
  · obtain ⟨uncut, one⟩ := Bool.and_eq_true_iff.mp succeeds
    have faithful : FaithfulHook spilling.activeProtector := .of_none rfl
    exact ⟨made, sorted, sorter, s', rfl, of_decide_eq_true uncut, by simpa using one,
      (drains_of_attempts (by decide) faithful (fun _ => by decide) h
        (of_decide_eq_true uncut)).1 rfl⟩

/-- The second record is given out alone. -/
def givesEightOnly : Bool :=
  match (attemptSort spilling ascending refusedOnce {}).run.run {} with
  | (.ok ((_, sorted), _), s') =>
    match ((SortedSource.drain 3 sorted : StoreM _).run s').1.1 with
    | ([x], .finished) => x == (8, ())
    | _ => false
  | (.error _, _) => false

theorem loses_of_refused :
    offered (refusedOnce.map (·.2)) = [(7, ()), (8, ())] ∧ ∃ made sorted sorter s' source t',
      (attemptSort spilling ascending refusedOnce {}).run.run {} = (.ok ((made, sorted), sorter), s') ∧
      (SortedSource.drain 3 sorted : StoreM _).run s' = ((([(8, ())], .finished), source), t') := by
  have lost : givesEightOnly = true := by decide +kernel
  unfold givesEightOnly at lost
  refine ⟨rfl, ?_⟩
  rcases h : (attemptSort spilling ascending refusedOnce {}).run.run {} with
    ⟨_ | ⟨⟨made, sorted⟩, sorter⟩, s'⟩ <;> rw [h] at lost
  · exact Bool.noConfusion lost
  · dsimp only at lost
    rcases hdrain : (SortedSource.drain 3 sorted : StoreM _).run s' with ⟨⟨⟨out, end_⟩, source⟩, t'⟩
    rw [hdrain] at lost
    dsimp only at lost
    split at lost
    · rename_i x one
      cases one
      obtain rfl : x = (8, ()) := eq_of_beq lost
      exact ⟨made, sorted, sorter, s', source, t', rfl, hdrain⟩
    · exact Bool.noConfusion lost

end Sorter
end ExternalSort
