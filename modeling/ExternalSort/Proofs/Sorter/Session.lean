/-
  ExternalSort.Proofs.Sorter.Session

  A sorter from its beginning to its result.

  A session makes a sorter, hands it records, and asks for the result; now and
  then what is in memory may be written out for another sorter to take up. Where
  the buffer was spilled does not show in what comes out.
-/

import ExternalSort.Proofs.Sorter.Strategies

namespace ExternalSort

/-- A call that a sorter takes before it is done. -/
inductive Call (ρ : Type)
  | add (record : ρ) (spare : Nat := 0)
  | persist

/-- The records handed over by calls, first to last. -/
def offered {ρ : Type} : List (Call ρ) → List ρ
  | [] => []
  | .add x _ :: rest => x :: offered rest
  | .persist :: rest => offered rest

namespace Sorter

variable {ρ : Type} [Storable ρ]

/-- Makes calls until one fails. -/
def feed : List (Call ρ) → SorterM (Sorter ρ) Unit
  | [] => return ()
  | .add x spare :: rest => do
    add x spare
    feed rest
  | .persist :: rest => do
    let _ ← persist
    feed rest

/-- The result of a sorter that calls were made to. -/
def session (options : Options) (order : Comparator ρ) (calls : List (Call ρ)) :
    ExceptT Failure StoreM (Sorted ρ) := ExceptT.mk do
  match ← (ofOptions options order).run with
  | .error e => return .error (.error e)
  | .ok sorter =>
    let (result, _) ← (do feed calls; done : SorterM (Sorter ρ) (Sorted ρ)).run.run sorter
    return result

variable {options : Options} {order : Comparator ρ} {s : Store}

/-- What a session leads to, from what making the sorter does. -/
theorem session_of_leads {calls : List (Call ρ)}
    {made : Sorter ρ → Store → Prop} {ok : Sorted ρ → Store → Prop}
    (hmade : Leads (ofOptions options order) s made fun _ _ => True)
    (hrest : ∀ sorter s', made sorter s' → Leads (do feed calls; done) (sorter, s')
      (fun sorted p => ok sorted p.2) fun _ _ => True) :
    Leads (session options order calls) s ok fun _ _ => True := by
  rcases hmade.outcome with ⟨sorter, t, hmake, made⟩ | ⟨e, t, hmake, -⟩
  · have run (result : Except Failure (Sorted ρ)) (sorter' : Sorter ρ) (t' : Store)
        (huse : Failing.runOn (do feed calls; done) (sorter, t) = (result, sorter', t')) :
        Failing.runOn (session options order calls) s = (result, t') :=
      (run_bind_of_run hmake).trans (run_bind_of_run (Leads.run_run_run huse))
    rcases (hrest sorter t made).outcome with
      ⟨sorted, ⟨sorter', t'⟩, huse, fed⟩ | ⟨e, ⟨sorter', t'⟩, huse, -⟩
    · exact Leads.of_runOn_ok (run _ _ _ huse) fed
    · exact Leads.of_runOn_error (run _ _ _ huse) trivial
  · exact Leads.of_runOn_error (run_bind_of_run hmake) trivial

variable [TakesSpace ρ] [Std.TransCmp order] {sorter : Sorter ρ}

/-- Calls that succeed retain every record. -/
theorem feed_leads {taken : List ρ} (retains : Retains options order sorter s taken)
    (accepting : sorter.finished = false) (calls : List (Call ρ)) :
    Leads (feed calls) (sorter, s)
      (fun _ p => Retains options order p.1 p.2 (taken ++ offered calls)) (fun _ _ => True) := by
  induction calls generalizing sorter s taken with
  | nil =>
    rw [offered, List.append_nil]
    exact Leads.of_pure retains
  | cons call rest ih =>
    cases call with
    | add x spare =>
      refine Leads.seq (add_leads retains accepting x spare) ?_ fun _ _ _ => trivial
      rintro _ ⟨sorter', s'⟩ ⟨accepting', retains'⟩
      have next := ih retains' accepting'
      rwa [List.append_assoc] at next
    | persist =>
      refine Leads.seq (persist_leads retains accepting) ?_ fun _ _ _ => trivial
      rintro _ ⟨sorter', s'⟩ ⟨accepting', retains'⟩
      exact ih retains' accepting'

/-- Whatever the budget, and wherever the calls made it spill, a sorter gives out the first records
    of the stable sort of all that was handed to it. -/
theorem session_leads [LawfulStorable ρ] (faithful : FaithfulHook options.activeProtector)
    (calls : List (Call ρ))
    (few : options.limit = 0 → (offered calls).length ≤ Merge.unlimited) (s : Store) :
    Leads (session options order calls) s
      (fun sorted s' => Drains sorted s' (leading order options.most (offered calls)))
      (fun _ _ => True) := by
  refine session_of_leads (ofOptions_leads faithful s) ?_
  rintro sorter s' ⟨accepting, retains⟩
  refine Leads.seq (feed_leads retains accepting calls) ?_ fun _ _ _ => trivial
  rintro _ ⟨sorter', t⟩ retains'
  apply (done_leads retains' few).mono
  · exact fun _ _ h => h.2
  · exact fun _ _ _ => trivial

end Sorter

/-! ## Records of any kinds -/

namespace Sorter

/-- Whatever the budget, and wherever the calls made it spill, what comes out of a sorter without a
    limit is every record handed to it, in order, and equal records in the order of their arrival. -/
theorem drains_stableSort_of_session {key value : Kind} (kinds : ¬ (key = .null ∧ value = .null))
    {options : Options} {order : Comparator (Record key value)} [Std.TransCmp order]
    (limit : options.limit = 0) (faithful : FaithfulHook options.activeProtector)
    {calls : List (Call (Record key value))} (few : (offered calls).length < UInt64.size - 1)
    {s s' : Store} {sorted : Sorted (Record key value)}
    (h : (session options order calls).run.run s = (.ok sorted, s')) :
    StablySorts order (offered calls) (stableSort order (offered calls)) ∧
      Drains sorted s' (stableSort order (offered calls)) := by
  have space := Record.takesSpace kinds
  have drains := (session_leads faithful calls (fun _ => Nat.le_of_lt few) s).of_ok h
  rw [Options.most, if_pos limit, leading, List.take_of_length_le] at drains
  · exact ⟨stablySorts_stableSort _, drains⟩
  · rw [(perm_stableSort _).length_eq]
    exact Nat.le_of_lt few

/-- Records that are a number and nothing else. -/
abbrev Numbered := Record .int32 .null

/-- The order of the numbers. -/
def ascending : Comparator Numbered := compareOn fun r => (show Int32 from r.1).toInt

instance : Std.TransCmp ascending :=
  inferInstanceAs (Std.TransCmp (compareOn fun r : Numbered => (show Int32 from r.1).toInt))

/-- Options that make every record spill. -/
def spilling : Options :=
  { memoryBudget := 1, spillAllowed := true, spillDirectory := some ⟨"/tmp"⟩ }

theorem drains_stableSort_spilling :
    ∃ sorted s', (session spilling ascending [.add (2, ()), .persist, .add (1, ())]).run.run {} =
      (.ok sorted, s') ∧ Drains sorted s' (stableSort ascending [(2, ()), (1, ())]) := by
  have succeeds : ((session spilling ascending [.add (2, ()), .persist, .add (1, ())]).run.run
      {}).1.isOk = true := by decide +kernel
  rcases h : (session spilling ascending [.add (2, ()), .persist, .add (1, ())]).run.run {} with
    ⟨_ | sorted, s'⟩
  · rw [h] at succeeds
    exact Bool.noConfusion succeeds
  · have faithful : FaithfulHook spilling.activeProtector :=
      fun p hp => absurd (show none = some p from hp) (by simp)
    exact ⟨sorted, s', rfl, (drains_stableSort_of_session (by decide) rfl faithful (by decide) h).2⟩

/-- Whatever the budget, and wherever the calls made it spill, what comes out of a sorter with a
    limit is the first records of the stable sort of all that was handed to it. -/
theorem drains_take_of_session {key value : Kind} (kinds : ¬ (key = .null ∧ value = .null))
    {options : Options} {order : Comparator (Record key value)} [Std.TransCmp order]
    (limit : options.limit ≠ 0) (faithful : FaithfulHook options.activeProtector)
    {calls : List (Call (Record key value))} {s s' : Store} {sorted : Sorted (Record key value)}
    (h : (session options order calls).run.run s = (.ok sorted, s')) :
    Drains sorted s' ((stableSort order (offered calls)).take options.limit.toNat) := by
  have space := Record.takesSpace kinds
  have drains := (session_leads faithful calls (fun zero => absurd zero limit) s).of_ok h
  rwa [Options.most, if_neg limit] at drains

/-- Options that make every record spill, for the first two records. -/
def spillingTwo : Options := { spilling with limit := 2 }

/-- Calls that make a cutoff known, which rejects a record. -/
def callsWithCutoff : List (Call Numbered) :=
  [.add (2, ()), .add (1, ()), .add (3, ()), .persist, .add (0, ())]

theorem drains_take_spilling :
    ∃ sorted s', (session spillingTwo ascending callsWithCutoff).run.run {} = (.ok sorted, s') ∧
      Drains sorted s' ((stableSort ascending [(2, ()), (1, ()), (3, ()), (0, ())]).take 2) := by
  have succeeds : ((session spillingTwo ascending callsWithCutoff).run.run {}).1.isOk = true := by
    decide +kernel
  rcases h : (session spillingTwo ascending callsWithCutoff).run.run {} with ⟨_ | sorted, s'⟩
  · rw [h] at succeeds
    exact Bool.noConfusion succeeds
  · have faithful : FaithfulHook spillingTwo.activeProtector :=
      fun p hp => absurd (show none = some p from hp) (by simp)
    exact ⟨sorted, s', rfl, drains_take_of_session (by decide) (by decide) faithful h⟩

end Sorter
end ExternalSort
