/-
  ExternalSort.Proofs.Sorter.TopK

  What a sorter with a limit above 1 keeps.

  It does not keep every record, but the ones in its runs and in memory have the
  same first `limit` records as all that it was given.
-/

import ExternalSort.Proofs.Sorter.Cutoff

namespace ExternalSort
namespace TopK

/-! ## A rule for each operation

What an operation leads to follows from what its parts lead to. Nothing is assumed about the
comparator. -/

variable {ρ : Type}

/-- The sorter that has counted a spill. -/
def spilling (t : TopK ρ) : TopK ρ :=
  { t with backing := { t.backing with spills := t.backing.spills + 1 } }

/-- The sorter that has charged a record, and given it a number. -/
def charging [Storable ρ] (t : TopK ρ) (x : Resident ρ) : TopK ρ :=
  { t with
    nextSeq := t.nextSeq + 1
    memoryUsed := t.memoryUsed + x.footprint
    backing := { t.backing with dataSize := t.backing.dataSize + x.footprint } }

/-- The sorter that has counted a record. -/
def counting (t : TopK ρ) : TopK ρ :=
  { t with backing := { t.backing with sorted := t.backing.sorted + 1 } }

/-- The sorter that takes no more records. -/
def finishing (t : TopK ρ) : TopK ρ := { t with backing := { t.backing with finished := true } }

section Rules

variable [Storable ρ] {t : TopK ρ} {s : Store} {err : Failure → TopK ρ × Store → Prop}

/-- What is in memory is sorted, the cutoff learns from it, and it is written as a run. The memory is
    given up before that. -/
theorem writeOut_of {ok : Unit → TopK ρ × Store → Prop} (nothing : t.data = #[] → ok () (t, s))
    (refused : ∀ e, t.data ≠ #[] → t.backing.requireSpillAllowed = .error e → err e (t, s))
    (sorts : t.data ≠ #[] → t.backing.requireSpillAllowed = .ok () →
      Leads sortData (t, s)
        (fun _ p => Leads updateCutoff p
          (fun _ q => Leads (q.1.backing.writeRun (q.1.data.toList.map (·.record))) q.2
            (fun run s' => ok () ({ q.1 with
              data := #[]
              backing := { q.1.backing with runs := q.1.backing.runs.push run }
              memoryUsed := 0 }, s'))
            fun e s' => err (.error e) ({ q.1 with data := #[] }, s'))
          err)
        err) :
    Leads writeOut (t, s) ok err := by
  rw [writeOut]
  refine Leads.bind (Leads.of_get₂ ?_)
  dsimp only
  split
  case isTrue none => exact Leads.of_pure (nothing (Array.isEmpty_iff.mp none))
  case isFalse some =>
    have some := mt Array.isEmpty_iff.mpr some
    refine Leads.bind (Leads.of_lift₂ (fun _ allowed => ?_) fun e => refused e some)
    refine Leads.bind ((sorts some allowed).mono ?_ fun _ _ failed => failed)
    intro _ p learns
    refine Leads.bind (learns.mono ?_ fun _ _ failed => failed)
    intro _ q writes
    refine Leads.bind (Leads.of_get₂ (Leads.bind (Leads.of_set₂ (Leads.bind ?_))))
    apply Leads.of_sorterSpill
    exact writes.mono (fun _ _ written => Leads.of_modify₂ written) fun _ _ failed => failed

theorem spill_of {ok : Unit → TopK ρ × Store → Prop} (writes : Leads writeOut (t.spilling, s) ok err) :
    Leads spill (t, s) ok err := by
  rw [spill]
  exact Leads.bind (Leads.of_modify₂ writes)

/-- A record is counted before it is looked at. -/
theorem add_of {x : ρ} {spare : Nat} {ok : Unit → TopK ρ × Store → Prop}
    (refused : ∀ e, t.backing.requireAccepting = .error e → err e (t, s))
    (asks : t.backing.finished = false →
      Leads (SorterM.checked (t.counting.admits ⟨x, spare⟩)) (t.counting, s)
        (fun admitted p => Leads (if admitted then insert ⟨x, spare⟩ else pure ()) p ok err)
        err) :
    Leads (add x spare) (t, s) ok err := by
  rw [add]
  refine Leads.bind (Leads.of_get₂ (Leads.bind (Leads.of_lift₂ (fun _ allowed => ?_) refused)))
  refine Leads.bind (Leads.of_modify₂ (Leads.bind (Leads.of_get₂ (Leads.bind ?_))))
  exact asks (Backing.accepting_of_requireAccepting allowed)

/-- What is in memory is spilled, and then the runs are described. -/
theorem persist_of {ok : Manifest → TopK ρ × Store → Prop}
    (refused : ∀ e, t.backing.requireAccepting = .error e → err e (t, s))
    (homeless : ∀ e, t.backing.spillFile = .error e → err (.error e) (t, s))
    (spills : t.backing.finished = false →
      Leads spill (t, s)
        (fun _ p => Leads p.1.backing.manifest p.2 (fun m s' => ok m (p.1, s'))
          fun e s' => err (.error e) (p.1, s'))
        err) :
    Leads persist (t, s) ok err := by
  rw [persist]
  refine Leads.bind (Leads.of_get₂ (Leads.bind (Leads.of_lift₂ (fun _ allowed => ?_) refused)))
  refine Leads.bind (Leads.of_get₂ (Leads.bind (Leads.of_sorterSpill ?_)))
  refine Leads.of_lift (fun _ _ => ?_) homeless
  refine Leads.bind ((spills (Backing.accepting_of_requireAccepting allowed)).mono ?_
    fun _ _ failed => failed)
  exact fun _ _ describes => Leads.bind (Leads.of_get₂ (Leads.of_sorterSpill describes))

/-- Without runs the sorted entries in memory are what comes out; they stay, or they are given up. With
    runs they are spilled, and the runs are merged. -/
theorem done_of {ok : Sorted ρ → TopK ρ × Store → Prop}
    (again : ∀ e, t.backing.requireUnfinished = .error e → err e (t, s))
    (sorts : t.backing.finished = false → t.backing.runs = #[] →
      Leads sortData (t.finishing, s)
        (fun _ p => ∀ data, data = #[] ∨ data = p.1.data →
          ok (.inl ⟨p.1.data.toList.map (·.record)⟩) ({ p.1 with data }, p.2))
        err)
    (merges : t.backing.finished = false → t.backing.runs ≠ #[] →
      Leads spill (t.finishing, s)
        (fun _ p => Leads (p.1.backing.mergeRuns p.1.order) p.2
          (fun sorted s' =>
            ok sorted ({ p.1 with backing := { p.1.backing with runs := #[] } }, s'))
          fun e s' =>
            err (.error e) ({ p.1 with backing := { p.1.backing with runs := #[] } }, s'))
        err) :
    Leads done (t, s) ok err := by
  rw [done]
  refine Leads.bind (Leads.of_get₂ (Leads.bind (Leads.of_lift₂ (fun _ first => ?_) again)))
  have accepting := Backing.accepting_of_requireUnfinished first
  refine Leads.bind (Leads.of_modify₂ (Leads.bind (Leads.of_get₂ ?_)))
  dsimp only
  split
  case isTrue none =>
    have sorts := sorts accepting (Array.isEmpty_iff.mp none)
    refine Leads.bind (sorts.mono ?_ fun _ _ failed => failed)
    intro _ p given
    refine Leads.bind (Leads.of_get₂ ?_)
    split
    · exact Leads.bind (Leads.of_set₂ (Leads.of_pure (given _ (.inl rfl))))
    · exact Leads.of_pure (given _ (.inr rfl))
  case isFalse some =>
    have merges := merges accepting (mt Array.isEmpty_iff.mpr some)
    refine Leads.bind (merges.mono ?_ fun _ _ failed => failed)
    intro _ p merged
    exact Leads.bind (Leads.of_get₂ (Leads.bind (Leads.of_set₂ (Leads.of_sorterSpill merged))))

end Rules

/-! ## What is kept -/

variable [Storable ρ] {options : Options} {order : Comparator ρ} {t : TopK ρ} {s : Store}
  {spilled buffered : List ρ}

/-- The records in the runs of a sorter, up to the order of unequal ones, and those in memory, in
    the order of their arrival. -/
structure Keeps (options : Options) (order : Comparator ρ) (t : TopK ρ) (s : Store)
    (spilled buffered : List ρ) : Prop where
  sameOrder : t.order = order
  sameLimit : t.limit = options.most
  positive : 0 < t.limit
  inRuns : t.backing.Spilled options order s spilled
  entries : ∃ entries, Held order t.limit t.data entries ∧ Arrived t.nextSeq entries ∧
    entries.map (·.record) = buffered
  sound : t.Sound spilled

theorem Keeps.size_data (keeps : Keeps options order t s spilled buffered) :
    t.data.size = buffered.length := by
  obtain ⟨entries, held, -, rfl⟩ := keeps.entries
  rw [List.length_map, held.length_eq]

/-- The backing can change as long as its runs stand. -/
theorem Keeps.of_backing (keeps : Keeps options order t s spilled buffered) {backing : Backing ρ}
    (inRuns : backing.Spilled options order s spilled) :
    Keeps options order { t with backing } s spilled buffered :=
  ⟨keeps.sameOrder, keeps.sameLimit, keeps.positive, inRuns, keeps.entries, keeps.sound⟩

omit [Storable ρ] in
/-- A new sorter is nothing but its backing. -/
theorem ofOptions_of {ok : TopK ρ → Store → Prop} {err : SortError → Store → Prop}
    (invalid : ∀ e, options.validate s.spillForbidden = .error e → err e s)
    (low : options.limit ≤ 1 → err (.configuration (.topKLimit options.limit)) s)
    (h : options.validate s.spillForbidden = .ok () → 0 < options.limit.toNat →
      ok { backing := ((Backing.ofOptions options : StoreM (Backing ρ)).run s).1, order,
           limit := options.limit.toNat }
        ((Backing.ofOptions options : StoreM (Backing ρ)).run s).2) :
    Leads (ofOptions options order : SpillM (TopK ρ)) s ok err := by
  rw [ofOptions]
  refine Leads.bind (Leads.of_get (Leads.bind (Leads.of_lift (fun _ valid => ?_) invalid)))
  by_cases few : options.limit ≤ 1
  · rw [if_pos few]
    exact Leads.bind (Leads.of_throw (low few))
  · rw [if_neg few]
    have positive : 0 < options.limit.toNat := by
      rw [UInt64.le_iff_toNat_le] at few
      exact Nat.lt_of_lt_of_le Nat.zero_lt_one (Nat.le_of_not_le few)
    exact Leads.bind (Leads.of_state (Leads.of_pure (h valid positive)))

/-- A new sorter has taken nothing. -/
theorem ofOptions_leads (faithful : FaithfulHook options.activeProtector) (s : Store) :
    Leads (ofOptions options order : SpillM (TopK ρ)) s
      (fun t s' => t.backing.finished = false ∧ Keeps options order t s' [] [])
      (fun _ _ => True) := by
  obtain ⟨accepting, stands⟩ := Backing.ofOptions_stands ρ faithful s
  apply ofOptions_of (fun _ _ => trivial) (fun _ => trivial)
  intro _ positive
  have most : options.limit.toNat = options.most := by
    rw [Options.most, if_neg]
    intro zero
    rw [zero] at positive
    exact Nat.lt_irrefl 0 positive
  exact ⟨accepting, rfl, most, positive, Backing.Spilled.nil stands,
    ⟨[], Held.empty order positive, Arrived.nil 0, rfl⟩, {}, .start order _, List.Perm.refl []⟩

theorem writeOut_of_isEmpty (none : t.data.isEmpty = true) {ok : Unit → TopK ρ × Store → Prop}
    {err : Failure → TopK ρ × Store → Prop} (h : ok () (t, s)) : Leads writeOut (t, s) ok err := by
  have none := Array.isEmpty_iff.mp none
  exact writeOut_of (fun _ => h) (fun _ some => absurd none some) fun some => absurd none some

/-- Under a lawful comparator the entries are sorted and the cutoff learns from them. Whatever comes of
    that is up to writing the run. -/
theorem writeOut_of_writeRun [valid : Std.TransCmp t.order] {entries : List (Entry ρ)}
    (held : Held t.order t.limit t.data entries) (some : entries ≠ [])
    {ok : Unit → TopK ρ × Store → Prop} {err : Failure → TopK ρ × Store → Prop}
    (refused : ∀ e, t.backing.requireSpillAllowed = .error e → err e (t, s))
    (written : t.backing.requireSpillAllowed = .ok () → ∀ (sorted : List (Entry ρ)) (a : Anchors ρ),
      sorted.Perm entries → InOrder (entryOrder t.order) sorted →
      t.anchors.Learns t.order t.limit sorted a →
      Leads (t.backing.writeRun (sorted.map (·.record))) s
        (fun run s' => ok () ({ t.setAnchors a with
          data := #[]
          backing := { t.backing with runs := t.backing.runs.push run }
          memoryUsed := 0 }, s'))
        fun e s' => err (.error e) ({ t.setAnchors a with data := #[] }, s')) :
    Leads writeOut (t, s) ok err := by
  refine writeOut_of (fun none => ?_) (fun e _ => refused e) fun _ allowed => sortData_leads held ?_
  · exact absurd (held.isEmpty_iff.mp (Array.isEmpty_iff.mpr none)) some
  intro sorted perm inOrder
  have some' : sorted ≠ [] := by
    rintro rfl
    exact some (List.nil_perm.mp perm)
  -- the cutoff learns from the sorted records, before they are written
  have valid : Std.TransCmp ({ t with data := sorted.toArray } : TopK ρ).order := valid
  refine updateCutoff_leads (t := { t with data := sorted.toArray }) inOrder some' ?_
  exact fun a learns => written allowed sorted a perm inOrder learns

variable [Std.TransCmp order]

/-- The records in memory are moved into the runs. -/
theorem writeOut_leads [TakesSpace ρ] (keeps : Keeps options order t s spilled buffered) :
    Leads writeOut (t, s)
      (fun _ p => Keeps options order p.1 p.2 (spilled ++ buffered) [] ∧
        (buffered = [] ∧ p.1.backing.runs.size = t.backing.runs.size ∨
          p.1.backing.runs.size = t.backing.runs.size + 1) ∧
        t.backing.Follows s p.1.backing p.2)
      (fun _ p => Ends (Keeps options order p.1 p.2) (p.1.data = #[])
          (p.1.backing.IsCut p.2) t.backing.runs.size p.1.backing.runs.size spilled buffered ∧
        p.1.backing.finished = t.backing.finished) := by
  obtain ⟨rfl, sameLimit, positive, inRuns, ⟨entries, held, arrived, rfl⟩, sound⟩ := id keeps
  by_cases none : entries = []
  · subst none
    apply writeOut_of_isEmpty (held.isEmpty_iff.mpr rfl)
    rw [List.map_nil, List.append_nil]
    exact ⟨keeps, .inl ⟨rfl, rfl⟩, .refl _ _⟩
  · refine writeOut_of_writeRun held none (fun e _ => ⟨.took (.stays keeps rfl), rfl⟩) ?_
    intro _ sorted a perm inOrder learns
    obtain ⟨sortedRecords, ties⟩ := inOrder_and_ties_records arrived perm inOrder
    have some : entries.map (·.record) ≠ [] := by simpa using none
    apply (inRuns.writeRun sortedRecords ties some).mono
    · rintro run s' ⟨written, follows⟩
      have learnt := (sound.learn learns).perm ((List.Perm.refl spilled).append ties.perm)
      refine ⟨⟨rfl, sameLimit, positive, written.of_eq rfl rfl rfl,
        ⟨[], Held.empty t.order positive, Arrived.nil _, rfl⟩, learnt⟩, .inr ?_, follows⟩
      exact Array.size_push _
    -- the memory was given up before the run was written, so its records are gone
    · rintro e s' ⟨same | cut, around⟩
      · exact ⟨.loses rfl some rfl, rfl⟩
      · exact ⟨.cut cut, rfl⟩

/-- A spill moves the records in memory into the runs. -/
theorem spill_leads [TakesSpace ρ] (keeps : Keeps options order t s spilled buffered) :
    Leads spill (t, s)
      (fun _ p => Keeps options order p.1 p.2 (spilled ++ buffered) [] ∧
        (buffered = [] ∧ p.1.backing.runs.size = t.backing.runs.size ∨
          p.1.backing.runs.size = t.backing.runs.size + 1) ∧
        t.backing.Follows s p.1.backing p.2)
      (fun _ p => Ends (Keeps options order p.1 p.2) (p.1.data = #[])
          (p.1.backing.IsCut p.2) t.backing.runs.size p.1.backing.runs.size spilled buffered ∧
        p.1.backing.finished = t.backing.finished) := by
  have counted : Keeps options order t.spilling s spilled buffered :=
    keeps.of_backing (keeps.inRuns.of_eq rfl rfl rfl)
  apply spill_of
  apply (writeOut_leads counted).mono
  · rintro _ p ⟨keeps, runs, follows⟩
    exact ⟨keeps, runs, follows.of_eq rfl rfl rfl⟩
  · exact fun _ _ h => h

omit [Std.TransCmp order] in
/-- Whatever comes of a record that was put among those in memory is up to the spill, if there is
    one. -/
theorem insert_of_placed {x : Resident ρ} {data : Array (Entry ρ)} {memoryUsed : Nat}
    (placed : (t.charging x).place ⟨x, t.nextSeq⟩ = pure { t.charging x with data, memoryUsed })
    {ok : Unit → TopK ρ × Store → Prop} {err : Failure → TopK ρ × Store → Prop}
    (h : Leads (if t.backing.options.memoryBudget.toNat < memoryUsed then spill else pure ())
      ({ t.charging x with data, memoryUsed }, s) ok err) :
    Leads (insert x) (t, s) ok err := by
  rw [charging] at placed
  rw [insert]
  refine Leads.bind (Leads.of_get₂ ?_)
  dsimp only
  rw [placed]
  exact Leads.bind (Leads.of_set₂ (Leads.bind (Leads.of_pure h)))

/-- A record that can be among the first ones is taken, and what is in memory may be spilled. -/
theorem insert_leads [TakesSpace ρ] (keeps : Keeps options order t s spilled buffered)
    (x : Resident ρ) (admitted : ∀ top, t.data.size = t.limit → t.data[0]? = some top →
      entryOrder t.order ⟨x, t.nextSeq⟩ top = .lt) :
    ∃ buffered', buffered' ≠ [] ∧ buffered'.Sublist (buffered ++ [x.record]) ∧
      leading order options.most (spilled ++ buffered ++ [x.record]) =
        leading order options.most (spilled ++ buffered') ∧
      Leads (insert x) (t, s)
        (fun _ p => Took (Keeps options order p.1 p.2) t.backing.runs.size p.1.backing.runs.size
            spilled buffered' ∧ t.backing.Follows s p.1.backing p.2)
        (fun _ p => Ends (Keeps options order p.1 p.2) (p.1.data = #[])
            (p.1.backing.IsCut p.2) t.backing.runs.size p.1.backing.runs.size spilled buffered' ∧
          p.1.backing.finished = t.backing.finished) := by
  obtain ⟨rfl, sameLimit, positive, inRuns, ⟨entries, held, arrived, rfl⟩, sound⟩ := keeps
  have valid : Std.TransCmp (t.charging x).order := ‹_›
  obtain ⟨data, memoryUsed, entries', placed, held', trades⟩ :=
    place_eq (t := t.charging x) held positive t.nextSeq x
  have fewer := trades.sublist.map (·.record)
  rw [List.map_append] at fewer
  have some : entries'.map (·.record) ≠ [] :=
    List.ne_nil_of_mem (List.mem_map_of_mem trades.mem)
  have taken : Keeps options t.order { t.charging x with data, memoryUsed } s spilled
      (entries'.map (·.record)) :=
    ⟨rfl, sameLimit, positive, inRuns.of_eq rfl rfl rfl,
      ⟨entries', held', trades.arrived arrived, rfl⟩, sound⟩
  refine ⟨entries'.map (·.record), some, fewer,
    sameLimit ▸ trades.leading_eq held arrived admitted spilled, insert_of_placed placed ?_⟩
  -- the entry is in before the budget is looked at
  split
  · apply (spill_leads taken).mono
    · rintro _ p ⟨keeps, runs, follows⟩
      exact ⟨.of_spilled keeps runs, follows.of_eq rfl rfl rfl⟩
    · exact fun _ _ h => h
  · exact Leads.of_pure ⟨.stays taken rfl, (Backing.Follows.refl _ s).of_eq rfl rfl rfl⟩

omit [Std.TransCmp order] in
/-- Under a lawful comparator a record is taken if it can be among the first ones. -/
theorem add_of_takes [Std.TransCmp t.order] {x : ρ} {spare : Nat} {ok : Unit → TopK ρ × Store → Prop}
    {err : Failure → TopK ρ × Store → Prop}
    (refused : ∀ e, t.backing.requireAccepting = .error e → err e (t, s))
    (h : t.backing.finished = false →
      Leads (if t.takes ⟨⟨x, spare⟩, t.nextSeq⟩ then insert ⟨x, spare⟩ else pure ())
        (t.counting, s) ok err) :
    Leads (add x spare) (t, s) ok err := by
  have valid : Std.TransCmp t.counting.order := ‹_›
  exact add_of refused fun accepting =>
    Leads.of_checked (admits_eq (t := t.counting) ⟨x, spare⟩) (h accepting)

/-- A record that is offered is taken, or it is not among the first ones. -/
theorem add_leads [TakesSpace ρ] (keeps : Keeps options order t s spilled buffered)
    (accepting : t.backing.finished = false) (x : ρ) (spare : Nat) :
    ∃ buffered', buffered'.Sublist (buffered ++ [x]) ∧
      leading order options.most (spilled ++ buffered ++ [x]) =
        leading order options.most (spilled ++ buffered') ∧
      Leads (add x spare) (t, s)
        (fun _ p => Took (Keeps options order p.1 p.2) t.backing.runs.size p.1.backing.runs.size
            spilled buffered' ∧ t.backing.Follows s p.1.backing p.2)
        (fun _ p => Ends (Keeps options order p.1 p.2) (p.1.data = #[])
            (p.1.backing.IsCut p.2) t.backing.runs.size p.1.backing.runs.size spilled buffered' ∧
          buffered' ≠ [] ∧ p.1.backing.finished = false) := by
  have counted : Keeps options order t.counting s spilled buffered :=
    keeps.of_backing (keeps.inRuns.of_eq rfl rfl rfl)
  have refused (e : Failure) (h : t.backing.requireAccepting = .error e) : False :=
    absurd h (Backing.not_refused accepting e)
  obtain ⟨rfl, sameLimit, positive, -, ⟨entries, held, -, rfl⟩, sound⟩ := keeps
  cases taken : t.takes ⟨⟨x, spare⟩, t.nextSeq⟩ with
  -- a full heap takes only what beats its worst entry, which then leaves
  | true =>
    obtain ⟨buffered', some, fewer, same, leads⟩ :=
      insert_leads counted ⟨x, spare⟩ fun _ => lt_top_of_takes taken
    refine ⟨buffered', fewer, same, add_of_takes (fun e h => (refused e h).elim) fun _ => ?_⟩
    rw [taken]
    apply leads.mono
    · rintro _ p ⟨took, follows⟩
      exact ⟨took, follows.of_eq rfl rfl rfl⟩
    · rintro _ p ⟨ends, finished⟩
      exact ⟨ends, some, finished.trans accepting⟩
  -- as many entries as the limit are no worse, in memory or on disk
  | false =>
    refine ⟨entries.map (·.record), List.sublist_append_left _ _,
      sameLimit ▸ leading_of_not_takes held positive sound taken,
      add_of_takes (fun e h => (refused e h).elim) fun _ => ?_⟩
    rw [taken]
    exact Leads.of_pure ⟨.stays counted rfl, (Backing.Follows.refl _ s).of_eq rfl rfl rfl⟩

/-- What is in memory is spilled, and the manifest describes the runs. -/
theorem persist_leads [TakesSpace ρ] (keeps : Keeps options order t s spilled buffered)
    (accepting : t.backing.finished = false) :
    Leads persist (t, s)
      (fun m p => Keeps options order p.1 p.2 (spilled ++ buffered) [] ∧
        p.1.backing.finished = false ∧
        ∃ s', t.backing.Follows s p.1.backing s' ∧ p.1.backing.Described s' m p.2)
      (fun _ p => Ends (Keeps options order p.1 p.2) (p.1.data = #[])
          (p.1.backing.IsCut p.2) t.backing.runs.size p.1.backing.runs.size spilled buffered ∧
        p.1.backing.finished = false) := by
  apply persist_of
  · exact fun e refused => absurd refused (Backing.not_refused accepting e)
  · exact fun _ _ => ⟨.took (.stays keeps rfl), accepting⟩
  intro _
  -- the manifest comes after the spill, so it can fail with all records in the runs
  refine (spill_leads keeps).mono ?_ ?_
  · rintro _ ⟨t', s'⟩ ⟨⟨sameOrder, sameLimit, positive, inRuns, entries, sound⟩, runs, follows⟩
    have finished := follows.finished.trans accepting
    refine inRuns.manifest.mono ?_ ?_
    · rintro m s'' ⟨inRuns', described⟩
      exact ⟨⟨sameOrder, sameLimit, positive, inRuns', entries, sound⟩, finished, s', follows,
        described⟩
    · rintro e s'' ⟨inRuns' | cut, -⟩
      · exact ⟨.took (.of_spilled ⟨sameOrder, sameLimit, positive, inRuns', entries, sound⟩ runs),
          finished⟩
      · exact ⟨.cut cut, finished⟩
  · rintro e p ⟨ends, finished⟩
    exact ⟨ends, finished.trans accepting⟩

section Done

variable {ok : Sorted ρ → TopK ρ × Store → Prop} {err : Failure → TopK ρ × Store → Prop}

omit [Std.TransCmp order] in
/-- With nothing spilled the entries in memory are what comes out; they stay, or they are given
    up. -/
theorem done_of_noRuns [valid : Std.TransCmp t.order] {entries : List (Entry ρ)}
    (held : Held t.order t.limit t.data entries) (none : t.backing.runs.isEmpty = true)
    (again : ∀ e, t.backing.requireUnfinished = .error e → err e (t, s))
    (h : t.backing.finished = false → ∀ (sorted : List (Entry ρ)) (data : Array (Entry ρ)),
      sorted.Perm entries → InOrder (entryOrder t.order) sorted → data.toList.Sublist sorted →
      ok (.inl ⟨sorted.map (·.record)⟩) ({ t.finishing with data }, s)) :
    Leads done (t, s) ok err := by
  have valid : Std.TransCmp t.finishing.order := valid
  refine done_of again (fun accepting _ => ?_) fun _ some => absurd (Array.isEmpty_iff.mp none) some
  refine sortData_leads (t := t.finishing) held fun sorted perm inOrder => ?_
  rintro data (rfl | rfl)
  · exact h accepting sorted #[] perm inOrder (List.nil_sublist _)
  · exact h accepting sorted sorted.toArray perm inOrder (List.Sublist.refl _)

omit [Std.TransCmp order] in
/-- With runs, what is in memory is spilled, and the runs are merged. -/
theorem done_of_runs (some : ¬ t.backing.runs.isEmpty = true)
    (again : ∀ e, t.backing.requireUnfinished = .error e → err e (t, s))
    (h : t.backing.finished = false → Leads spill (t.finishing, s)
      (fun _ p => Leads (p.1.backing.mergeRuns p.1.order) p.2
        (fun sorted s' => ok sorted ({ p.1 with backing := { p.1.backing with runs := #[] } }, s'))
        fun e s' =>
          err (.error e) ({ p.1 with backing := { p.1.backing with runs := #[] } }, s'))
      err) :
    Leads done (t, s) ok err := by
  exact done_of again (fun _ none => absurd (Array.isEmpty_iff.mpr none) some)
    fun accepting _ => h accepting

end Done

/-- The sorter gives out the first records of all that it has kept. -/
theorem done_leads [TakesSpace ρ] [LawfulStorable ρ]
    (keeps : Keeps options order t s spilled buffered) :
    Leads done (t, s)
      (fun sorted p => p.1.backing.finished = true ∧
        ReadsOut sorted p.2 (leading order options.most (spilled ++ buffered)))
      (fun _ p => p.1.backing.finished = true) := by
  have ended : Keeps options order t.finishing s spilled buffered :=
    keeps.of_backing (keeps.inRuns.of_eq rfl rfl rfl)
  obtain ⟨rfl, sameLimit, -, inRuns, entries, -⟩ := keeps
  have again (e : Failure) : t.backing.requireUnfinished = .error e → t.backing.finished = true :=
    Backing.finished_of_requireUnfinished
  -- with nothing spilled there are at most as many entries as are asked for; else runs are merged
  by_cases none : t.backing.runs.isEmpty = true
  · obtain rfl := inRuns.eq_nil none
    obtain ⟨entries, held, arrived, rfl⟩ := entries
    apply done_of_noRuns held none again
    intro _ sorted data perm inOrder _
    have records : sorted.map (·.record) =
        leading t.order options.most ([] ++ entries.map (·.record)) := by
      rw [List.nil_append, leading, List.take_of_length_le]
      · exact records_eq_stableSort arrived perm inOrder
      · rw [(perm_stableSort _).length_eq, List.length_map, held.length_eq, ← sameLimit]
        exact held.size_le
    rw [← records]
    exact ⟨rfl, readsOut_inMemory _ _⟩
  · apply done_of_runs none again
    intro _
    refine (spill_leads ended).mono ?_ fun _ _ h => h.2
    rintro _ ⟨t', s'⟩ ⟨⟨sameOrder, -, -, inRuns', -, -⟩, runs, follows⟩
    have some : t'.backing.runs.isEmpty = false := Backing.isEmpty_runs_of_more none runs
    dsimp only
    rw [sameOrder]
    apply (inRuns'.mergeRuns some).mono
    · exact fun sorted s'' readsOut => ⟨follows.finished, readsOut⟩
    · exact fun _ _ _ => follows.finished

end TopK
end ExternalSort
