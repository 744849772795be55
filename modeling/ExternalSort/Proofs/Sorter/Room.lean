/-
  ExternalSort.Proofs.Sorter.Room

  Where nothing is in the way, a sorter does not fail.

  A record is written at most once. So the room that is kept for a record is
  there from the moment it is handed over until it is written, or dropped in
  favour of a better one: if the disk has room for all records at the beginning,
  then all of them are taken, and the sorter gives out its result.
-/

import ExternalSort.Proofs.Run.Room
import ExternalSort.Proofs.Sorter.Memory

namespace ExternalSort

open RunWriter (Short takenBy)

variable {ρ : Type} [Storable ρ] {n : Nat}

/-- The room that is kept for a record: for what it adds to a run, and for the header that the run
    begins with. -/
def reserve (x : ρ) : Nat := Chunk.headerSize + takenBy x

/-- What is kept for records is enough for a run of them. -/
theorem run_le_reserve {xs : List ρ} (some : xs ≠ []) :
    Chunk.headerSize + charge takenBy xs ≤ charge reserve xs := by
  cases xs with
  | nil => exact absurd rfl some
  | cons x xs =>
    have rest : charge takenBy xs ≤ charge reserve xs :=
      charge_mono (fun x => Nat.le_add_left (takenBy x) _) xs
    rw [charge_cons, charge_cons, reserve]
    omega

/-- Options to spill with, and no hook; a new spill file has room for `n` bytes. -/
structure Options.Roomy (n : Nat) (options : Options) (s : Store) : Prop where
  valid : options.validate s.spillForbidden = .ok ()
  allowed : options.spillAllowed = true
  bare : options.activeProtector = none
  room : SpillFile.Roomy n { path := options.spillPath s.names } s.disk

theorem Options.Roomy.mono {options : Options} {s : Store} {m : Nat} (roomy : options.Roomy n s)
    (le : m ≤ n) : options.Roomy m s :=
  ⟨roomy.valid, roomy.allowed, roomy.bare, roomy.room.mono le⟩

namespace Backing

variable {b b' : Backing ρ} {s : Store}

/-- A backing that may spill, without a hook, and with room for `n` bytes in its file. -/
structure Roomy (n : Nat) (b : Backing ρ) (s : Store) : Prop where
  allowed : b.options.spillAllowed = true
  directory : b.options.hasSpillDirectory = true
  bare : b.options.activeProtector = none
  room : ∃ file, b.file = some file ∧ s.Roomy n file

omit [Storable ρ] in
theorem Roomy.mono {m : Nat} (roomy : b.Roomy n s) (le : m ≤ n) : b.Roomy m s := by
  obtain ⟨allowed, directory, bare, file, hfile, room⟩ := roomy
  exact ⟨allowed, directory, bare, file, hfile, room.mono le⟩

omit [Storable ρ] in
/-- Only the options and the file of a backing matter. -/
theorem Roomy.of_eq (roomy : b.Roomy n s) (options : b'.options = b.options)
    (file : b'.file = b.file) : b'.Roomy n s := by
  obtain ⟨allowed, directory, bare, room⟩ := roomy
  exact ⟨options ▸ allowed, options ▸ directory, options ▸ bare, file ▸ room⟩

omit [Storable ρ] in
theorem Roomy.allows (roomy : b.Roomy n s) (e : Failure) :
    b.requireSpillAllowed ≠ .error e := by
  rw [requireSpillAllowed, if_pos roomy.allowed]
  exact fun refused => by cases refused

omit [Storable ρ] in
theorem Roomy.not_stuck (roomy : b.Roomy n s) : ¬ b.Stuck s := by
  obtain ⟨-, -, -, file, hfile, room⟩ := roomy
  rintro ⟨file', hfile', stuck⟩
  obtain rfl := Option.some.inj (hfile.symm.trans hfile')
  exact room.room.not_stuck stuck

/-- A backing with the room that is kept for records, none of which is too long, and for `n` bytes
    more. -/
structure Reserves (xs : List ρ) (n : Nat) (b : Backing ρ) (s : Store) : Prop where
  short : ∀ x ∈ xs, Short x
  room : b.Roomy (charge reserve xs + n) s

namespace Reserves

variable {xs ys : List ρ}

theorem nothing (roomy : b.Roomy n s) : b.Reserves [] n s := by
  refine ⟨fun _ hx => absurd hx List.not_mem_nil, ?_⟩
  rwa [charge, Nat.zero_add]

theorem mono {m : Nat} (reserves : b.Reserves xs n s) (le : m ≤ n) : b.Reserves xs m s :=
  ⟨reserves.short, reserves.room.mono (Nat.add_le_add_left le _)⟩

theorem of_eq (reserves : b.Reserves xs n s) (options : b'.options = b.options)
    (file : b'.file = b.file) : b'.Reserves xs n s :=
  ⟨reserves.short, reserves.room.of_eq options file⟩

theorem perm (reserves : b.Reserves xs n s) (perm : ys.Perm xs) : b.Reserves ys n s := by
  refine ⟨fun x hx => reserves.short x (perm.mem_iff.mp hx), ?_⟩
  rw [charge_perm perm]
  exact reserves.room

theorem sublist (reserves : b.Reserves xs n s) (fewer : ys.Sublist xs) : b.Reserves ys n s :=
  ⟨fun x hx => reserves.short x (fewer.mem hx),
    reserves.room.mono (Nat.add_le_add_right (charge_sublist fewer) _)⟩

/-- The room for one more record is kept with the others. -/
theorem concat {x : ρ} (reserves : b.Reserves xs (reserve x + n) s) (short : Short x) :
    b.Reserves (xs ++ [x]) n s := by
  refine ⟨fun y hy => ?_, ?_⟩
  · rcases List.mem_append.mp hy with before | here
    · exact reserves.short y before
    · rw [List.mem_singleton.mp here]
      exact short
  · rw [charge_concat, Nat.add_assoc]
    exact reserves.room

end Reserves

/-- A run takes the room that is kept for its records. -/
theorem writeRun_roomy {xs : List ρ} (some : xs ≠ []) (reserves : b.Reserves xs n s) :
    Leads (b.writeRun xs) s (fun _ s' => b.Roomy n s') fun _ _ => False := by
  obtain ⟨short, allowed, directory, bare, file, hfile, room⟩ := reserves
  have enough : Chunk.headerSize + (charge takenBy xs + n) ≤ charge reserve xs + n := by
    have run := run_le_reserve some
    omega
  apply writeRun_of hfile
  refine (RunWriter.begin_roomy directory bare (room.mono enough)).mono ?_ fun _ _ h => h
  intro w t begun
  refine (RunWriter.addAll_roomy short begun).mono ?_ fun _ _ h => h.elim
  rintro _ ⟨w', t'⟩ taken
  refine (RunWriter.finish_roomy taken).mono ?_ fun _ _ h => h
  exact fun _ _ left => ⟨allowed, directory, bare, file, hfile, left⟩

omit [Storable ρ] in
/-- The file of a new backing is the one that there is room in. -/
theorem ofOptions_roomy (ρ : Type) {options : Options} (roomy : options.Roomy n s) :
    ((ofOptions options : StoreM (Backing ρ)).run s).1.Roomy n
      ((ofOptions options : StoreM (Backing ρ)).run s).2 := by
  obtain ⟨hasDirectory, permitted⟩ := Options.can_spill_of_valid roomy.valid roomy.allowed
  obtain ⟨directory, hdirectory⟩ := Options.exists_directory roomy.valid roomy.allowed
  have path : options.spillPath s.names = directory.join ⟨s.names.next.1⟩ := by
    rw [Options.spillPath, hdirectory, Option.getD_some]
  have room := roomy.room
  obtain ⟨known, fresh⟩ :=
    Store.register_run (options.spillPath s.names) { s with names := s.names.next.2 }
  rw [← fresh, path] at room
  rw [path] at known
  rw [ofOptions, hdirectory, roomy.allowed]
  exact ⟨roomy.allowed, hasDirectory, roomy.bare, _, rfl, known, permitted, room⟩

end Backing

namespace Unbounded

variable {u : Unbounded ρ} {s : Store}

/-- A spill takes the room that is kept for what is in memory. -/
theorem spill_roomy [Std.TransCmp u.order] (reserves : u.backing.Reserves u.records n s) :
    Leads spill (u, s) (fun _ p => p.1.backing.Reserves p.1.records n p.2) fun _ _ => False := by
  have valid : Std.TransCmp u.spilling.order := ‹_›
  apply spill_of
  · exact fun _ => reserves.of_eq rfl rfl
  · exact fun e _ => reserves.room.allows e
  · intro some _
    refine sortData_leads (u := u.spilling) fun data sorted records => ?_
    have perm : (data.toList.map (·.record)).Perm u.records := records ▸ perm_stableSort u.records
    have some : data.toList.map (·.record) ≠ [] := by
      intro none
      rw [none] at perm
      exact some (u.records_eq_nil_iff.mp (List.nil_perm.mp perm))
    refine (Backing.writeRun_roomy some ((reserves.perm perm).of_eq rfl rfl)).mono ?_ fun _ _ h => h
    exact fun _ _ left => .nothing (left.of_eq rfl rfl)

/-- A record that is taken needs the room that is kept for it. -/
theorem add_roomy [Std.TransCmp u.order] (accepting : u.backing.finished = false) {x : ρ}
    (short : Short x) (reserves : u.backing.Reserves u.records (reserve x + n) s) (spare : Nat) :
    Leads (add x spare) (u, s) (fun _ p => p.1.backing.Reserves p.1.records n p.2)
      fun _ _ => False := by
  have valid : Std.TransCmp (u.charging ⟨x, spare⟩).order := ‹_›
  have taken : (u.charging ⟨x, spare⟩).backing.Reserves (u.charging ⟨x, spare⟩).records n s := by
    rw [records_charging]
    exact (reserves.concat short).of_eq rfl rfl
  apply add_of_charging
  · exact fun e refused => absurd refused (Backing.not_refused accepting e)
  intro _
  split
  · exact spill_roomy taken
  · exact Leads.of_pure taken

/-- With room for what is in memory, the sorter gives out its records. -/
theorem done_roomy [TakesSpace ρ] [LawfulStorable ρ] {options : Options} {order : Comparator ρ}
    [Std.TransCmp order] {spilled buffered : List ρ}
    (keeps : Keeps options order u s spilled buffered) (accepting : u.backing.finished = false)
    (reserves : u.backing.Reserves u.records n s) : Leads done (u, s) (fun _ _ => True) fun _ _ => False := by
  have again (e : Failure) (refused : u.backing.requireUnfinished = .error e) : False :=
    absurd refused (Backing.not_again accepting e)
  obtain ⟨rfl, spilt, data⟩ := keeps
  by_cases none : u.backing.runs.isEmpty = true
  · exact done_of_noRuns none again fun _ _ _ => trivial
  · have valid : Std.TransCmp u.finishing.order := ‹_›
    apply done_of_runs none again
    intro _
    refine ((spill_leads (u := u.finishing) ⟨rfl, spilt.of_eq rfl rfl rfl, data⟩).and
      (spill_roomy (u := u.finishing) (reserves.of_eq rfl rfl))).mono ?_ fun _ _ h => h.2
    rintro _ ⟨u', t⟩ ⟨⟨⟨sameOrder, spilt', -⟩, runs, -⟩, left⟩
    dsimp only
    rw [sameOrder]
    exact (spilt'.mergeRuns (Backing.isEmpty_runs_of_more none runs)).mono
      (fun _ _ _ => trivial) fun _ _ h => left.room.not_stuck h.2

end Unbounded

namespace TopK

variable {t : TopK ρ} {s : Store}

/-- The records in memory. -/
def records (t : TopK ρ) : List ρ := t.data.toList.map (·.record)

section Held

variable [valid : Std.TransCmp t.order] {entries : List (Entry ρ)}

/-- A spill takes the room that is kept for what is in memory. -/
theorem spill_roomy (held : Held t.order t.limit t.data entries)
    (reserves : t.backing.Reserves t.records n s) :
    Leads spill (t, s) (fun _ p => p.1.backing.Reserves p.1.records n p.2) fun _ _ => False := by
  have valid : Std.TransCmp t.spilling.order := valid
  have counted : t.spilling.backing.Reserves t.spilling.records n s := reserves.of_eq rfl rfl
  apply spill_of
  by_cases none : entries = []
  · apply writeOut_of_isEmpty (t := t.spilling) (held.isEmpty_iff.mpr none)
    exact counted
  · refine writeOut_of_writeRun (t := t.spilling) held none (fun e => counted.room.allows e) ?_
    intro _ sorted a perm _ _
    have some : sorted.map (·.record) ≠ [] := by
      intro nothing
      rw [List.map_eq_nil_iff.mp nothing] at perm
      exact none (List.nil_perm.mp perm)
    have perm : (sorted.map (·.record)).Perm t.spilling.records :=
      (perm.trans held.perm.symm).map (·.record)
    refine (Backing.writeRun_roomy some (counted.perm perm)).mono ?_ fun _ _ h => h
    exact fun _ _ left => .nothing (left.of_eq rfl rfl)

/-- A record that is offered needs the room that is kept for it, if it is taken. -/
theorem add_roomy (positive : 0 < t.limit) (held : Held t.order t.limit t.data entries)
    (accepting : t.backing.finished = false) {x : ρ} (short : Short x)
    (reserves : t.backing.Reserves t.records (reserve x + n) s) (spare : Nat) :
    Leads (add x spare) (t, s) (fun _ p => p.1.backing.Reserves p.1.records n p.2)
      fun _ _ => False := by
  apply add_of_takes
  · exact fun e refused => absurd refused (Backing.not_refused accepting e)
  intro _
  split
  · have valid : Std.TransCmp (t.counting.charging ⟨x, spare⟩).order := valid
    obtain ⟨data, memoryUsed, entries', placed, held', trades⟩ :=
      place_eq (t := t.counting.charging ⟨x, spare⟩) held positive t.nextSeq ⟨x, spare⟩
    -- what is in memory then was there before, or is the record
    have fewer : (entries'.map (·.record)).Sublist (entries.map (·.record) ++ [x]) := by
      have fewer := trades.sublist.map (·.record)
      rwa [List.map_append] at fewer
    have before : t.records.Perm (entries.map (·.record)) := held.perm.map _
    have after : (data.toList.map (·.record)).Perm (entries'.map (·.record)) :=
      held'.perm.map (·.record)
    have taken := (((reserves.perm before.symm).concat short).sublist fewer).perm after
    refine insert_of_placed placed ?_
    split
    · exact spill_roomy held' (taken.of_eq rfl rfl)
    · exact Leads.of_pure (taken.of_eq rfl rfl)
  -- a record that is not taken needs no room
  · have left : t.counting.backing.Reserves t.counting.records n s :=
      (reserves.mono (Nat.le_add_left _ _)).of_eq rfl rfl
    exact Leads.of_pure left

end Held

/-- With room for what is in memory, the sorter gives out the first of its records. -/
theorem done_roomy [TakesSpace ρ] [LawfulStorable ρ] {options : Options} {order : Comparator ρ}
    [Std.TransCmp order] {spilled buffered : List ρ}
    (keeps : Keeps options order t s spilled buffered) (accepting : t.backing.finished = false)
    (reserves : t.backing.Reserves t.records n s) : Leads done (t, s) (fun _ _ => True) fun _ _ => False := by
  have again (e : Failure) (refused : t.backing.requireUnfinished = .error e) : False :=
    absurd refused (Backing.not_again accepting e)
  have ended : Keeps options order t.finishing s spilled buffered :=
    keeps.of_backing (keeps.inRuns.of_eq rfl rfl rfl)
  have reserves : t.finishing.backing.Reserves t.finishing.records n s := reserves.of_eq rfl rfl
  obtain ⟨rfl, -, -, -, ⟨entries, held, -, -⟩, -⟩ := keeps
  by_cases none : t.backing.runs.isEmpty = true
  · exact done_of_noRuns held none again fun _ _ _ _ _ _ => trivial
  · have valid : Std.TransCmp t.finishing.order := ‹_›
    apply done_of_runs none again
    intro _
    refine ((spill_leads ended).and (spill_roomy (t := t.finishing) held reserves)).mono ?_
      fun _ _ h => h.2
    rintro _ ⟨t', s'⟩ ⟨⟨keeps', runs, -⟩, left⟩
    dsimp only
    rw [keeps'.sameOrder]
    exact (keeps'.inRuns.mergeRuns (Backing.isEmpty_runs_of_more none runs)).mono
      (fun _ _ _ => trivial) fun _ _ h => left.room.not_stuck h.2

end TopK

/-! ## Any kind of sorter -/

namespace Sorter

/-- A sorter with the room that is kept for the records in its memory, and for `n` bytes more. A single
    record is never written. -/
def Roomy (n : Nat) : Sorter ρ → Store → Prop
  | .unbounded u, s => u.backing.Reserves u.records n s
  | .singleBest _, _ => True
  | .topK t, s => t.backing.Reserves t.records n s

variable {options : Options} {order : Comparator ρ} {sorter : Sorter ρ} {s : Store} {xs : List ρ}

/-- Where there is room, a sorter can be made. -/
theorem ofOptions_roomy (roomy : options.Roomy n s) :
    Leads (ofOptions options order : SpillM (Sorter ρ)) s (fun sorter s' => sorter.Roomy n s')
      fun _ _ => False := by
  have room := Backing.ofOptions_roomy ρ roomy
  apply ofOptions_of
  · intro e refused
    rw [roomy.valid] at refused
    cases refused
  · exact fun _ _ => .nothing room
  · exact fun _ => trivial
  · exact fun _ _ => .nothing room

variable [TakesSpace ρ] [Std.TransCmp order]

omit [TakesSpace ρ] in
/-- A record is taken if the room that is kept for it is there. -/
theorem add_roomy (retains : Retains options order sorter s xs)
    (accepting : sorter.finished = false) {x : ρ} (short : Short x)
    (roomy : sorter.Roomy (reserve x + n) s) (spare : Nat) :
    Leads (add x spare) (sorter, s) (fun _ p => p.1.Roomy n p.2) fun _ _ => False := by
  cases retains with
  | unbounded limit keeps all =>
    obtain rfl := keeps.sameOrder
    apply dispatch_unbounded
    exact Unbounded.add_roomy accepting short roomy spare
  | singleBest limit keeps =>
    apply dispatch_singleBest
    exact (SingleBest.add_leads keeps accepting x spare).mono (fun _ _ _ => trivial) fun _ _ h => h
  | topK limit keeps same =>
    obtain ⟨rfl, -, positive, -, ⟨entries, held, -, -⟩, -⟩ := keeps
    apply dispatch_topK
    exact TopK.add_roomy positive held accepting short roomy spare

/-- All records are taken if there is room for them. -/
theorem addAll_roomy {taken : List ρ} (retains : Retains options order sorter s taken)
    (accepting : sorter.finished = false) {xs : List ρ} (short : ∀ x ∈ xs, Short x)
    (roomy : sorter.Roomy (charge reserve xs + n) s) :
    Leads (addAll xs) (sorter, s) (fun _ p => p.1.Roomy n p.2) fun _ _ => False := by
  -- by induction on the records; each takes its own room and leaves that of the others
  induction xs generalizing sorter s taken with
  | nil =>
    rw [charge, Nat.zero_add] at roomy
    exact Leads.of_pure roomy
  | cons x rest ih =>
    rw [charge_cons, Nat.add_assoc] at roomy
    obtain ⟨shortHere, shortThere⟩ := List.forall_mem_cons.mp short
    refine Leads.seq ((add_leads retains accepting x 0).and
      (add_roomy retains accepting shortHere roomy 0)) ?_ fun _ _ h => h.2
    rintro _ ⟨sorter', s'⟩ ⟨⟨accepting', retains'⟩, roomy'⟩
    exact ih retains' accepting' shortThere roomy'

/-- A sorter with the room that it needs gives out its records. -/
theorem done_roomy [LawfulStorable ρ] (retains : Retains options order sorter s xs)
    (accepting : sorter.finished = false) (roomy : sorter.Roomy n s) :
    Leads done (sorter, s) (fun _ _ => True) fun _ _ => False := by
  cases retains with
  | unbounded limit keeps all =>
    apply dispatch_unbounded
    exact Unbounded.done_roomy keeps accepting roomy
  | @singleBest b s xs limit keeps =>
    apply dispatch_singleBest
    have accepting : b.finished = false := accepting
    refine (SingleBest.done_leads keeps).mono (fun _ _ _ => trivial) fun _ _ h => ?_
    exact absurd (h.2.symm.trans accepting) (by simp)
  | topK limit keeps same =>
    apply dispatch_topK
    exact TopK.done_roomy keeps accepting roomy

end Sorter
end ExternalSort
