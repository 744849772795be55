/-
  ExternalSort.Proofs.Sorter.Memory

  The memory that a sorter charges.

  A sorter charges the footprints of the records in its memory, and when a call
  has succeeded they are within the budget. A record can be refused only if it
  would not fit next to what is there already, and only because spilling is not
  allowed or a run cannot be written. Where spilling is not allowed there are no
  runs, and what comes out never left memory.
-/

import ExternalSort.Proofs.Sorter.Strategies

namespace ExternalSort

variable {ρ : Type} [Storable ρ]

/-! ## Footprints of many records -/

/-- The first records take no more memory than all of them. -/
theorem charge_leading_le (order : Comparator ρ) [Std.TransCmp order] (k : Nat) (xs : List ρ) :
    charge footprint (leading order k xs) ≤ charge footprint xs := by
  have split := congrArg (charge footprint) (List.take_append_drop k (stableSort order xs))
  rw [charge_append, charge_perm (perm_stableSort xs)] at split
  rw [leading]
  omega

/-- Records take no more than they do with what their buffers hold in reserve. -/
theorem charge_records_le (rs : List (Resident ρ)) :
    charge footprint (rs.map (·.record)) ≤ charge Resident.footprint rs := by
  induction rs with
  | nil => exact Nat.le_refl 0
  | cons r rs ih =>
    rw [List.map_cons, charge_cons, charge_cons, Resident.footprint]
    omega

/-- What a record that is taken does to a sorter that charged `used` bytes and had `runs` runs: the
    records that count against the budget then are within it. -/
structure Charges (options : Options) (used size runs used' : Nat)
    (counted' : List (Resident ρ)) (runs' : Nat) : Prop where
  sum : used' = charge Resident.footprint counted'
  within : used' ≤ options.memoryBudget.toNat
  grows : used' ≤ used + size
  spills : options.spillAllowed = false → runs' = runs

/-- Why records cannot be spilled: it is not allowed, or something keeps a run from being written. -/
inductive Options.Stops (options : Options) : Failure → Prop
  | confined (confined : options.spillAllowed = false) :
      Stops options (.error (.memoryLimitExceeded options.memoryBudget))
  | hindered (allowed : options.spillAllowed = true) {e : SortError}
      (hindrance : Hindrance options.activeProtector e) : Stops options (.error e)

/-- Why `size` bytes can be refused where `used` are charged. -/
structure Refuses (options : Options) (used size : Nat) (e : Failure) : Prop where
  full : options.memoryBudget.toNat < used + size
  stops : options.Stops e

namespace Backing

variable {b b' : Backing ρ}

/-- Where spilling is allowed, there is a file to spill to. -/
def CanSpill (b : Backing ρ) : Prop :=
  b.options.spillAllowed = true → ∃ file, b.file = some file

/-- What stays of a backing while records are taken. -/
structure Continues (b b' : Backing ρ) : Prop where
  options : b'.options = b.options
  file : b'.file = b.file
  finished : b'.finished = b.finished

omit [Storable ρ] in
theorem CanSpill.of_continues (able : b.CanSpill) (continues : b.Continues b') : b'.CanSpill := by
  rw [CanSpill, continues.options, continues.file]
  exact able

omit [Storable ρ] in
theorem of_requireSpillAllowed (b : Backing ρ) :
    (b.requireSpillAllowed = .ok () → b.options.spillAllowed = true) ∧
      ∀ e, b.requireSpillAllowed = .error e → b.options.Stops e := by
  rw [requireSpillAllowed]
  split
  · next allowed =>
    refine ⟨fun _ => allowed, fun e h => ?_⟩
    cases h
  · next refused =>
    refine ⟨fun h => ?_, fun e h => ?_⟩
    · cases h
    · cases h
      exact .confined (Bool.eq_false_iff.mpr refused)

omit [Storable ρ] in
/-- A new backing has a file if the options are valid; the disk stays as it is. -/
theorem ofOptions_fresh (ρ : Type) {options : Options} {forbidden : Bool}
    (valid : options.validate forbidden = .ok ()) (s : Store) :
    ((ofOptions options : StoreM (Backing ρ)).run s).1.CanSpill ∧
      ((ofOptions options : StoreM (Backing ρ)).run s).2.disk = s.disk := by
  rw [ofOptions]
  split
  · exact ⟨fun _ => ⟨_, rfl⟩, rfl⟩
  · next none =>
    refine ⟨fun allowed => ?_, rfl⟩
    have allowed : options.spillAllowed = true := allowed
    cases directory : options.spillDirectory with
    | some directory' => exact absurd allowed (none directory' directory)
    | none =>
      have missing : options.hasSpillDirectory = false := by
        rw [Options.hasSpillDirectory, directory]
        rfl
      rw [Options.validate, allowed, missing] at valid
      split at valid <;> cases valid

end Backing

/-- Invalid options have no budget, or they ask for spills that cannot be. -/
theorem Options.of_validate {options : Options} {forbidden : Bool} {e : SortError}
    (h : options.validate forbidden = .error e) :
    options.memoryBudget = 0 ∨
      options.spillAllowed = true ∧ Hindrance options.activeProtector e := by
  by_cases zero : options.memoryBudget = 0
  · exact .inl zero
  right
  rw [validate, if_neg zero] at h
  cases allowed : options.spillAllowed with
  | true =>
    rw [allowed] at h
    cases directory : options.hasSpillDirectory with
    | true =>
      rw [directory] at h
      exact ⟨rfl, .of_checkPermitted h⟩
    | false =>
      rw [directory] at h
      cases h
      exact ⟨rfl, .noDirectory⟩
  | false =>
    rw [allowed, checkPermitted, allowed] at h
    cases h

/-! ## Without a limit -/

namespace Unbounded

variable {u : Unbounded ρ} {s : Store}

/-- A sorter takes records, and charges those that it has in memory. -/
structure Balanced (u : Unbounded ρ) : Prop where
  able : u.backing.CanSpill
  accepting : u.backing.finished = false
  sum : u.memoryUsed = charge Resident.footprint u.data.toList

/-- A spill of something empties the memory. -/
theorem spill_stops [Std.TransCmp u.order] (able : u.backing.CanSpill) :
    Leads spill (u, s)
      (fun _ p => (p.1.order = u.order ∧ u.backing.Continues p.1.backing) ∧
        (u.data.isEmpty = false →
          u.backing.options.spillAllowed = true ∧ p.1.data = #[] ∧ p.1.memoryUsed = 0))
      (fun e _ => u.backing.options.Stops e) := by
  obtain ⟨permits, refuses⟩ := u.backing.of_requireSpillAllowed
  have valid : Std.TransCmp u.spilling.order := ‹_›
  apply spill_of
  · exact fun none => ⟨⟨rfl, rfl, rfl, rfl⟩, fun some => by simp [none] at some⟩
  · exact fun e _ => refuses e
  · intro _ h
    have allowed : u.backing.options.spillAllowed = true := permits h
    obtain ⟨file, hfile⟩ := able allowed
    refine sortData_leads (u := u.spilling) fun data sorted _ => ?_
    apply (Backing.writeRun_hindered hfile _ s).mono
    · exact fun _ _ _ => ⟨⟨rfl, rfl, rfl, rfl⟩, fun _ => ⟨allowed, rfl, rfl⟩⟩
    · exact fun _ _ hindrance => .hindered allowed hindrance

/-- A record that is taken is charged, or it makes the sorter spill. -/
theorem add_charges [valid : Std.TransCmp u.order] (balanced : u.Balanced) (x : ρ) (spare : Nat) :
    Leads (add x spare) (u, s)
      (fun _ p => (p.1.order = u.order ∧ u.backing.Continues p.1.backing) ∧
        Charges u.backing.options u.memoryUsed (⟨x, spare⟩ : Resident ρ).footprint
          u.backing.runs.size p.1.memoryUsed p.1.data.toList p.1.backing.runs.size)
      (fun e _ =>
        Refuses u.backing.options u.memoryUsed (⟨x, spare⟩ : Resident ρ).footprint e) := by
  obtain ⟨able, accepting, charged⟩ := balanced
  have valid : Std.TransCmp (u.charging ⟨x, spare⟩).order := valid
  apply add_of_charging
  · exact fun e refused => absurd refused (Backing.not_refused accepting e)
  intro _
  -- beyond the budget the record goes to disk with all the others, and nothing stays charged
  split
  · next full =>
    refine (spill_stops (u := u.charging ⟨x, spare⟩) able).mono ?_ fun e _ stops => ⟨full, stops⟩
    rintro _ ⟨u', t⟩ ⟨⟨sameOrder, continues⟩, emptied⟩
    obtain ⟨allowed, none, zero⟩ := emptied (by simp [charging])
    dsimp only at none zero ⊢
    rw [zero, none]
    exact ⟨⟨sameOrder, continues.options, continues.file, continues.finished⟩, rfl, Nat.zero_le _,
      Nat.zero_le _, fun no => absurd (allowed.symm.trans no) (by simp)⟩
  · next fits =>
    refine Leads.of_pure ⟨⟨rfl, rfl, rfl, rfl⟩, ?_, Nat.le_of_not_lt fits, Nat.le_refl _,
      fun _ => rfl⟩
    rw [charging, Array.toList_push, charge_concat, charged]

/-- Without runs the sorter gives out its records; else writing the last run or reading the first
    records can fail. -/
theorem done_stops [TakesSpace ρ] [LawfulStorable ρ] {options : Options} {order : Comparator ρ}
    [Std.TransCmp order] {spilled buffered : List ρ}
    (keeps : Keeps options order u s spilled buffered) (able : u.backing.CanSpill)
    (accepting : u.backing.finished = false)
    (inMemory : options.spillAllowed = false → u.backing.runs.isEmpty = true) :
    Leads done (u, s) (fun _ _ => True)
      (fun e _ => options.spillAllowed = true ∧ options.Stops e) := by
  have again (e : Failure) (refused : u.backing.requireUnfinished = .error e) :
      options.spillAllowed = true ∧ options.Stops e :=
    absurd refused (Backing.not_again accepting e)
  obtain ⟨rfl, spilt, data⟩ := keeps
  obtain ⟨lists, ⟨rfl, -⟩, -⟩ := id spilt
  -- there are runs only where spilling is allowed, so what fails next is a spill or a read
  by_cases none : u.backing.runs.isEmpty = true
  · exact done_of_noRuns none again fun _ _ _ => trivial
  · have allowed : u.backing.options.spillAllowed = true := by
      rw [← Bool.not_eq_false]
      exact fun confined => none (inMemory confined)
    have valid : Std.TransCmp u.finishing.order := ‹_›
    have spilt' := (spill_leads (u := u.finishing) ⟨rfl, spilt.of_eq rfl rfl rfl, data⟩).and
      (spill_stops able)
    apply done_of_runs none again
    intro _
    refine spilt'.mono ?_ fun _ _ h => ⟨allowed, h.2⟩
    rintro _ ⟨u', t⟩ ⟨⟨⟨sameOrder, spilt', -⟩, runs, -⟩, -⟩
    dsimp only
    rw [sameOrder]
    exact (spilt'.mergeRuns (Backing.isEmpty_runs_of_more none runs)).mono
      (fun _ _ _ => trivial) fun _ _ h => ⟨allowed, .hindered allowed (.disk h.1)⟩

end Unbounded

/-! ## With a limit -/

namespace TopK

variable {t : TopK ρ} {s : Store}

/-- A sorter takes records, and charges those that it has in memory. -/
structure Balanced (t : TopK ρ) : Prop where
  positive : 0 < t.limit
  held : Held t.order t.limit t.data t.data.toList
  able : t.backing.CanSpill
  accepting : t.backing.finished = false
  sum : t.memoryUsed = charge Resident.footprint (t.data.toList.map (·.toResident))

/-- What stays of a sorter while records are taken. -/
structure Continues (t t' : TopK ρ) : Prop where
  order : t'.order = t.order
  limit : t'.limit = t.limit
  backing : t.backing.Continues t'.backing

section Held

variable [valid : Std.TransCmp t.order] {entries : List (Entry ρ)}

/-- Writing out something empties the memory. -/
theorem writeOut_stops (held : Held t.order t.limit t.data entries) (able : t.backing.CanSpill) :
    Leads writeOut (t, s)
      (fun _ p => t.Continues p.1 ∧ (entries ≠ [] →
        t.backing.options.spillAllowed = true ∧ p.1.data = #[] ∧ p.1.memoryUsed = 0))
      (fun e _ => t.backing.options.Stops e) := by
  obtain ⟨permits, refuses⟩ := t.backing.of_requireSpillAllowed
  by_cases none : entries = []
  · apply writeOut_of_isEmpty (held.isEmpty_iff.mpr none)
    exact ⟨⟨rfl, rfl, rfl, rfl, rfl⟩, fun some => absurd none some⟩
  · refine writeOut_of_writeRun held none refuses ?_
    intro h sorted a _ _ _
    have allowed : t.backing.options.spillAllowed = true := permits h
    obtain ⟨file, hfile⟩ := able allowed
    have hindered := Backing.writeRun_hindered hfile (sorted.map (·.record)) s
    apply hindered.mono
    · exact fun _ _ _ => ⟨⟨rfl, rfl, rfl, rfl, rfl⟩, fun _ => ⟨allowed, rfl, rfl⟩⟩
    · exact fun _ _ hindrance => .hindered allowed hindrance

/-- A spill of something empties the memory. -/
theorem spill_stops (held : Held t.order t.limit t.data entries) (able : t.backing.CanSpill) :
    Leads spill (t, s)
      (fun _ p => t.Continues p.1 ∧ (entries ≠ [] →
        t.backing.options.spillAllowed = true ∧ p.1.data = #[] ∧ p.1.memoryUsed = 0))
      (fun e _ => t.backing.options.Stops e) := by
  have valid : Std.TransCmp t.spilling.order := valid
  apply spill_of
  apply (writeOut_stops (t := t.spilling) held able).mono
  · rintro _ p ⟨⟨sameOrder, sameLimit, continues⟩, emptied⟩
    exact ⟨⟨sameOrder, sameLimit, continues.options, continues.file, continues.finished⟩, emptied⟩
  · exact fun _ _ h => h

omit valid in
/-- What is charged for a record that leaves is no longer charged. -/
theorem Trades.charge_eq {entry : Entry ρ} {entries' : List (Entry ρ)} {used' : Nat}
    (trades : Trades t entries entry entries' used')
    (charged : t.memoryUsed =
      charge Resident.footprint (entries.map (·.toResident)) + entry.footprint) :
    used' ≤ t.memoryUsed ∧
      used' = charge Resident.footprint (entries'.map (·.toResident)) := by
  cases trades with
  | joins =>
    refine ⟨Nat.le_refl _, ?_⟩
    rw [charged, List.map_append, List.map_singleton, charge_concat]
  | leaves full htop split =>
    subst split
    refine ⟨Nat.sub_le _ _, ?_⟩
    rw [charged]
    simp only [List.map_append, List.map_cons, List.map_nil, charge_append, charge_cons]
    have empty : charge Resident.footprint ([] : List (Resident ρ)) = 0 := rfl
    omega

/-- A record that is taken is charged, or it makes the sorter spill. -/
theorem insert_charges (balanced : t.Balanced) (x : Resident ρ) :
    Leads (insert x) (t, s)
      (fun _ p => (t.Continues p.1 ∧ Held p.1.order p.1.limit p.1.data p.1.data.toList) ∧
        Charges t.backing.options t.memoryUsed x.footprint t.backing.runs.size
          p.1.memoryUsed (p.1.data.toList.map (·.toResident)) p.1.backing.runs.size)
      (fun e _ => Refuses t.backing.options t.memoryUsed x.footprint e) := by
  obtain ⟨positive, held, able, -, charged⟩ := balanced
  -- the record is charged first; if an entry leaves for it, what that one took is given back
  have valid : Std.TransCmp (t.charging x).order := valid
  obtain ⟨data, memoryUsed, entries', placed, held', trades⟩ :=
    place_eq (t := t.charging x) held positive t.nextSeq x
  obtain ⟨fewer, sum⟩ := trades.charge_eq (congrArg (· + x.footprint) charged)
  rw [← charge_perm (held'.perm.map _)] at sum
  refine insert_of_placed placed ?_
  split
  · next full =>
    have valid : Std.TransCmp ({ t.charging x with data, memoryUsed } : TopK ρ).order := valid
    refine (spill_stops (t := { t.charging x with data, memoryUsed }) held' able).mono ?_
      fun e _ stops => ⟨Nat.lt_of_lt_of_le full fewer, stops⟩
    rintro _ ⟨t', s'⟩ ⟨⟨sameOrder, sameLimit, continues⟩, emptied⟩
    obtain ⟨allowed, none, zero⟩ := emptied (List.ne_nil_of_mem trades.mem)
    have positive' : 0 < t'.limit := sameLimit ▸ positive
    dsimp only at none zero ⊢
    rw [zero, none]
    exact ⟨⟨⟨sameOrder, sameLimit, continues.options, continues.file, continues.finished⟩,
      Held.empty _ positive'⟩, rfl, Nat.zero_le _, Nat.zero_le _,
      fun no => absurd (allowed.symm.trans no) (by simp)⟩
  · next fits =>
    exact Leads.of_pure ⟨⟨⟨rfl, rfl, rfl, rfl, rfl⟩, held'.self⟩, sum, Nat.le_of_not_lt fits, fewer,
      fun _ => rfl⟩

/-- A record that is offered is charged if it is taken. -/
theorem add_charges (balanced : t.Balanced)
    (within : t.memoryUsed ≤ t.backing.options.memoryBudget.toNat) (x : ρ) (spare : Nat) :
    Leads (add x spare) (t, s)
      (fun _ p => (t.Continues p.1 ∧ Held p.1.order p.1.limit p.1.data p.1.data.toList) ∧
        Charges t.backing.options t.memoryUsed (⟨x, spare⟩ : Resident ρ).footprint
          t.backing.runs.size p.1.memoryUsed (p.1.data.toList.map (·.toResident))
          p.1.backing.runs.size)
      (fun e _ =>
        Refuses t.backing.options t.memoryUsed (⟨x, spare⟩ : Resident ρ).footprint e) := by
  obtain ⟨positive, held, able, accepting, charged⟩ := balanced
  have valid : Std.TransCmp t.counting.order := valid
  apply add_of_takes
  · exact fun e refused => absurd refused (Backing.not_refused accepting e)
  intro _
  -- a record that is not taken changes nothing that is charged
  split
  · refine (insert_charges (t := t.counting) ⟨positive, held, able, accepting, charged⟩
      ⟨x, spare⟩).mono ?_ ?_
    · rintro _ p ⟨⟨⟨sameOrder, sameLimit, continues⟩, held'⟩, charges⟩
      exact ⟨⟨⟨sameOrder, sameLimit, continues.options, continues.file, continues.finished⟩, held'⟩,
        charges⟩
    · exact fun _ _ h => h
  · exact Leads.of_pure ⟨⟨⟨rfl, rfl, rfl, rfl, rfl⟩, held⟩, charged, within, Nat.le_add_right _ _,
      fun _ => rfl⟩

end Held

variable {options : Options} {order : Comparator ρ} [Std.TransCmp order] {spilled buffered : List ρ}

/-- Without runs the sorter gives out its records; else writing the last run or reading the first
    records can fail. -/
theorem done_stops [TakesSpace ρ] [LawfulStorable ρ]
    (keeps : Keeps options order t s spilled buffered) (able : t.backing.CanSpill)
    (accepting : t.backing.finished = false)
    (inMemory : options.spillAllowed = false → t.backing.runs.isEmpty = true) :
    Leads done (t, s) (fun _ _ => True)
      (fun e _ => options.spillAllowed = true ∧ options.Stops e) := by
  have again (e : Failure) (refused : t.backing.requireUnfinished = .error e) :
      options.spillAllowed = true ∧ options.Stops e :=
    absurd refused (Backing.not_again accepting e)
  have ended : Keeps options order t.finishing s spilled buffered :=
    keeps.of_backing (keeps.inRuns.of_eq rfl rfl rfl)
  obtain ⟨rfl, -, -, ⟨lists, ⟨rfl, -⟩, -⟩, ⟨entries, held, -, -⟩, -⟩ := keeps
  -- as without a limit: only with runs can anything fail, and only where spilling is allowed
  by_cases none : t.backing.runs.isEmpty = true
  · exact done_of_noRuns held none again fun _ _ _ _ _ _ => trivial
  · have allowed : t.backing.options.spillAllowed = true := by
      rw [← Bool.not_eq_false]
      exact fun confined => none (inMemory confined)
    have valid : Std.TransCmp t.finishing.order := ‹_›
    apply done_of_runs none again
    intro _
    refine ((spill_leads ended).and (spill_stops (t := t.finishing) held able)).mono ?_
      fun _ _ h => ⟨allowed, h.2⟩
    rintro _ ⟨t', s'⟩ ⟨⟨keeps', runs, -⟩, -⟩
    dsimp only
    rw [keeps'.sameOrder]
    exact (keeps'.inRuns.mergeRuns (Backing.isEmpty_runs_of_more none runs)).mono
      (fun _ _ _ => trivial) fun _ _ h => ⟨allowed, .hindered allowed (.disk h.1)⟩

end TopK

/-! ## Any kind of sorter -/

namespace Sorter

/-- A sorter of the kind that keeps one record. -/
def IsSingle : Sorter ρ → Prop
  | .singleBest _ => True
  | _ => False

/-- The records that count against the budget; a single record does not. -/
def counted : Sorter ρ → List (Resident ρ)
  | .unbounded u => u.data.toList
  | .singleBest _ => []
  | .topK t => t.data.toList.map (·.toResident)

/-- The memory that is charged. -/
def memoryUsed : Sorter ρ → Nat
  | .unbounded u => u.memoryUsed
  | .singleBest _ => 0
  | .topK t => t.memoryUsed

/-- Where spilling is allowed, there is a file to spill to, unless there is never a need. -/
def CanSpill : Sorter ρ → Prop
  | .unbounded u => u.backing.CanSpill
  | .singleBest _ => True
  | .topK t => t.backing.CanSpill

/-- A sorter charges what it has in memory, and is within its budget. -/
structure Charged (options : Options) (sorter : Sorter ρ) : Prop where
  kind : sorter.IsSingle ↔ options.limit = 1
  able : sorter.CanSpill
  sum : sorter.memoryUsed = charge Resident.footprint sorter.counted
  within : sorter.memoryUsed ≤ options.memoryBudget.toNat

/-- A sorter as it is made: it charges nothing and has no runs, and the disk is what it was. -/
structure New (options : Options) (s : Store) (sorter : Sorter ρ) (s' : Store) : Prop where
  charged : sorter.Charged options
  nothing : sorter.memoryUsed = 0
  noRuns : sorter.runCount = 0
  disk : s'.disk = s.disk

variable {options : Options} {order : Comparator ρ} {sorter : Sorter ρ} {s : Store} {xs : List ρ}

/-- A sorter of the kind that the limit asks for. Nothing but its options can be in the way. -/
theorem ofOptions_charges (s : Store) :
    Leads (ofOptions options order : SpillM (Sorter ρ)) s
      (fun sorter s' => New options s sorter s')
      (fun e _ => options.memoryBudget = 0 ∨
        options.spillAllowed = true ∧ Hindrance options.activeProtector e) := by
  obtain ⟨runs, -⟩ := Backing.ofOptions_empty ρ options s
  apply ofOptions_of fun _ => Options.of_validate
  · intro valid unlimited
    obtain ⟨able, disk⟩ := Backing.ofOptions_fresh ρ valid s
    have several : ¬ options.limit = 1 := fun one => absurd (unlimited.symm.trans one) (by decide)
    exact ⟨⟨⟨False.elim, several⟩, able, rfl, Nat.zero_le _⟩, rfl, congrArg Array.size runs, disk⟩
  · intro one
    exact ⟨⟨⟨fun _ => one, fun _ => trivial⟩, trivial, rfl, Nat.zero_le _⟩, rfl, rfl, rfl⟩
  · intro valid several
    obtain ⟨able, disk⟩ := Backing.ofOptions_fresh ρ valid s
    exact ⟨⟨⟨False.elim, several⟩, able, rfl, Nat.zero_le _⟩, rfl, congrArg Array.size runs, disk⟩

variable [TakesSpace ρ] [Std.TransCmp order]

omit [TakesSpace ρ] in
/-- A record that is taken is charged; a single one is never refused. -/
theorem add_charges (retains : Retains options order sorter s xs)
    (accepting : sorter.finished = false) (charged : sorter.Charged options) (x : ρ)
    (spare : Nat) :
    Leads (add x spare) (sorter, s)
      (fun _ p => p.1.Charged options ∧
        Charges options sorter.memoryUsed (⟨x, spare⟩ : Resident ρ).footprint
          sorter.runCount p.1.memoryUsed p.1.counted p.1.runCount)
      (fun e _ => options.limit ≠ 1 ∧
        Refuses options sorter.memoryUsed (⟨x, spare⟩ : Resident ρ).footprint e) := by
  obtain ⟨kind, able, sum, within⟩ := charged
  cases retains with
  | unbounded limit keeps all =>
    obtain rfl := keeps.sameOrder
    obtain ⟨lists, ⟨rfl, -⟩, -⟩ := keeps.spilled
    apply dispatch_unbounded
    refine (Unbounded.add_charges ⟨able, accepting, sum⟩ x spare).mono ?_ ?_
    · rintro _ ⟨u', s'⟩ ⟨⟨-, continues⟩, charges⟩
      exact ⟨⟨kind, able.of_continues continues, charges.sum, charges.within⟩, charges⟩
    · exact fun _ _ refuses => ⟨fun one => kind.mpr one, refuses⟩
  | singleBest limit keeps =>
    apply dispatch_singleBest
    refine (SingleBest.add_leads keeps accepting x spare).mono ?_ ?_
    · exact fun _ _ _ => ⟨⟨kind, trivial, rfl, Nat.zero_le _⟩,
        rfl, Nat.zero_le _, Nat.zero_le _, fun _ => rfl⟩
    · exact fun _ _ fails => fails.elim
  | topK limit keeps same =>
    obtain ⟨rfl, -, positive, ⟨lists, ⟨rfl, -⟩, -⟩, ⟨entries, held, -, -⟩, -⟩ := keeps
    apply dispatch_topK
    refine (TopK.add_charges ⟨positive, held.self, able, accepting, sum⟩ within x spare).mono ?_ ?_
    · rintro _ ⟨t', s'⟩ ⟨⟨⟨-, -, continues⟩, -⟩, charges⟩
      exact ⟨⟨kind, able.of_continues continues, charges.sum, charges.within⟩, charges⟩
    · exact fun _ _ refuses => ⟨fun one => kind.mpr one, refuses⟩

/-- Records that are handed over one after another are retained and charged. If one of them is
    refused, not all of them would fit. -/
theorem addAll_leads {taken : List ρ} (retains : Retains options order sorter s taken)
    (accepting : sorter.finished = false) (charged : sorter.Charged options) (xs : List ρ) :
    Leads (addAll xs) (sorter, s)
      (fun _ p => p.1.finished = false ∧ Retains options order p.1 p.2 (taken ++ xs) ∧
        p.1.Charged options ∧ (options.spillAllowed = false → p.1.runCount = sorter.runCount))
      (fun e _ => options.limit ≠ 1 ∧ Refuses options sorter.memoryUsed (charge footprint xs) e) := by
  -- by induction on the records; the memory in use grows by no more than each of them takes
  induction xs generalizing sorter s taken with
  | nil =>
    rw [List.append_nil]
    exact Leads.of_pure ⟨accepting, retains, charged, fun _ => rfl⟩
  | cons x rest ih =>
    have both := (add_leads retains accepting x 0).and (add_charges retains accepting charged x 0)
    -- a copy holds nothing in reserve
    have size : (⟨x, 0⟩ : Resident ρ).footprint = footprint x := rfl
    have sum : charge footprint (x :: rest) = footprint x + charge footprint rest :=
      charge_cons x rest
    refine Leads.seq both ?_ ?_
    · rintro _ ⟨sorter', s'⟩ ⟨⟨accepting', retains'⟩, charged', charges⟩
      have grows := charges.grows
      refine (ih retains' accepting' charged').mono ?_ ?_
      · rintro _ p ⟨accepting'', retains'', charged'', runs⟩
        rw [List.append_assoc] at retains''
        exact ⟨accepting'', retains'', charged'', fun no => (runs no).trans (charges.spills no)⟩
      · rintro e p ⟨several, full, stops⟩
        exact ⟨several, by omega, stops⟩
    · rintro e p ⟨-, several, full, stops⟩
      exact ⟨several, by omega, stops⟩

omit [TakesSpace ρ] in
/-- What a sorter without runs is going to give out fits into its budget. -/
theorem charge_leading (retains : Retains options order sorter s xs)
    (charged : sorter.Charged options) (inMemory : sorter.runCount = 0)
    (several : options.limit ≠ 1) :
    charge footprint (leading order options.most xs) ≤ options.memoryBudget.toNat := by
  obtain ⟨kind, -, sum, within⟩ := charged
  cases retains with
  | @unbounded u s spilled buffered xs limit keeps all =>
    obtain rfl := keeps.spilled.eq_nil (Array.isEmpty_iff_size_eq_zero.mpr inMemory)
    have sum : u.memoryUsed = charge Resident.footprint u.data.toList := sum
    have fewer := charge_leading_le order options.most ([] ++ buffered)
    have records := charge_records_le u.data.toList
    rw [← all]
    rw [List.nil_append, ← keeps.data] at fewer ⊢
    exact Nat.le_trans fewer (Nat.le_trans records (sum ▸ within))
  | singleBest limit keeps => exact absurd (kind.mp trivial) several
  | @topK t s spilled buffered xs limit keeps same =>
    obtain rfl := keeps.inRuns.eq_nil (Array.isEmpty_iff_size_eq_zero.mpr inMemory)
    obtain ⟨entries, held, -, rfl⟩ := keeps.entries
    have sum : t.memoryUsed = charge Resident.footprint (entries.map (·.toResident)) :=
      sum.trans (charge_perm (held.perm.map _))
    have fewer := charge_leading_le order options.most ([] ++ entries.map (·.record))
    have records := charge_records_le (entries.map (·.toResident))
    rw [List.map_map] at records
    rw [← same]
    exact Nat.le_trans fewer (Nat.le_trans records (sum ▸ within))

/-- A sorter gives out the first of the records it was given. In memory there cannot be more of them
    than a merge would count. -/
theorem done_leads_most [LawfulStorable ρ] (retains : Retains options order sorter s xs)
    (charged : sorter.Charged options) (positive : ∀ x : ρ, 0 < footprint x) :
    Leads done (sorter, s)
      (fun sorted p => ReadsOut sorted p.2 (leading order options.most xs)) (fun _ _ => True) := by
  cases retains with
  | @unbounded u s spilled buffered xs limit keeps all =>
    subst all
    have most : options.most = UInt64.size - 1 := by
      rw [Options.most, if_pos limit]
      rfl
    apply dispatch_unbounded
    refine (Unbounded.done_leads_first keeps).mono ?_ fun _ _ _ => trivial
    rintro sorted ⟨u', s'⟩ ⟨-, n, enough, merged, readsOut⟩
    cases none : u.backing.runs.isEmpty with
    | false => rwa [merged none] at readsOut
    | true =>
      obtain rfl := keeps.spilled.eq_nil none
      -- a record is charged at least one byte, so the budget bounds how many there are
      have few := length_le_charge positive buffered
      have sum : u.memoryUsed = charge Resident.footprint u.data.toList := charged.sum
      have records := charge_records_le u.data.toList
      rw [show u.data.toList.map (·.record) = buffered from keeps.data] at records
      have within : u.memoryUsed ≤ options.memoryBudget.toNat := charged.within
      have bound := options.memoryBudget.toNat_lt
      have all : ([] ++ buffered).length ≤ options.most := by
        rw [List.nil_append, most]
        show buffered.length ≤ 2 ^ 64 - 1
        omega
      rw [leading_eq_stableSort (Nat.le_trans all enough)] at readsOut
      rwa [leading_eq_stableSort all]
  | singleBest limit keeps =>
    apply dispatch_singleBest
    exact (SingleBest.done_leads keeps).mono (fun _ _ h => h.2) fun _ _ _ => trivial
  | topK limit keeps same =>
    apply dispatch_topK
    rw [← same]
    exact (TopK.done_leads keeps).mono (fun _ _ h => h.2) fun _ _ _ => trivial

/-- A sorter that has to spill can fail to give out its records; one without runs cannot. -/
theorem done_stops [LawfulStorable ρ] (retains : Retains options order sorter s xs)
    (accepting : sorter.finished = false) (charged : sorter.Charged options)
    (inMemory : options.spillAllowed = false → sorter.runCount = 0) :
    Leads done (sorter, s) (fun _ _ => True)
      (fun e _ => options.spillAllowed = true ∧ options.Stops e) := by
  cases retains with
  | unbounded limit keeps all =>
    apply dispatch_unbounded
    exact Unbounded.done_stops keeps charged.able accepting fun confined =>
      Array.isEmpty_iff_size_eq_zero.mpr (inMemory confined)
  | @singleBest b s xs limit keeps =>
    apply dispatch_singleBest
    have accepting : b.finished = false := accepting
    refine (SingleBest.done_leads keeps).mono (fun _ _ _ => trivial) fun _ _ h => ?_
    exact absurd (h.2.symm.trans accepting) (by simp)
  | topK limit keeps same =>
    apply dispatch_topK
    exact TopK.done_stops keeps charged.able accepting fun confined =>
      Array.isEmpty_iff_size_eq_zero.mpr (inMemory confined)

end Sorter
end ExternalSort
