/-
  ExternalSort.Proofs.Sorter.Accounting

  What a sorter charges after records were refused.

  A record that exceeds the budget, and cannot be spilled, is refused when it is
  in memory already, and it stays there. So whatever was refused before, a sorter
  charges what it has in memory. Where spilling is not allowed that is all it was
  offered, or with a limit those of it that can be among the first, and they are
  what comes out in the end.
-/

import ExternalSort.Proofs.Sorter.Memory
import ExternalSort.Proofs.Sorter.Session

namespace ExternalSort

variable {ρ : Type} [Storable ρ]

/-- The error for a record that exceeds the budget and cannot be spilled. -/
def Options.overBudget (options : Options) : Failure :=
  .error (.memoryLimitExceeded options.memoryBudget)

/-- A budget is exceeded only where spilling is not allowed. -/
theorem Options.Stops.confined_of_memoryLimit {options : Options} {budget : UInt64}
    (stops : options.Stops (.error (.memoryLimitExceeded budget))) :
    options.spillAllowed = false := by
  cases stops with
  | confined confined => exact confined
  | hindered allowed hindrance =>
    cases hindrance with
    | disk failure =>
      obtain ⟨o, cause⟩ := failure
      cases cause

omit [Storable ρ] in
theorem Backing.refuses_of_confined {b : Backing ρ} (confined : b.options.spillAllowed = false) :
    (∀ a, b.requireSpillAllowed ≠ .ok a) ∧
      ∀ e, b.requireSpillAllowed = .error e → e = b.options.overBudget := by
  rw [requireSpillAllowed, confined]
  constructor
  · intro a h
    cases h
  · intro e h
    cases h
    rfl

theorem size_le_charge {α : Type} {size : α → Nat} {x : α} {xs : List α} (h : x ∈ xs) :
    size x ≤ charge size xs := by
  obtain ⟨before, behind, rfl⟩ := List.append_of_mem h
  rw [charge_append, charge_cons]
  omega

/-! ## Without a limit -/

namespace Unbounded

variable {u : Unbounded ρ} {s : Store} {x : ρ} {spare : Nat}

/-- Where spilling is not allowed, a record that exceeds the budget is refused, and it stays. -/
theorem add_confined (accepting : u.backing.finished = false)
    (confined : u.backing.options.spillAllowed = false)
    {ok : Unit → Unbounded ρ × Store → Prop} {err : Failure → Unbounded ρ × Store → Prop}
    (fits : (u.charging ⟨x, spare⟩).memoryUsed ≤ u.backing.options.memoryBudget.toNat →
      ok () (u.charging ⟨x, spare⟩, s))
    (exceeds : u.backing.options.memoryBudget.toNat < (u.charging ⟨x, spare⟩).memoryUsed →
      ∀ spills, err u.backing.options.overBudget
        ({ u.charging ⟨x, spare⟩ with
            backing := { (u.charging ⟨x, spare⟩).backing with spills } }, s)) :
    Leads (add x spare) (u, s) ok err := by
  apply add_of_charging
  · exact fun e refused => absurd refused (Backing.not_refused accepting e)
  intro _
  split
  · next full =>
    -- by now the record is in memory, and the spill is counted although it is refused
    obtain ⟨permits, refuses⟩ := Backing.refuses_of_confined confined
    refine spill_of (fun none => ?_) (fun e _ refused => ?_) fun _ allowed => (permits _ allowed).elim
    · exact absurd none (by simp [charging])
    · obtain rfl := refuses e refused
      exact exceeds full _
  · next notFull => exact Leads.of_pure (fits (Nat.le_of_not_lt notFull))

end Unbounded

/-! ## With a limit -/

namespace TopK

variable {t : TopK ρ} {s : Store} {x : Resident ρ} {xs : List ρ}

/-- The entries in memory have the first records of those offered, and nothing was spilled. -/
structure Sifts (t : TopK ρ) (xs : List ρ) : Prop where
  noRuns : t.backing.runs = #[]
  sound : t.Sound []
  entries : ∃ entries, Held t.order t.limit t.data entries ∧ Arrived t.nextSeq entries ∧
    leading t.order t.limit xs = leading t.order t.limit (entries.map (·.record))

variable [valid : Std.TransCmp t.order]

/-- Where spilling is not allowed, a spill of something is refused. -/
theorem spill_confined {entries : List (Entry ρ)} (held : Held t.order t.limit t.data entries)
    (some : entries ≠ []) (confined : t.backing.options.spillAllowed = false)
    {ok : Unit → TopK ρ × Store → Prop} {err : Failure → TopK ρ × Store → Prop}
    (h : ∀ spills, err t.backing.options.overBudget
      ({ t with backing := { t.backing with spills } }, s)) : Leads spill (t, s) ok err := by
  have valid : Std.TransCmp t.spilling.order := valid
  obtain ⟨permits, refuses⟩ := Backing.refuses_of_confined confined
  apply spill_of
  apply writeOut_of_writeRun (t := t.spilling) held some
  · intro e refused
    obtain rfl := refuses e refused
    exact h _
  · exact fun allowed => (permits () allowed).elim

omit [Storable ρ] in
/-- A record that is not taken is not among the first ones. -/
theorem Sifts.passed (sifts : t.Sifts xs) (positive : 0 < t.limit)
    (rejected : t.takes ⟨x, t.nextSeq⟩ = false) : t.counting.Sifts (xs ++ [x.record]) := by
  obtain ⟨noRuns, sound, entries, held, arrived, same⟩ := sifts
  refine ⟨noRuns, sound, entries, held, arrived, ?_⟩
  -- nothing was spilled, so it is the entries in memory that keep the record out
  have kept := leading_of_not_takes held positive sound rejected
  rw [List.nil_append] at kept
  exact (leading_append_congr same [x.record]).trans kept

/-- A record that is taken is put among those in memory, and charged for one that leaves. -/
theorem Sifts.placed (sifts : t.Sifts xs) (balanced : t.Balanced)
    (takes : t.takes ⟨x, t.nextSeq⟩ = true) :
    ∃ data memoryUsed,
      (t.counting.charging x).place ⟨x, t.nextSeq⟩ =
        pure { t.counting.charging x with data, memoryUsed } ∧
      ⟨x, t.nextSeq⟩ ∈ data ∧
      ∀ spills, TopK.Balanced { t.counting.charging x with
          data, memoryUsed, backing := { (t.counting.charging x).backing with spills } } ∧
        TopK.Sifts { t.counting.charging x with
          data, memoryUsed, backing := { (t.counting.charging x).backing with spills } }
          (xs ++ [x.record]) := by
  obtain ⟨noRuns, sound, entries, held, arrived, same⟩ := sifts
  obtain ⟨positive, -, able, accepting, sum⟩ := balanced
  rw [charge_perm (held.perm.map _)] at sum
  have valid : Std.TransCmp (t.counting.charging x).order := valid
  obtain ⟨data, memoryUsed, entries', placed, held', trades⟩ :=
    place_eq (t := t.counting.charging x) held positive t.nextSeq x
  obtain ⟨-, sum'⟩ := trades.charge_eq (congrArg (· + x.footprint) sum)
  rw [← charge_perm (held'.perm.map _)] at sum'
  have first := trades.leading_eq held arrived (fun _ => lt_top_of_takes takes) []
  rw [List.nil_append, List.nil_append] at first
  refine ⟨data, memoryUsed, placed, ?_, fun spills => ⟨⟨positive, held'.self, able, accepting, sum'⟩,
    noRuns, sound, entries', held', trades.arrived arrived, ?_⟩⟩
  · exact Array.mem_toList_iff.mp (held'.perm.mem_iff.mpr trades.mem)
  · exact (leading_append_congr same [x.record]).trans first

/-- Where spilling is not allowed, a record that is taken and exceeds the budget is refused, and it
    stays. -/
theorem add_confined (sifts : t.Sifts xs) (balanced : t.Balanced)
    (confined : t.backing.options.spillAllowed = false) (x : ρ) (spare : Nat) :
    Leads (add x spare) (t, s)
      (fun _ p => p.2 = s ∧ t.Continues p.1 ∧ p.1.Balanced ∧ p.1.Sifts (xs ++ [x]) ∧
        (⟨⟨x, spare⟩, t.nextSeq⟩ ∈ p.1.data →
          p.1.memoryUsed ≤ t.backing.options.memoryBudget.toNat))
      (fun e p => e = t.backing.options.overBudget ∧ p.2 = s ∧ t.Continues p.1 ∧ p.1.Balanced ∧
        p.1.Sifts (xs ++ [x]) ∧ ⟨⟨x, spare⟩, t.nextSeq⟩ ∈ p.1.data ∧
        t.backing.options.memoryBudget.toNat < p.1.memoryUsed) := by
  apply add_of_takes
  · exact fun e refused => absurd refused (Backing.not_refused balanced.accepting e)
  intro _
  cases takes : t.takes ⟨⟨x, spare⟩, t.nextSeq⟩ with
  | false =>
    refine Leads.of_pure ⟨rfl, ⟨rfl, rfl, rfl, rfl, rfl⟩, ?_, sifts.passed balanced.positive takes,
      fun stored => ?_⟩
    · exact ⟨balanced.positive, balanced.held, balanced.able, balanced.accepting, balanced.sum⟩
    · -- all entries in memory have arrived before
      obtain ⟨entries, held, arrived, -⟩ := sifts.entries
      have early := arrived.before _ (held.perm.mem_iff.mp (Array.mem_toList_iff.mpr stored))
      exact absurd early (Nat.lt_irrefl _)
  | true =>
    obtain ⟨data, memoryUsed, placed, stored, after⟩ := sifts.placed balanced takes
    obtain ⟨balanced', sifts'⟩ := after t.backing.spills
    apply insert_of_placed placed
    split
    · next full =>
      have valid : Std.TransCmp
        ({ t.counting.charging ⟨x, spare⟩ with data, memoryUsed } : TopK ρ).order := valid
      have some : data.toList ≠ [] := List.ne_nil_of_mem (Array.mem_toList_iff.mpr stored)
      -- the spill is refused before anything is sorted, so only the number of spills is another
      refine spill_confined (t := { t.counting.charging ⟨x, spare⟩ with data, memoryUsed })
        balanced'.held some confined fun spills => ?_
      exact ⟨rfl, rfl, ⟨rfl, rfl, rfl, rfl, rfl⟩, (after spills).1, (after spills).2, stored, full⟩
    · next fits =>
      exact Leads.of_pure ⟨rfl, ⟨rfl, rfl, rfl, rfl, rfl⟩, balanced', sifts',
        fun _ => Nat.le_of_not_lt fits⟩

/-- What is in memory comes out, and it is the first ones of what was offered. -/
theorem done_confined (sifts : t.Sifts xs) (balanced : t.Balanced) :
    Leads done (t, s)
      (fun sorted p => p.2 = s ∧ ReadsOut sorted s (leading t.order t.limit xs))
      (fun _ _ => False) := by
  obtain ⟨noRuns, -, entries, held, arrived, same⟩ := sifts
  apply done_of_noRuns held (by rw [noRuns]; rfl)
  · exact fun e again => absurd again (Backing.not_again balanced.accepting e)
  · intro _ sorted data perm inOrder _
    -- entries that tie are in the order of arrival, so their records are sorted stably
    have records : sorted.map (·.record) = leading t.order t.limit xs := by
      rw [same, leading_eq_stableSort]
      · exact records_eq_stableSort arrived perm inOrder
      · rw [List.length_map, held.length_eq]
        exact held.size_le
    rw [records]
    exact ⟨rfl, readsOut_inMemory _ _⟩

end TopK

/-! ## Any number of records -/

namespace Sorter

/-- A sorter that keeps several records, and what was offered to it. Each record was taken, or it
    exceeded the budget; whatever happened on the disk in between. -/
inductive Offered (options : Options) (order : Comparator ρ) : Sorter ρ → List ρ → Prop
  | unbounded {u : Unbounded ρ} {s s' : Store}
      (h : Failing.runOn (Unbounded.ofOptions options order : SpillM (Unbounded ρ)) s =
        (.ok u, s')) : Offered options order (.unbounded u) []
  | resumed {u : Unbounded ρ} {manifest : Manifest} {s s' : Store}
      (h : Failing.runOn (Unbounded.resume manifest options order : SpillM (Unbounded ρ)) s =
        (.ok u, s')) : Offered options order (.unbounded u) []
  | topK {t : TopK ρ} {s s' : Store}
      (h : Failing.runOn (TopK.ofOptions options order : SpillM (TopK ρ)) s = (.ok t, s')) :
      Offered options order (.topK t) []
  | added {sorter sorter' : Sorter ρ} {xs : List ρ} {x : ρ} {spare : Nat} {s s' : Store}
      {result : Except Failure Unit} (h : Offered options order sorter xs)
      (run : Failing.runOn (add x spare) (sorter, s) = (result, sorter', s'))
      (mild : result = .ok () ∨
        ∃ budget, result = .error (.error (.memoryLimitExceeded budget))) :
      Offered options order sorter' (xs ++ [x])

omit [Storable ρ] in
/-- A record that was offered went into memory. -/
def Stores (before : Sorter ρ) (x : Resident ρ) (after : Sorter ρ) : Prop :=
  match before, after with
  | .unbounded u, .unbounded u' => u'.data = u.data.push x
  | .topK t, .topK t' => ⟨x, t.nextSeq⟩ ∈ t'.data
  | _, _ => False

/-- What comes out of a sorter that was offered the given records. -/
def firsts (options : Options) (order : Comparator ρ) (xs : List ρ) : List ρ :=
  if options.limit = 0 then stableSort order xs
  else (stableSort order xs).take options.limit.toNat

/-- What a sorter charges, and what the next call comes to. -/
structure Accounts (options : Options) (order : Comparator ρ) (sorter : Sorter ρ) (xs : List ρ) :
    Prop where
  sum : sorter.memoryUsed = charge Resident.footprint sorter.counted
  /-- Nothing that leaves memory was charged with more than there is. -/
  covers : ∀ x ∈ sorter.counted, x.footprint ≤ sorter.memoryUsed
  within : options.spillAllowed = true → ∀ x spare s, Leads (add x spare) (sorter, s)
    (fun _ p => charge Resident.footprint p.1.counted ≤ options.memoryBudget.toNat)
    (fun _ _ => True)
  /-- A record is refused just if it is stored and what is stored exceeds the budget. -/
  refuses : options.spillAllowed = false → ∀ x spare s, Leads (add x spare) (sorter, s)
    (fun _ p => ¬ (sorter.Stores ⟨x, spare⟩ p.1 ∧
      options.memoryBudget.toNat < charge Resident.footprint p.1.counted))
    (fun e p => e = options.overBudget ∧ sorter.Stores ⟨x, spare⟩ p.1 ∧
      options.memoryBudget.toNat < charge Resident.footprint p.1.counted)
  keeps : options.spillAllowed = false → ∀ s, Leads done (sorter, s)
    (fun sorted p => p.2 = s ∧ ReadsOut sorted s (firsts options order xs)) (fun _ _ => False)

/-- What holds of a sorter that was offered records. -/
inductive Ledger (options : Options) (order : Comparator ρ) : Sorter ρ → List ρ → Prop
  | unbounded {u : Unbounded ρ} {xs : List ρ} (limit : options.limit = 0)
      (sameOrder : u.order = order) (sameOptions : u.backing.options = options)
      (balanced : u.Balanced)
      (within : options.spillAllowed = true → u.memoryUsed ≤ options.memoryBudget.toNat)
      (all : options.spillAllowed = false → u.backing.runs = #[] ∧ u.records = xs) :
      Ledger options order (.unbounded u) xs
  | topK {t : TopK ρ} {xs : List ρ} (limit : options.limit ≠ 0)
      (sameLimit : t.limit = options.limit.toNat) (sameOrder : t.order = order)
      (sameOptions : t.backing.options = options) (balanced : t.Balanced)
      (within : options.spillAllowed = true → t.memoryUsed ≤ options.memoryBudget.toNat)
      (sifts : options.spillAllowed = false → t.Sifts xs) : Ledger options order (.topK t) xs

namespace Ledger

variable {options : Options} {order : Comparator ρ} {sorter : Sorter ρ} {s : Store} {xs : List ρ}

theorem of_unbounded (s : Store) :
    Leads (Unbounded.ofOptions options order : SpillM (Unbounded ρ)) s
      (fun u _ => Ledger options order (.unbounded u) []) (fun _ _ => True) := by
  obtain ⟨runs, accepting, sameOptions⟩ := Backing.ofOptions_empty ρ options s
  apply Unbounded.ofOptions_of (fun _ _ => trivial) (fun _ => trivial)
  intro valid limit
  have able := (Backing.ofOptions_fresh ρ valid s).1
  exact .unbounded limit rfl sameOptions ⟨able, accepting, rfl⟩ (fun _ => Nat.zero_le _)
    fun _ => ⟨runs, rfl⟩

theorem of_topK (s : Store) :
    Leads (TopK.ofOptions options order : SpillM (TopK ρ)) s
      (fun t _ => Ledger options order (.topK t) []) (fun _ _ => True) := by
  obtain ⟨runs, accepting, sameOptions⟩ := Backing.ofOptions_empty ρ options s
  apply TopK.ofOptions_of (fun _ _ => trivial) (fun _ => trivial)
  intro valid positive
  have able := (Backing.ofOptions_fresh ρ valid s).1
  have limit : options.limit ≠ 0 := by
    intro zero
    rw [zero] at positive
    exact Nat.lt_irrefl 0 positive
  exact .topK limit rfl rfl sameOptions ⟨positive, Held.empty order positive, able, accepting, rfl⟩
    (fun _ => Nat.zero_le _) fun _ => ⟨runs, ⟨{}, .start order _, List.Perm.refl []⟩, [],
      Held.empty order positive, Arrived.nil 0, rfl⟩

/-- A sorter that takes up runs may spill. -/
theorem of_resumed (manifest : Manifest) (s : Store) :
    Leads (Unbounded.resume manifest options order : SpillM (Unbounded ρ)) s
      (fun u _ => Ledger options order (.unbounded u) []) (fun _ _ => True) := by
  apply (Unbounded.resume_leads manifest options order s).mono
  · rintro u s' ⟨directory, file, hdirectory, -, -, ⟨rfl, -, -⟩, -⟩
    obtain ⟨limit, -⟩ := Unbounded.of_resumeDirectory hdirectory
    -- what is said of a sorter that may not spill is said of no sorter that takes up runs
    have allowed := Unbounded.allowed_of_resumeDirectory hdirectory
    exact .unbounded limit rfl rfl ⟨fun _ => ⟨file, rfl⟩, rfl, rfl⟩ (fun _ => Nat.zero_le _)
      fun confined => absurd (allowed.symm.trans confined) (by simp)
  · exact fun _ _ _ => trivial

theorem sum (ledger : Ledger options order sorter xs) :
    sorter.memoryUsed = charge Resident.footprint sorter.counted := by
  cases ledger with
  | unbounded limit sameOrder sameOptions balanced within all => exact balanced.sum
  | topK limit sameLimit sameOrder sameOptions balanced within sifts => exact balanced.sum

variable [Std.TransCmp order]

/-- Where spilling is allowed, what is charged stays within the budget. -/
theorem add_allowed (ledger : Ledger options order sorter xs) (allowed : options.spillAllowed = true)
    (x : ρ) (spare : Nat) :
    Leads (add x spare) (sorter, s)
      (fun _ p => Ledger options order p.1 (xs ++ [x]) ∧
        charge Resident.footprint p.1.counted ≤ options.memoryBudget.toNat)
      (fun e _ => ∀ budget, e ≠ .error (.memoryLimitExceeded budget)) := by
  have confines (h : options.spillAllowed = false) {P : Prop} : P :=
    absurd (allowed.symm.trans h) (by simp)
  cases ledger with
  | @unbounded u xs limit sameOrder sameOptions balanced within all =>
    subst sameOrder sameOptions
    apply dispatch_unbounded
    apply (Unbounded.add_charges balanced x spare).mono
    · rintro _ ⟨u', s'⟩ ⟨⟨sameOrder, continues⟩, charges⟩
      have accepting := continues.finished.trans balanced.accepting
      exact ⟨.unbounded limit sameOrder continues.options
        ⟨balanced.able.of_continues continues, accepting, charges.sum⟩ (fun _ => charges.within)
        fun h => confines h, charges.sum ▸ charges.within⟩
    · rintro _ _ refuses budget rfl
      exact confines refuses.stops.confined_of_memoryLimit
  | @topK t xs limit sameLimit sameOrder sameOptions balanced within sifts =>
    subst sameOrder sameOptions
    apply dispatch_topK
    apply (TopK.add_charges balanced (within allowed) x spare).mono
    · rintro _ ⟨t', s'⟩ ⟨⟨⟨sameOrder, same, continues⟩, held⟩, charges⟩
      have accepting := continues.finished.trans balanced.accepting
      exact ⟨.topK limit (same.trans sameLimit) sameOrder continues.options
        ⟨same ▸ balanced.positive, held, balanced.able.of_continues continues, accepting,
          charges.sum⟩ (fun _ => charges.within) fun h => confines h,
        charges.sum ▸ charges.within⟩
    · rintro _ _ refuses budget rfl
      exact confines refuses.stops.confined_of_memoryLimit

/-- Where it is not allowed, a record that is stored and exceeds the budget is refused. -/
theorem add_confined (ledger : Ledger options order sorter xs)
    (confined : options.spillAllowed = false) (x : ρ) (spare : Nat) :
    Leads (add x spare) (sorter, s)
      (fun _ p => Ledger options order p.1 (xs ++ [x]) ∧
        ¬ (sorter.Stores ⟨x, spare⟩ p.1 ∧
          options.memoryBudget.toNat < charge Resident.footprint p.1.counted))
      (fun e p => Ledger options order p.1 (xs ++ [x]) ∧ e = options.overBudget ∧
        sorter.Stores ⟨x, spare⟩ p.1 ∧
        options.memoryBudget.toNat < charge Resident.footprint p.1.counted) := by
  have allows (h : options.spillAllowed = true) {P : Prop} : P :=
    absurd (confined.symm.trans h) (by simp)
  cases ledger with
  | @unbounded u xs limit sameOrder sameOptions balanced within all =>
    subst sameOrder sameOptions
    obtain ⟨noRuns, rfl⟩ := all confined
    obtain ⟨able, accepting, sum⟩ := balanced
    have sum' : (u.charging ⟨x, spare⟩).memoryUsed =
        charge Resident.footprint (u.data.push ⟨x, spare⟩).toList := by
      rw [Unbounded.charging, Array.toList_push, charge_concat, sum]
    -- a record that is refused is stored and charged all the same; only the spills differ
    have charged (spills : Nat) : Ledger u.backing.options u.order
        (.unbounded { u.charging ⟨x, spare⟩ with
          backing := { (u.charging ⟨x, spare⟩).backing with spills } })
        (u.records ++ [x]) :=
      .unbounded limit rfl rfl ⟨able, accepting, sum'⟩ (fun h => allows h)
        fun _ => ⟨noRuns, u.records_charging ⟨x, spare⟩⟩
    apply dispatch_unbounded
    apply Unbounded.add_confined accepting confined
    · intro fits
      refine ⟨charged u.backing.spills, fun exceeds => ?_⟩
      exact absurd exceeds.2 (Nat.not_lt_of_le (sum' ▸ fits))
    · exact fun exceeds spills => ⟨charged spills, rfl, rfl, sum' ▸ exceeds⟩
  | @topK t xs limit sameLimit sameOrder sameOptions balanced within sifts =>
    subst sameOrder sameOptions
    have charged {t' : TopK ρ} (continues : t.Continues t') (balanced' : t'.Balanced)
        (sifts' : t'.Sifts (xs ++ [x])) :
        Ledger t.backing.options t.order (.topK t') (xs ++ [x]) :=
      .topK limit (continues.limit.trans sameLimit) continues.order continues.backing.options
        balanced' (fun h => allows h) fun _ => sifts'
    apply dispatch_topK
    apply (TopK.add_confined (sifts confined) balanced confined x spare).mono
    · rintro _ ⟨t', s'⟩ ⟨-, continues, balanced', sifts', fits⟩
      -- if the record is stored, what is charged with it fits
      refine ⟨charged continues balanced' sifts', fun exceeds => ?_⟩
      exact absurd exceeds.2 (Nat.not_lt_of_le (balanced'.sum ▸ fits exceeds.1))
    · rintro _ ⟨t', s'⟩ ⟨rfl, -, continues, balanced', sifts', stored, exceeds⟩
      exact ⟨charged continues balanced' sifts', rfl, stored, balanced'.sum ▸ exceeds⟩

/-- Where it is not allowed, everything that was offered counts for what comes out. -/
theorem done_confined (ledger : Ledger options order sorter xs)
    (confined : options.spillAllowed = false) :
    Leads done (sorter, s)
      (fun sorted p => p.2 = s ∧ ReadsOut sorted s (firsts options order xs)) (fun _ _ => False) := by
  cases ledger with
  | @unbounded u xs limit sameOrder sameOptions balanced within all =>
    subst sameOrder
    obtain ⟨noRuns, rfl⟩ := all confined
    rw [firsts, if_pos limit]
    apply dispatch_unbounded
    apply Unbounded.done_of_noRuns (by rw [noRuns]; rfl)
    · exact fun e again => absurd again (Backing.not_again balanced.accepting e)
    · exact fun _ _ _ => ⟨rfl, readsOut_inMemory _ _⟩
  | @topK t xs limit sameLimit sameOrder sameOptions balanced within sifts =>
    subst sameOrder
    rw [firsts, if_neg limit, ← sameLimit]
    apply dispatch_topK
    exact TopK.done_confined (sifts confined) balanced

theorem of_offered (h : Offered options order sorter xs) : Ledger options order sorter xs := by
  -- by induction on the records; one that is refused leaves as much as one that is taken
  induction h with
  | unbounded h => exact (of_unbounded _).of_ok h
  | resumed h => exact (of_resumed _ _).of_ok h
  | topK h => exact (of_topK _).of_ok h
  | @added sorter sorter' xs x spare s s' result _ run mild ih =>
    cases allowed : options.spillAllowed with
    | true =>
      have added := ih.add_allowed (s := s) allowed x spare
      rcases mild with rfl | ⟨budget, rfl⟩
      · exact (added.of_ok run).1
      · exact absurd rfl (added.of_error run budget)
    | false =>
      have added := ih.add_confined (s := s) allowed x spare
      rcases mild with rfl | ⟨budget, rfl⟩
      · exact (added.of_ok run).1
      · exact (added.of_error run).1

end Ledger

/-- After any records were offered, each taken or refused because it exceeds the budget, a sorter
    charges the footprints of what it has in memory. Where spilling is allowed, they are within the
    budget after each record that is taken. Where it is not, a record is refused just if it is
    stored and exceeds the budget, and still all that was offered counts for what comes out. -/
theorem accounts_of_offered {options : Options} {order : Comparator ρ} [Std.TransCmp order]
    {sorter : Sorter ρ} {xs : List ρ} (h : Offered options order sorter xs) :
    Accounts options order sorter xs := by
  have ledger := Ledger.of_offered h
  refine ⟨ledger.sum, fun x hx => ?_, fun allowed x spare s => ?_,
    fun confined x spare s => ?_, fun confined s => ledger.done_confined confined⟩
  · rw [ledger.sum]
    exact size_le_charge hx
  · exact (ledger.add_allowed allowed x spare).mono (fun _ _ h => h.2) fun _ _ _ => trivial
  · exact (ledger.add_confined confined x spare).mono (fun _ _ h => h.2) fun _ _ h => h.2

/-- Options for the first two records, with a budget that no record fits into and nowhere to spill
    to. -/
def crampedTwo : Options := { memoryBudget := 1, limit := 2 }

/-- A record was refused because it exceeds the budget. -/
def exceeded : Except Failure Unit → Bool
  | .error (.error (.memoryLimitExceeded _)) => true
  | _ => false

/-- Records that are refused one after another are offered all the same. -/
theorem Offered.of_exceeded {options : Options} {order : Comparator ρ} {p p' : Sorter ρ × Store}
    {earlier xs : List ρ} (h : Offered options order p.1 earlier)
    (run : Failing.follow (fun x => add x) exceeded xs p = some p') :
    Offered options order p'.1 (earlier ++ xs) := by
  apply Failing.of_follow (P := fun xs p => Offered options order p.1 xs) _ h run
  intro _ x _ result _ before run refused
  apply before.added run
  unfold exceeded at refused
  split at refused
  · exact .inr ⟨_, rfl⟩
  · exact Bool.noConfusion refused

/-- The numbers ten, eleven and five exceed the budget, and twenty is not stored. -/
def refusedThrice : Option (Unit × Sorter Numbered × Store) := do
  let (t, s) ← Failing.ok? (TopK.ofOptions crampedTwo ascending : SpillM (TopK Numbered)) {}
  let p ← Failing.follow (fun x => add x) exceeded [(10, ()), (11, ()), (5, ())] (.topK t, s)
  Failing.ok? (add (20, ())) p

theorem accounts_of_offered_cramped :
    ∃ sorter : Sorter Numbered,
      Offered crampedTwo ascending sorter [(10, ()), (11, ()), (5, ()), (20, ())] ∧
      Accounts crampedTwo ascending sorter [(10, ()), (11, ()), (5, ()), (20, ())] := by
  have stands : refusedThrice.isSome = true := by decide +kernel
  obtain ⟨⟨_, sorter, s'⟩, stands⟩ := Option.isSome_iff_exists.mp stands
  simp only [refusedThrice, Option.bind_eq_bind, Option.bind_eq_some_iff] at stands
  obtain ⟨⟨t, s⟩, made, p, three, last⟩ := stands
  have new : Offered crampedTwo ascending (.topK t) [] := .topK (Failing.runOn_of_ok? made)
  have offered := (new.of_exceeded (p := (.topK t, s)) three).added (Failing.runOn_of_ok? last)
    (.inl rfl)
  exact ⟨sorter, offered, accounts_of_offered offered⟩

end Sorter
end ExternalSort
