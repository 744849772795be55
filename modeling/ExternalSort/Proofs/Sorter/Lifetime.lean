/-
  ExternalSort.Proofs.Sorter.Lifetime

  How long the spill file of a sorter is there.

  It is there, with everything that it had, as long as the sorter is, or an output
  that still reads runs in it. When both are gone it is gone, too, unless the
  sorter persisted its runs; then it is there for good, and every extent that a
  manifest tells of keeps its bytes. Persisting nothing does not make a file.
-/

import ExternalSort.Proofs.Sorter.Conserved
import ExternalSort.Proofs.Sorter.Custody

namespace ExternalSort

open Store (Lasts)

variable {ρ : Type} [Storable ρ]

/-! ## Sorters that can spill -/

namespace Sorter

variable {α : Type} {c : Custody} {k : Nat} {s : Store}

/-- The sorter and its runs hold the file in custody, beside `k` others. -/
def InCustody (c : Custody) (k : Nat) : Sorter ρ → Store → Prop
  | .unbounded u, s => u.backing.InCustody c k s
  | .singleBest _, _ => False
  | .topK t, s => t.backing.InCustody c k s

theorem add_inCustody {sorter : Sorter ρ} (custody : sorter.InCustody c k s) (x : ρ)
    (spare : Nat) :
    Leads (add x spare) (sorter, s) (fun _ p => p.1.InCustody c k p.2)
      (fun _ p => p.1.InCustody c k p.2) := by
  cases sorter with
  | unbounded u => exact dispatch_unbounded (Unbounded.add_inCustody custody x spare)
  | singleBest _ => exact custody.elim
  | topK t => exact dispatch_topK (TopK.add_inCustody custody x spare)

theorem persist_inCustody {sorter : Sorter ρ} (custody : sorter.InCustody c k s) :
    Leads persist (sorter, s)
      (fun m p => p.1.InCustody { c with kept := true } k p.2 ∧ m.Within c.path p.2.disk)
      (fun _ p => p.1.InCustody c k p.2) := by
  cases sorter with
  | unbounded u => exact dispatch_unbounded (Unbounded.persist_inCustody custody)
  | singleBest _ => exact custody.elim
  | topK t => exact dispatch_topK (TopK.persist_inCustody custody)

theorem done_inCustody {sorter : Sorter ρ} (custody : sorter.InCustody c k s) :
    Leads done (sorter, s)
      (fun output p => output.InFile c ∧ p.1.InCustody c (k + output.inUse) p.2)
      (fun _ p => p.1.InCustody c k p.2) := by
  cases sorter with
  | unbounded u =>
    apply dispatch_unbounded
    exact (Unbounded.done_handsOver custody).mono (fun _ _ h => ⟨h.inFile, h.custody⟩) fun _ _ h => h
  | singleBest _ => exact custody.elim
  | topK t =>
    apply dispatch_topK
    exact (TopK.done_handsOver custody).mono (fun _ _ h => ⟨h.inFile, h.custody⟩) fun _ _ h => h

theorem release_lasts {sorter : Sorter ρ} (custody : sorter.InCustody c k s) :
    Runs sorter.release s fun _ s' => Lasts c [] k s' := by
  cases sorter with
  | unbounded u => exact Backing.release_lasts custody
  | singleBest _ => exact custody.elim
  | topK t => exact Backing.release_lasts custody

omit [Storable ρ] in
theorem InCustody.lengthens {sorter : Sorter ρ} (custody : sorter.InCustody c k s) :
    c.before.Lengthens c.path s.disk := by
  cases sorter with
  | unbounded u => exact custody.held.lasts.lengthens
  | singleBest _ => exact custody.elim
  | topK t => exact custody.held.lasts.lengthens

omit [Storable ρ] in
theorem InCustody.anew {sorter : Sorter ρ} (custody : sorter.InCustody c k s) :
    sorter.InCustody (c.since s.disk) k s := by
  cases sorter with
  | unbounded u => exact ⟨custody.file, custody.runs, custody.held.anew⟩
  | singleBest _ => exact custody
  | topK t => exact ⟨custody.file, custody.runs, custody.held.anew⟩

omit [Storable ρ] in
theorem InCustody.others {sorter : Sorter ρ} (custody : sorter.InCustody c k s) :
    ∃ ends n, Lasts c ends (n + k) s ∧
      ∀ k' s', Lasts c ends (n + k') s' → sorter.InCustody c k' s' := by
  cases sorter with
  | unbounded u => exact Backing.InCustody.others custody
  | singleBest _ => exact custody.elim
  | topK t => exact Backing.InCustody.others custody

end Sorter

/-! ## A sorter and its output -/

/-- A sorter and what it gave out, while they are not given up. -/
structure Owners (ρ : Type) where
  sorter : Option (Sorter ρ)
  output : Option (Sorted ρ) := none

namespace Owners

/-- What is asked of a sorter or of its output. -/
inductive Request (ρ : Type)
  | add (record : ρ) (spare : Nat := 0)
  | persist
  | done
  | next
  | close
  | dropSorter
  | dropOutput

/-- What a request comes to. -/
inductive Reply (ρ : Type)
  | finished
  | persisted (manifest : Manifest)
  | step (step : Step ρ)
  | closed (result : Except SortError Unit)
  | failed (failure : Failure)
  /-- There is no such sorter or output any more. -/
  | absent

/-- Whether a reply says that runs were persisted. -/
def Reply.isPersisted : Reply ρ → Bool
  | .persisted _ => true
  | _ => false

omit [Storable ρ] in
theorem Reply.any_isPersisted_iff {replies : List (Reply ρ)} :
    replies.any Reply.isPersisted = true ↔ ∃ m, .persisted m ∈ replies := by
  rw [List.any_eq_true]
  constructor
  · rintro ⟨reply, mem, h⟩
    cases reply with
    | persisted m => exact ⟨m, mem⟩
    | _ => cases h
  · rintro ⟨m, mem⟩
    exact ⟨_, mem, rfl⟩

/-- Calls an operation of the sorter, if it is there, and goes on with its result. -/
def call {α : Type} (o : Owners ρ) (op : SorterM (Sorter ρ) α)
    (goOn : α → Owners ρ → StoreM (Reply ρ × Owners ρ)) : StoreM (Reply ρ × Owners ρ) := do
  match o.sorter with
  | none => return (.absent, o)
  | some sorter => do
    let (result, sorter) ← op.run.run sorter
    let o := { o with sorter := some sorter }
    match result with
    | .ok a => goOn a o
    | .error failure => return (.failed failure, o)

/-- Gives up the output, if it is there. -/
def dropOutput (o : Owners ρ) : StoreM (Owners ρ) := do
  match o.output with
  | none => return o
  | some output => do
    SortedSource.release output
    return { o with output := none }

/-- Asks the output for something, if it is there. -/
def read {α : Type} (o : Owners ρ) (op : Sorted ρ → StoreM (α × Sorted ρ)) (tell : α → Reply ρ) :
    StoreM (Reply ρ × Owners ρ) := do
  match o.output with
  | none => return (.absent, o)
  | some output => do
    let (answer, output) ← op output
    return (tell answer, { o with output := some output })

/-- Carries out a request. -/
def perform (o : Owners ρ) : Request ρ → StoreM (Reply ρ × Owners ρ)
  | .add record spare => o.call (Sorter.add record spare) fun _ o => return (.finished, o)
  | .persist => o.call Sorter.persist fun manifest o => return (.persisted manifest, o)
  | .done => o.call Sorter.done fun output o => do
    let o ← o.dropOutput
    return (.finished, { o with output := some output })
  | .next => o.read SortedSource.next .step
  | .close => o.read SortedSource.close .closed
  | .dropSorter => do
    match o.sorter with
    | none => return (.absent, o)
    | some sorter => do
      sorter.release
      return (.finished, { o with sorter := none })
  | .dropOutput => do
    let o ← o.dropOutput
    return (.finished, o)

/-- Carries out requests, first to last. -/
def performAll (o : Owners ρ) : List (Request ρ) → StoreM (List (Reply ρ) × Owners ρ)
  | [] => return ([], o)
  | request :: rest => do
    let (reply, o) ← o.perform request
    let (replies, o) ← o.performAll rest
    return (reply :: replies, o)

/-- Whether anyone holds the spill file: the sorter, or an output with runs that it still reads. -/
def holdsFile (o : Owners ρ) : Bool :=
  o.sorter.isSome || o.output.any fun output => output.inUse != 0

/-! ## Custody -/

/-- How many runs the output reads. -/
def reading (o : Owners ρ) : Nat := o.output.elim 0 Sorted.inUse

/-- The sorter and its output hold the file in custody, beside `k` others. -/
structure InCustody (c : Custody) (k : Nat) (o : Owners ρ) (s : Store) : Prop where
  inFile : ∀ output, o.output = some output → output.InFile c
  sorter : ∀ sorter, o.sorter = some sorter → sorter.InCustody c (k + o.reading) s
  gone : o.sorter = none → Lasts c [] (k + o.reading) s

variable {α : Type} {c : Custody} {k : Nat} {o : Owners ρ} {s : Store}

omit [Storable ρ] in
/-- The sorter and the others hold the file, whatever becomes of the output. -/
theorem InCustody.others (custody : o.InCustody c k s) :
    ∃ ends n, (∀ out, o.output = some out → out.Owns c ends n s) ∧ ∀ output s',
      (∀ out, output = some out → out.InFile c) → Lasts c ends (n + output.elim 0 Sorted.inUse) s' →
        InCustody c k { o with output := output } s' := by
  obtain ⟨sorter, now⟩ := o
  obtain ⟨inFile, working, gone⟩ := custody
  have owns {ends : List Nat} {n : Nat} (lasts : Lasts c ends (n + now.elim 0 Sorted.inUse) s) :
      ∀ out, now = some out → out.Owns c ends n s := by
    rintro out rfl
    exact ⟨inFile out rfl, lasts⟩
  cases sorter with
  | none =>
    refine ⟨[], k, owns (gone rfl), fun output s' inFile lasts => ⟨inFile, ?_, fun _ => lasts⟩⟩
    intro sorter same
    cases same
  | some sorter =>
    obtain ⟨ends, n, lasts, back⟩ := (working sorter rfl).others
    refine ⟨ends, n + k, owns (lasts.of_eq (Nat.add_assoc _ _ _).symm), ?_⟩
    intro output s' inFile lasts
    refine ⟨inFile, fun sorter' same => ?_, fun none => ?_⟩
    · obtain rfl := Option.some.inj same
      exact back _ s' (lasts.of_eq (Nat.add_assoc _ _ _))
    · cases none

omit [Storable ρ] in
/-- A sorter with the file in custody takes the place of another. -/
theorem InCustody.of_sorter {sorter : Sorter ρ}
    (inFile : ∀ output, o.output = some output → output.InFile c)
    (working : sorter.InCustody c (k + o.reading) s) :
    InCustody c k { o with sorter := some sorter } s := by
  refine ⟨inFile, fun sorter' same => ?_, fun none => ?_⟩
  · obtain rfl := Option.some.inj same
    exact working
  · cases none

/-- An output that is given up lets go of its runs. -/
theorem dropOutput_inCustody (custody : o.InCustody c k s) :
    Runs o.dropOutput s fun o' s' => o' = { o with output := none } ∧ o'.InCustody c k s' := by
  obtain ⟨ends, n, owns, back⟩ := custody.others
  rw [dropOutput]
  cases h : o.output with
  | none =>
    have same : o = { o with output := none } := by rw [← h]
    exact Runs.of_pure ⟨same, custody⟩
  | some output =>
    refine (Sorted.release_lasts (owns output h)).seq fun _ s' lasts' => Runs.of_pure ⟨rfl, ?_⟩
    refine back none s' (fun out same => ?_) lasts'
    cases same

omit [Storable ρ] in
/-- What calling an operation of the sorter leads to. -/
theorem call_runs {op : SorterM (Sorter ρ) α} {goOn : α → Owners ρ → StoreM (Reply ρ × Owners ρ)}
    {post : Reply ρ × Owners ρ → Store → Prop} (absent : o.sorter = none → post (.absent, o) s)
    (called : ∀ sorter, o.sorter = some sorter →
      Leads op (sorter, s) (fun a p => Runs (goOn a { o with sorter := some p.1 }) p.2 post)
        fun failure p => post (.failed failure, { o with sorter := some p.1 }) p.2) :
    Runs (o.call op goOn) s post := by
  rw [call]
  cases h : o.sorter with
  | none => exact Runs.of_pure (absent h)
  | some sorter =>
    rcases (called sorter h).outcome with
      ⟨a, ⟨sorter', s'⟩, hrun, goes⟩ | ⟨failure, ⟨sorter', s'⟩, hrun, failed⟩
    · rw [Runs, run_bind_of_run (Leads.run_run_run hrun)]
      exact goes
    · rw [Runs, run_bind_of_run (Leads.run_run_run hrun)]
      exact failed

/-- After a reply the file is in custody, to stay if something was persisted, and what was persisted
    is in it. -/
structure Settles (c : Custody) (p : Reply ρ × Owners ρ) (s : Store) : Prop where
  custody : p.2.InCustody { c with kept := c.kept || p.1.isPersisted } 0 s
  within : ∀ m, p.1 = .persisted m → m.Within c.path s.disk

omit [Storable ρ] in
theorem Settles.of_not_persisted {reply : Reply ρ} (none : reply.isPersisted = false)
    (custody : o.InCustody c 0 s) : Settles c (reply, o) s := by
  refine ⟨?_, fun m told => ?_⟩
  · dsimp only
    rw [none, Bool.or_false]
    exact custody
  · dsimp only at told
    rw [told] at none
    cases none

omit [Storable ρ] in
/-- An answer of the output leaves the file to those who hold it. -/
theorem read_settles {op : Sorted ρ → StoreM (α × Sorted ρ)} {tell : α → Reply ρ}
    (keeps : ∀ {ends n output s}, Sorted.Owns c ends n output s →
      Runs (op output) s fun p s' => Sorted.Owns c ends n p.2 s')
    (quiet : ∀ a, (tell a).isPersisted = false) (custody : o.InCustody c 0 s) :
    Runs (o.read op tell) s fun p s' => Settles c p s' := by
  obtain ⟨ends, n, owns, back⟩ := custody.others
  rw [read]
  cases h : o.output with
  | none => exact Runs.of_pure (.of_not_persisted rfl custody)
  | some output =>
    refine (keeps (owns output h)).seq fun p s' owns' => Runs.of_pure (.of_not_persisted (quiet _) ?_)
    refine back (some p.2) s' (fun out same => ?_) owns'.lasts
    obtain rfl := Option.some.inj same
    exact owns'.inFile

/-- One request. -/
theorem perform_settles (custody : o.InCustody c 0 s) (request : Request ρ) :
    Runs (o.perform request) s fun p s' => Settles c p s' := by
  have absent : Settles c (Reply.absent, o) s := .of_not_persisted rfl custody
  cases request with
  | add record spare =>
    refine call_runs (fun _ => absent) fun sorter h => ?_
    apply (Sorter.add_inCustody (custody.sorter sorter h) record spare).mono
    · exact fun _ p working => Runs.of_pure (.of_not_persisted rfl (InCustody.of_sorter custody.inFile working))
    · exact fun _ p working => .of_not_persisted rfl (InCustody.of_sorter custody.inFile working)
  | persist =>
    refine call_runs (fun _ => absent) fun sorter h => ?_
    apply (Sorter.persist_inCustody (custody.sorter sorter h)).mono
    · rintro m p ⟨working, within⟩
      -- from here on a file counts as kept, whoever lets go of it
      refine Runs.of_pure ⟨?_, fun m' same => ?_⟩
      · dsimp only [Reply.isPersisted]
        rw [Bool.or_true]
        exact InCustody.of_sorter custody.inFile working
      · cases same
        exact within
    · exact fun _ p working => .of_not_persisted rfl (InCustody.of_sorter custody.inFile working)
  | done =>
    refine call_runs (fun _ => absent) fun sorter h => ?_
    apply (Sorter.done_inCustody (custody.sorter sorter h)).mono
    · rintro output ⟨sorter', s'⟩ ⟨inFile, working⟩
      dsimp only at working
      rw [Nat.zero_add, Nat.add_comm] at working
      -- the output takes the place of the one before, which is dropped first
      refine (dropOutput_inCustody (InCustody.of_sorter custody.inFile working)).seq ?_
      rintro _ s'' ⟨rfl, dropped⟩
      refine Runs.of_pure (.of_not_persisted rfl ⟨fun out same => ?_, fun sorter' same => ?_, fun none => ?_⟩)
      · obtain rfl := Option.some.inj same
        exact inFile
      · have working := dropped.sorter sorter' same
        rwa [reading, Option.elim_none, Nat.add_zero, ← Nat.zero_add output.inUse] at working
      · cases none
    · exact fun _ p working => .of_not_persisted rfl (InCustody.of_sorter custody.inFile working)
  | next => exact read_settles Sorted.next_owns (fun _ => rfl) custody
  | close => exact read_settles Sorted.close_owns (fun _ => rfl) custody
  | dropSorter =>
    rw [perform]
    cases h : o.sorter with
    | none => exact Runs.of_pure absent
    | some sorter =>
      refine (Sorter.release_lasts (custody.sorter sorter h)).seq fun _ s' lasts => ?_
      refine Runs.of_pure (.of_not_persisted rfl ⟨custody.inFile, fun sorter' same => ?_, fun _ => lasts⟩)
      cases same
  | dropOutput =>
    refine (dropOutput_inCustody custody).seq ?_
    exact fun o' s' dropped => Runs.of_pure (.of_not_persisted rfl dropped.2)

/-! ## Many requests -/

omit [Storable ρ] in
theorem InCustody.anew (custody : o.InCustody c k s) : o.InCustody (c.since s.disk) k s :=
  ⟨custody.inFile, fun sorter h => (custody.sorter sorter h).anew, fun none => (custody.gone none).anew⟩

omit [Storable ρ] in
/-- While the file is held, or kept, it loses nothing. -/
theorem InCustody.lengthens (custody : o.InCustody c 0 s)
    (stays : o.holdsFile = true ∨ c.kept = true) : c.before.Lengthens c.path s.disk := by
  obtain ⟨sorter, output⟩ := o
  cases sorter with
  | some sorter => exact (custody.sorter sorter rfl).lengthens
  | none =>
    apply (custody.gone rfl).lengthens
    apply stays.imp_left
    intro held
    cases output with
    | none => cases held
    | some output =>
      show 0 < 0 + output.inUse
      have reads : output.inUse ≠ 0 := by simpa [holdsFile] using held
      omega

omit [Storable ρ] in
/-- When it is neither, nothing of it is left. -/
theorem InCustody.leaves_nothing (custody : o.InCustody c 0 s) (free : o.holdsFile = false)
    (gone : c.kept = false) (bytes : ByteArray) : s.disk.contentAt c.path ≠ .ok bytes := by
  obtain ⟨sorter, output⟩ := o
  cases sorter with
  | some sorter => cases free
  | none =>
    have none : 0 + (Owners.mk (none : Option (Sorter ρ)) output).reading = 0 := by
      cases output with
      | none => rfl
      | some output =>
        show 0 + output.inUse = 0
        have reads : output.inUse = 0 := by simpa [holdsFile] using free
        omega
    exact ((custody.gone rfl).of_eq none).gone gone bytes

/-- Any requests leave the file in custody, to stay if something was persisted. -/
theorem performAll_inCustody (custody : o.InCustody c 0 s) (requests : List (Request ρ)) :
    Runs (o.performAll requests) s fun p s' =>
      p.2.InCustody { c with kept := c.kept || p.1.any Reply.isPersisted } 0 s' := by
  induction requests generalizing c o s with
  | nil =>
    refine Runs.of_pure ?_
    rw [List.any_nil, Bool.or_false]
    exact custody
  | cons request rest ih =>
    refine (perform_settles custody request).seq fun p s₁ settles => ?_
    refine (ih settles.custody).seq fun q s₂ custody' => Runs.of_pure ?_
    rw [List.any_cons, ← Bool.or_assoc]
    exact custody'

/-- What was persisted stays in the file. -/
theorem performAll_within (custody : o.InCustody c 0 s) (requests : List (Request ρ)) :
    Runs (o.performAll requests) s fun p s' =>
      ∀ m, Reply.persisted m ∈ p.1 → m.Within c.path s'.disk := by
  induction requests generalizing c o s with
  | nil =>
    refine Runs.of_pure fun m mem => ?_
    cases mem
  | cons request rest ih =>
    refine (perform_settles custody request).seq fun p s₁ settles => ?_
    have still := performAll_inCustody settles.custody.anew rest
    refine (still.and (ih settles.custody)).seq ?_
    rintro q s₂ ⟨custody', within⟩
    refine Runs.of_pure fun m mem => ?_
    rcases List.mem_cons.mp mem with here | there
    · -- what stays from here on has what the reply told of
      apply (settles.within m here.symm).mono
      apply custody'.lengthens
      right
      rw [← here]
      simp [Custody.since, Reply.isPersisted]
    · exact within m there

end Owners

/-! ## From the beginning -/

variable {options : Options} {order : Comparator ρ}

omit [Storable ρ] in
/-- A new sorter is the only holder of its file. -/
theorem Backing.ofOptions_inCustody {forbidden : Bool}
    (valid : options.validate forbidden = .ok ()) (allowed : options.spillAllowed = true)
    (s : Store) :
    Runs (ofOptions options : StoreM (Backing ρ)) s fun b s' =>
      ∃ ref, b.InCustody ⟨ref, options.spillPath s.names, s.disk, false⟩ 0 s' := by
  obtain ⟨directory, hdirectory⟩ := Options.exists_directory valid allowed
  let t : Store := { s with names := s.names.next.2 }
  have run : (ofOptions options : StoreM (Backing ρ)).run s =
      ({ options, file := some ((Store.register (directory.join ⟨s.names.next.1⟩)).run t).1 },
        ((Store.register (directory.join ⟨s.names.next.1⟩)).run t).2) := by
    rw [ofOptions, hdirectory, allowed]
    rfl
  have path : options.spillPath s.names = directory.join ⟨s.names.next.1⟩ := by
    rw [Options.spillPath, hdirectory]
    rfl
  rw [Runs, run, path]
  exact ⟨_, rfl, by simp, Store.held_register _ t⟩

omit [Storable ρ] in
/-- A new sorter that can spill is the only holder of its file. -/
theorem Sorter.ofOptions_inCustody (allowed : options.spillAllowed = true)
    (several : options.limit ≠ 1) (s : Store) :
    Leads (ofOptions options order : SpillM (Sorter ρ)) s
      (fun sorter s' => ∃ ref, Owners.InCustody ⟨ref, options.spillPath s.names, s.disk, false⟩ 0
        ⟨some sorter, none⟩ s')
      (fun _ _ => True) := by
  have alone {sorter : Sorter ρ} {c : Custody} {s' : Store} (custody : sorter.InCustody c 0 s') :
      Owners.InCustody c 0 ⟨some sorter, none⟩ s' := by
    apply Owners.InCustody.of_sorter (o := ⟨none, none⟩)
    · intro output same
      cases same
    · exact custody
  have made (valid : options.validate s.spillForbidden = .ok ()) :=
    Backing.ofOptions_inCustody (ρ := ρ) valid allowed s
  apply ofOptions_of fun _ _ => trivial
  · intro valid _
    obtain ⟨ref, custody⟩ := made valid
    exact ⟨ref, alone custody⟩
  · exact fun one => absurd one several
  · intro valid _
    obtain ⟨ref, custody⟩ := made valid
    exact ⟨ref, alone custody⟩

theorem extract_append_of_le {bytes more : ByteArray} {start stop : Nat} (inside : stop ≤ bytes.size) :
    (bytes ++ more).extract start stop = bytes.extract start stop := by
  have none : more.extract (start - bytes.size) (stop - bytes.size) = .empty := by
    apply ByteArray.size_eq_zero_iff.mp
    rw [ByteArray.size_extract]
    omega
  rw [ByteArray.extract_append, none, ByteArray.append_empty]

open Owners in
/-- The spill file of a sorter, between any two moments of its use and of the use of its output. While
    it is held, or once something was persisted, what its path leads to gets longer only. When no one
    holds it and nothing was persisted, its path leads to no file. And every extent that was persisted
    is in it, and keeps its bytes. -/
theorem Sorter.spill_file_lasts {s s₀ s₁ s₂ : Store} {sorter : Sorter ρ} {earlier later : List (Request ρ)}
    {replies replies' : List (Reply ρ)} {o o' : Owners ρ}
    (made : Failing.runOn (ofOptions options order : SpillM (Sorter ρ)) s = (.ok sorter, s₀))
    (allowed : options.spillAllowed = true) (several : options.limit ≠ 1)
    (first : (performAll ⟨some sorter, none⟩ earlier).run s₀ = ((replies, o), s₁))
    (second : (performAll o later).run s₁ = ((replies', o'), s₂)) :
    (o'.holdsFile = true ∨ (∃ m, .persisted m ∈ replies ++ replies') →
      s₁.disk.Lengthens (options.spillPath s.names) s₂.disk) ∧
    (o'.holdsFile = false → (∀ m, .persisted m ∉ replies ++ replies') →
      ∀ bytes, s₂.disk.contentAt (options.spillPath s.names) ≠ .ok bytes) ∧
    ∀ m, .persisted m ∈ replies → ∀ e ∈ m.extents, ∃ bytes bytes',
      s₁.disk.contentAt (options.spillPath s.names) = .ok bytes ∧
      s₂.disk.contentAt (options.spillPath s.names) = .ok bytes' ∧
      e.stop.toNat ≤ bytes.size ∧
      bytes'.extract e.start.toNat e.stop.toNat = bytes.extract e.start.toNat e.stop.toNat := by
  obtain ⟨ref, custody₀⟩ := (ofOptions_inCustody allowed several s).of_ok made
  -- which path it is does not matter from here on
  generalize options.spillPath s.names = place at custody₀ ⊢
  have custody₁ := performAll_inCustody custody₀ earlier
  have within := performAll_within custody₀ earlier
  rw [Runs, first] at custody₁ within
  have custody₂ := performAll_inCustody custody₁.anew later
  rw [Runs, second] at custody₂
  have kept : (replies ++ replies').any Reply.isPersisted = true ↔
      ∃ m, .persisted m ∈ replies ++ replies' := Reply.any_isPersisted_iff
  rw [List.any_append] at kept
  have longer (stays : o'.holdsFile = true ∨ ∃ m, .persisted m ∈ replies ++ replies') :
      s₁.disk.Lengthens place s₂.disk := by
    apply custody₂.lengthens
    rw [← kept] at stays
    exact stays
  refine ⟨longer, fun free none => ?_, fun m told e mem => ?_⟩
  · apply custody₂.leaves_nothing free
    have nothing : ¬ ∃ m, .persisted m ∈ replies ++ replies' := not_exists.mpr none
    rw [← kept, Bool.not_eq_true] at nothing
    exact nothing
  · obtain ⟨bytes, before, inside⟩ := within m told e mem
    obtain ⟨more, after⟩ := longer (.inr ⟨m, List.mem_append_left _ told⟩) bytes before
    exact ⟨bytes, bytes ++ more, before, after, inside, extract_append_of_le inside⟩

namespace Sorter

/-- A record is persisted, what the sorter gives out is not read, and both are given up. -/
def persistsAndDrops : Bool :=
  match Failing.runOn (ofOptions spilling ascending : SpillM (Sorter Numbered)) {} with
  | (.error _, _) => false
  | (.ok sorter, s₀) =>
    match (Owners.performAll ⟨some sorter, none⟩ [.add (2, ()), .persist]).run s₀ with
    | (([.finished, .persisted m], o), s₁) =>
      match (o.performAll [.done, .dropSorter, .dropOutput]).run s₁ with
      | ((_, o'), _) => !m.extents.isEmpty && !o'.holdsFile
    | _ => false

theorem spill_file_lasts_dropped :
    ∃ (sorter : Sorter Numbered) (s₀ s₁ s₂ : Store) (m : Manifest) (o o' : Owners Numbered)
      (replies : List (Owners.Reply Numbered)),
      Failing.runOn (ofOptions spilling ascending) {} = (.ok sorter, s₀) ∧
      (Owners.performAll ⟨some sorter, none⟩ [.add (2, ()), .persist]).run s₀ =
        (([.finished, .persisted m], o), s₁) ∧
      (o.performAll [.done, .dropSorter, .dropOutput]).run s₁ = ((replies, o'), s₂) ∧
      o'.holdsFile = false ∧ m.extents ≠ [] ∧ ∀ e ∈ m.extents, ∃ bytes bytes',
        s₁.disk.contentAt (spilling.spillPath {}) = .ok bytes ∧
        s₂.disk.contentAt (spilling.spillPath {}) = .ok bytes' ∧
        e.stop.toNat ≤ bytes.size ∧
        bytes'.extract e.start.toNat e.stop.toNat = bytes.extract e.start.toNat e.stop.toNat := by
  have goes : persistsAndDrops = true := by decide +kernel
  rw [persistsAndDrops] at goes
  rcases made : Failing.runOn (ofOptions spilling ascending : SpillM (Sorter Numbered)) {} with
    ⟨_ | sorter, s₀⟩ <;> rw [made] at goes
  · cases goes
  · dsimp only at goes
    split at goes
    · rename_i m o s₁ first
      rcases second : (o.performAll [.done, .dropSorter, .dropOutput]).run s₁ with ⟨⟨replies, o'⟩, s₂⟩
      rw [second] at goes
      obtain ⟨some, free⟩ := Bool.and_eq_true_iff.mp goes
      have lasts := spill_file_lasts made rfl (by decide) first second
      refine ⟨sorter, s₀, s₁, s₂, m, o, o', replies, made, first, second, by simpa using free,
        by simpa using some, ?_⟩
      exact lasts.2.2 m (by simp)
    · cases goes

/-- Nothing is added, persisting succeeds, and the sorter is given up. -/
def persistsNothing : Bool :=
  match Failing.runOn (ofOptions spilling ascending : SpillM (Sorter Numbered)) {} with
  | (.error _, _) => false
  | (.ok sorter, s₀) =>
    match (Owners.performAll ⟨some sorter, none⟩ [.persist, .dropSorter]).run s₀ with
    | (([.persisted _, .finished], o), s₁) => !o.holdsFile &&
      !(s₁.disk.contentAt (spilling.spillPath {})).isOk
    | _ => false

/-- Persisting nothing makes no file. -/
theorem no_file_of_nothing_persisted :
    ∃ (sorter : Sorter Numbered) (s₀ s₁ : Store) (m : Manifest) (o : Owners Numbered),
      Failing.runOn (ofOptions spilling ascending) {} = (.ok sorter, s₀) ∧
      (Owners.performAll ⟨some sorter, none⟩ [.persist, .dropSorter]).run s₀ =
        (([.persisted m, .finished], o), s₁) ∧
      o.holdsFile = false ∧ ∀ bytes, s₁.disk.contentAt (spilling.spillPath {}) ≠ .ok bytes := by
  have goes : persistsNothing = true := by decide +kernel
  rw [persistsNothing] at goes
  rcases made : Failing.runOn (ofOptions spilling ascending : SpillM (Sorter Numbered)) {} with
    ⟨_ | sorter, s₀⟩ <;> rw [made] at goes
  · cases goes
  · dsimp only at goes
    split at goes
    · rename_i m o s₁ first
      obtain ⟨free, missing⟩ := Bool.and_eq_true_iff.mp goes
      refine ⟨sorter, s₀, s₁, m, o, made, first, by simpa using free, fun bytes there => ?_⟩
      rw [there] at missing
      cases missing
    · cases goes

end Sorter
end ExternalSort
