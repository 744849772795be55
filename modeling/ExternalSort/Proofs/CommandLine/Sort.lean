/-
  ExternalSort.Proofs.CommandLine.Sort

  What the command prints.

  The lines that come out are the ones that went in, in order, cut at the limit.
  Nothing else that can be asked for shows in them, so sorting them again changes
  nothing. If the lines can be read, the command can only be stopped by what does
  not fit into memory: where spilling is not allowed, and where it fails. If one
  of them cannot be read, nothing is printed at all.
-/

import ExternalSort.CommandLine.Sort
import ExternalSort.Proofs.CommandLine.LineKey
import ExternalSort.Proofs.Merge.Draining
import ExternalSort.Proofs.Sorter.Memory

namespace ExternalSort

/-- Arguments for a run from an input to its output: no runs are saved or taken up. There is a
    budget. -/
structure Arguments.Plain (a : Arguments) : Prop where
  unsaved : a.persistTo = none
  fresh : a.resumeFrom = none
  budget : a.memoryBudget ≠ 0

/-- Arguments that ask for the same lines, whatever they allow for getting them. -/
structure Arguments.Alike (a b : Arguments) : Prop where
  keyType : b.keyType = a.keyType
  descending : b.descending = a.descending
  limit : b.limit = a.limit

namespace CommandLine

open LineKey

/-- The bytes that the command reads. -/
def Receives (a : Arguments) (s : Store) (standardInput input : ByteArray) : Prop :=
  match a.input with
  | some path => s.disk.contentAt ⟨path⟩ = .ok input
  | none => standardInput = input

/-! ## The steps of the command -/

section Steps

variable {α : Type} [Storable α] [LineKey α] {a : Arguments} {directory : Path}
  {standardInput input : ByteArray} {s s' : Store}

/-- Keys stand on lines. -/
def Parsed (lines : List ByteArray) (keys : List α) : Prop :=
  List.Forall₂ (fun line key => LineKey.parse line = .ok key) lines keys

/-- Records that are keys only. -/
def records (keys : List α) : List (α × Unit) := keys.map (·, ())

/-- The first of the keys in order, as many as the limit allows. -/
def chosen (a : Arguments) (keys : List α) : List (α × Unit) :=
  leading (order a) (Merge.most a.limit) (records keys)

omit [Storable α] [LineKey α] in
theorem sorting_run {op : SpillM α} {result : Except SortError α}
    (h : Failing.runOn op s = (result, s')) :
    (sorting op).run.run s = (result.mapError .sort, s') := by
  have lifted : Failing.runOn (liftM (op.run : StoreM (Except SortError α)) :
      Action (Except SortError α)) s = (.ok result, s') := by
    show (Except.ok (op.run.run s).1, (op.run.run s).2) = _
    rw [show op.run.run s = (result, s') from h]
  show Failing.runOn (sorting op) s = _
  rw [sorting, Failing.runOn_bind, lifted]
  cases result <;> rfl

omit [Storable α] in
theorem openSorter_run (fresh : a.resumeFrom = none)
    {result : Except SortError (Sorter (α × Unit))}
    (h : Failing.runOn (Sorter.ofOptions (options a directory) (order a)) s = (result, s')) :
    (openSorter a directory : Action (Sorter (α × Unit))).run.run s =
      (result.mapError .sort, s') := by
  rw [openSorter, fresh]
  exact sorting_run h

theorem openInput_run (receives : Receives a s standardInput input) :
    (openInput a standardInput).run.run s = (.ok input, s) := by
  rw [Receives] at receives
  rw [openInput]
  cases h : a.input with
  | none =>
    rw [h] at receives
    rw [← receives]
    rfl
  | some path =>
    rw [h] at receives
    dsimp only at receives
    show (reading (s.disk.contentAt ⟨path⟩)).run.run s = _
    rw [receives]
    rfl

omit [Storable α] [LineKey α] in
theorem onSorter_run {β : Type} {sorter sorter' : Sorter (α × Unit)}
    {op : SorterM (Sorter (α × Unit)) β} {result : Except Failure β}
    (h : Failing.runOn op (sorter, s) = (result, sorter', s')) :
    (onSorter sorter op).run s = ((result.mapError .ofFailure, sorter'), s') :=
  run_bind_of_run (Leads.run_run_run h)

/-- Lines with keys on them are added as their keys. -/
theorem addLines_of_parsed {lines : List ByteArray} {keys : List α} (parsed : Parsed lines keys)
    (sorter : Sorter (α × Unit)) (number : Nat) (s : Store) :
    (addLines sorter number lines).run s =
      (onSorter sorter (Sorter.addAll (records keys))).run s := by
  -- by induction on the lines: adding the key of the first one is the first step on both sides
  induction parsed generalizing sorter number s with
  | nil => rfl
  | @cons line key lines keys hparse _ ih =>
    rw [addLines, hparse]
    dsimp only
    rcases hadd : Failing.runOn (Sorter.add (key, ())) (sorter, s) with ⟨result, sorter', s'⟩
    have all : Failing.runOn (Sorter.addAll (records (key :: keys))) (sorter, s) = _ :=
      Failing.runOn_bind (Sorter.add (key, ())) (fun _ => Sorter.addAll (records keys)) (sorter, s)
    rw [run_bind_of_run (onSorter_run hadd)]
    rw [hadd] at all
    cases result with
    | error e =>
      rw [onSorter_run all]
      rfl
    | ok _ =>
      rcases hrest : Failing.runOn (Sorter.addAll (records keys)) (sorter', s') with
        ⟨result, sorter'', s''⟩
      have rest : Failing.runOn (Sorter.addAll (records (key :: keys))) (sorter, s) =
          (result, sorter'', s'') := all.trans hrest
      rw [onSorter_run rest]
      show (addLines sorter' (number + 1) lines).run s' = _
      rw [ih, onSorter_run hrest]

/-- A line with no key on it ends the command, if nothing else did before. -/
theorem addLines_fails {lines : List ByteArray}
    (bad : ∃ line ∈ lines, ∀ key : α, LineKey.parse line ≠ .ok key) (sorter : Sorter (α × Unit))
    (number : Nat) (s : Store) :
    ∃ fault sorter' s', (addLines sorter number lines).run s = ((.error fault, sorter'), s') := by
  -- by induction on the lines: a line before the bad one may end the command as well
  induction lines generalizing sorter number s with
  | nil =>
    obtain ⟨line, hline, -⟩ := bad
    exact absurd hline List.not_mem_nil
  | cons first lines ih =>
    rw [addLines]
    cases hparse : (LineKey.parse first : Except LineFault α) with
    | error fault => exact ⟨.line number fault, sorter, s, rfl⟩
    | ok key =>
      dsimp only
      obtain ⟨line, hline, none⟩ := bad
      have later : line ∈ lines := (List.mem_cons.mp hline).resolve_left fun same =>
        none key (same ▸ hparse)
      rcases hadd : Failing.runOn (Sorter.add (key, ())) (sorter, s) with ⟨result, sorter', s'⟩
      rw [run_bind_of_run (onSorter_run hadd)]
      cases result with
      | error e => exact ⟨_, sorter', s', rfl⟩
      | ok _ => exact ih ⟨line, later, none⟩ sorter' (number + 1) s'

theorem outputLines_eq {form : LineForm α} (describes : form.Describes) (xs : List (α × Unit)) :
    outputLines xs = joined (xs.map fun x => form.text x.1) := by
  have onto (out : ByteArray) : xs.foldl (fun out r => out ++ LineKey.line r.1) out =
      out ++ joined (xs.map fun x => form.text x.1) := by
    induction xs generalizing out with
    | nil => exact ByteArray.append_empty.symm
    | cons x xs ih =>
      rw [List.foldl_cons, ih, List.map_cons, joined, describes.line, ByteArray.append_assoc]
  rw [outputLines, onto, ByteArray.empty_append]

/-- What a finished sorter gives is printed, and closing it finds nothing wrong. -/
theorem printSorted_eq {sorted : Sorted (α × Unit)} {xs : List (α × Unit)}
    (readsOut : ReadsOut sorted s xs) (few : xs.length ≤ Merge.unlimited) :
    ((printSorted sorted).run s).1 = { out := outputLines xs } := by
  obtain ⟨sorted', s₁, hdrain, closes⟩ := readsOut (Merge.unlimited + 1) (Nat.lt_succ_of_le few)
  rw [printSorted, run_bind_of_run hdrain]
  dsimp only
  rcases hclose : (SortedSource.close sorted' : StoreM _).run s₁ with ⟨⟨closed, sorted''⟩, s₂⟩
  rw [hclose] at closes
  dsimp only at closes
  subst closes
  rw [run_bind_of_run hclose]
  rfl

/-! ## The outcome -/

/-- A sorter that cannot be made is the reason to fail. -/
theorem sortLines_of_refused (plain : a.Plain) {e : SortError}
    (made : Failing.runOn (Sorter.ofOptions (options a directory) (order a) :
      SpillM (Sorter (α × Unit))) s = (.error e, s')) :
    ((sortLines α a directory standardInput).run s).1 = { fault := some (.sort e) } := by
  have opened := openSorter_run plain.fresh made
  have saves : ¬ (a.persistTo.isSome && a.limit == 1) = true := by
    rw [plain.unsaved]
    exact Bool.false_ne_true
  rw [sortLines, if_neg saves, run_bind_of_run opened]
  rfl

/-- The outcome is what feeding the sorter comes to. -/
theorem sortLines_of_made (plain : a.Plain) {sorter : Sorter (α × Unit)}
    (made : Failing.runOn (Sorter.ofOptions (options a directory) (order a) :
      SpillM (Sorter (α × Unit))) s = (.ok sorter, s')) :
    ((sortLines α a directory standardInput).run s).1 =
      ((feed a standardInput sorter).run s').1.1 := by
  have opened := openSorter_run plain.fresh made
  have saves : ¬ (a.persistTo.isSome && a.limit == 1) = true := by
    rw [plain.unsaved]
    exact Bool.false_ne_true
  rw [sortLines, if_neg saves, run_bind_of_run opened]
  rfl

variable {sorter sorter' : Sorter (α × Unit)}

/-- A line that is not taken is the reason to fail. -/
theorem feed_of_failed (receives : Receives a s standardInput input) {fault : Fault}
    (added : (addLines sorter 1 (lines input)).run s = ((.error fault, sorter'), s')) :
    ((feed a standardInput sorter).run s).1.1 = { fault := some fault } := by
  rw [feed, run_bind_of_run (openInput_run receives)]
  dsimp only
  rw [run_bind_of_run added]
  rfl

/-- The outcome is what concluding comes to; if that succeeds there may be statistics besides. -/
theorem feed_of_added (receives : Receives a s standardInput input)
    (added : (addLines sorter 1 (lines input)).run s = ((.ok (), sorter'), s')) :
    let concluded := ((conclude a sorter').run s').1.1
    ((feed a standardInput sorter).run s).1.1 = concluded ∨
      concluded.fault = none ∧ ∃ err, ((feed a standardInput sorter).run s).1.1 =
        { concluded with err } := by
  rw [feed, run_bind_of_run (openInput_run receives)]
  dsimp only
  rw [run_bind_of_run added]
  dsimp only
  rcases hconclude : (conclude a sorter').run s' with ⟨⟨outcome, sorter''⟩, s''⟩
  rw [run_bind_of_run hconclude]
  dsimp only
  split
  · next shown =>
    exact .inr ⟨Option.isNone_iff_eq_none.mp (Bool.and_eq_true_iff.mp shown).2, _, rfl⟩
  · exact .inl rfl

/-- What a finished sorter gives is printed. -/
theorem conclude_of_done (plain : a.Plain) {sorted : Sorted (α × Unit)}
    (done : Failing.runOn Sorter.done (sorter, s) = (.ok sorted, sorter', s')) :
    ((conclude a sorter).run s).1.1 = ((printSorted sorted).run s').1 := by
  rw [conclude, plain.unsaved]
  dsimp only
  rw [run_bind_of_run (onSorter_run done)]
  rfl

theorem conclude_of_failed (plain : a.Plain) {e : Failure}
    (done : Failing.runOn Sorter.done (sorter, s) = (.error e, sorter', s')) :
    ((conclude a sorter).run s).1.1 = { fault := some (.ofFailure e) } := by
  rw [conclude, plain.unsaved]
  dsimp only
  rw [run_bind_of_run (onSorter_run done)]
  rfl

end Steps

/-! ## Keys of one type -/

section Keys

variable {α : Type} [Storable α] [LineKey α] {form : LineForm α} {a b : Arguments}
  {directory : Path} {standardInput input : ByteArray} {s : Store} {keys : List α}

/-- What the command comes to when records do not fit into memory and are not spilled: that is not
    allowed, or a run cannot be written. -/
inductive Stopped (a : Arguments) : Outcome → Prop
  | exceeded (confined : a.noSpill = true) :
      Stopped a { fault := some (.sort (.memoryLimitExceeded a.memoryBudget)) }
  | hindered (allowed : a.noSpill = false) {e : SortError} (hindrance : Hindrance none e) :
      Stopped a { fault := some (.sort e) }

/-- The command prints this and succeeds, or it is stopped. -/
def PrintsOrStops (a : Arguments) (out : ByteArray) (outcome : Outcome) : Prop :=
  outcome.fault = none ∧ outcome.out = out ∨ Stopped a outcome

theorem Stopped.of_stops {e : Failure} (h : (options a directory).Stops e) :
    Stopped a { fault := some (.ofFailure e) } := by
  cases h with
  | confined confined => exact .exceeded (by simpa [options] using confined)
  | hindered allowed hindrance => exact .hindered (by simpa [options] using allowed) hindrance

theorem Stopped.fault_ne {outcome : Outcome} (h : Stopped a outcome) : outcome.fault ≠ none := by
  cases h <;> exact Option.some_ne_none _

/-- Both directions are valid orders. -/
theorem order_valid (describes : form.Describes) (a : Arguments) :
    Std.TransCmp (order a : Comparator (α × Unit)) := by
  have valid := describes.valid
  rw [order]
  split
  · exact {
      eq_swap := Std.OrientedCmp.eq_swap
      isLE_trans := fun first second => Std.TransCmp.isLE_trans second first }
  · exact {
      eq_swap := Std.OrientedCmp.eq_swap
      isLE_trans := Std.TransCmp.isLE_trans }

theorem footprint_pos (describes : form.Describes) (x : α × Unit) : 0 < footprint x :=
  Nat.lt_of_lt_of_le (describes.charged x.1) (Nat.le_add_right _ _)

/-- What the command reads is on the disk as it was. -/
theorem Receives.of_disk {s' : Store} (receives : Receives a s standardInput input)
    (same : s'.disk = s.disk) : Receives a s' standardInput input := by
  rw [Receives] at receives ⊢
  rwa [same]

omit [Storable α] in
theorem exists_parsed {lines : List ByteArray}
    (legible : ∀ line ∈ lines, ∃ key : α, LineKey.parse line = .ok key) :
    ∃ keys : List α, Parsed lines keys := by
  induction lines with
  | nil => exact ⟨[], .nil⟩
  | cons line lines ih =>
    obtain ⟨⟨key, hkey⟩, others⟩ := List.forall_mem_cons.mp legible
    obtain ⟨keys, parsed⟩ := ih others
    exact ⟨key :: keys, .cons hkey parsed⟩

omit [Storable α] in
theorem Parsed.exists_line {lines : List ByteArray} (parsed : Parsed lines keys) {key : α}
    (among : key ∈ keys) : ∃ line ∈ lines, LineKey.parse line = .ok key := by
  induction parsed with
  | nil => exact absurd among List.not_mem_nil
  | cons hparse _ ih =>
    rcases List.mem_cons.mp among with rfl | later
    · exact ⟨_, List.mem_cons_self, hparse⟩
    · obtain ⟨line, hline, hkey⟩ := ih later
      exact ⟨line, List.mem_cons_of_mem _ hline, hkey⟩

variable [TakesSpace (α × Unit)] [LawfulStorable (α × Unit)]

/-- A fed sorter gives out the chosen keys, or it is stopped, unless spilling is not allowed. The keys
    fit into the budget then. -/
theorem conclude_of_retains (describes : form.Describes) (plain : a.Plain)
    {sorter : Sorter (α × Unit)} (accepting : sorter.finished = false)
    (retains : sorter.Retains (options a directory) (order a) s (records keys))
    (charged : sorter.Charged (options a directory))
    (inMemory : (options a directory).spillAllowed = false → sorter.runCount = 0) :
    let outcome := ((conclude a sorter).run s).1.1
    (Stopped a outcome ∧ a.noSpill = false) ∨
    (outcome = { out := outputLines (chosen a keys) } ∧ (a.noSpill = true → a.limit ≠ 1 →
      charge footprint (chosen a keys) ≤ a.memoryBudget.toNat)) := by
  intro outcome
  have ordered := order_valid describes a
  have few : (chosen a keys).length ≤ Merge.unlimited := by
    have taken : (chosen a keys).length ≤ Merge.most a.limit := List.length_take_le _ _
    have most := Merge.most_le a.limit
    omega
  rcases ((Sorter.done_leads_most retains charged (footprint_pos describes)).and
      (Sorter.done_stops retains accepting charged inMemory)).outcome with
    ⟨sorted, ⟨sorter', s'⟩, done, readsOut, -⟩ | ⟨e, ⟨sorter', s'⟩, done, -, allowed, stops⟩
  · have printed : outcome = ((printSorted sorted).run s').1 := conclude_of_done plain done
    refine .inr ⟨printed.trans (printSorted_eq readsOut few), fun confined several => ?_⟩
    have confined : (options a directory).spillAllowed = false := by simpa [options] using confined
    exact Sorter.charge_leading retains charged (inMemory confined) several
  · have failed : outcome = { fault := some (.ofFailure e) } := conclude_of_failed plain done
    rw [failed]
    exact .inl ⟨.of_stops stops, by simpa [options] using allowed⟩

/-- The outcome if there is a key on each line: the command is stopped before anything is printed, or
    the chosen keys are. Where spilling is not allowed the budget decides. -/
theorem sortLines_of_parsed (describes : form.Describes) (plain : a.Plain)
    (receives : Receives a s standardInput input) (parsed : Parsed (lines input) keys)
    (directory : Path) :
    let outcome := ((sortLines α a directory standardInput).run s).1
    (Stopped a outcome ∧ (a.noSpill = true → a.limit ≠ 1 ∧
      a.memoryBudget.toNat < charge footprint (records keys))) ∨
    (outcome.out = outputLines (chosen a keys) ∧ outcome.fault = none ∧
      (a.noSpill = true → a.limit ≠ 1 → charge footprint (chosen a keys) ≤ a.memoryBudget.toNat)) := by
  intro outcome
  have ordered := order_valid describes a
  have faithful : FaithfulHook (options a directory).activeProtector := FaithfulHook.of_none rfl
  have charges := @Sorter.ofOptions_charges (α × Unit) _ (options a directory) (order a) s
  -- making the sorter, adding the records and finishing can each end the command
  rcases ((Sorter.ofOptions_leads faithful s).and charges).outcome with
    ⟨sorter, s₁, made, ⟨accepting, retains⟩, charged, zero, none, disk⟩ | ⟨e, s₁, made, -, why⟩
  · have fed : outcome = ((feed a standardInput sorter).run s₁).1.1 := sortLines_of_made plain made
    have receives := receives.of_disk disk
    have add := addLines_of_parsed parsed sorter 1 s₁
    rcases (Sorter.addAll_leads retains accepting charged (records keys)).outcome with
      ⟨_, ⟨sorter₂, s₂⟩, added, accepting₂, retains₂, charged₂, runs⟩ |
      ⟨e, ⟨sorter₂, s₂⟩, refused, several, full, stops⟩
    · have concluded := feed_of_added receives (add.trans (onSorter_run added))
      rcases conclude_of_retains describes plain accepting₂ retains₂ charged₂
          fun confined => (runs confined).trans none with
        ⟨stopped, allowed⟩ | ⟨printed, fits⟩
      · have same := concluded.resolve_right fun h => stopped.fault_ne h.1
        rw [fed, same]
        exact .inl ⟨stopped, fun confined => absurd (confined.symm.trans allowed) (by simp)⟩
      · rw [fed]
        right
        rcases concluded with same | ⟨-, err, same⟩ <;> rw [same, printed] <;>
          exact ⟨rfl, rfl, fits⟩
    -- a record was refused, so the records together are more than the budget
    · have failed := feed_of_failed receives (add.trans (onSorter_run refused))
      rw [fed, failed]
      refine .inl ⟨.of_stops stops, fun _ => ⟨several, ?_⟩⟩
      rwa [zero, Nat.zero_add] at full
  · have failed : outcome = { fault := some (.sort e) } := sortLines_of_refused plain made
    obtain ⟨allowed, hindrance⟩ := why.resolve_left plain.budget
    have allowed : a.noSpill = false := by simpa [options] using allowed
    rw [failed]
    exact .inl ⟨.hindered allowed hindrance, fun confined =>
      absurd (confined.symm.trans allowed) (by simp)⟩

omit [TakesSpace (α × Unit)] [LawfulStorable (α × Unit)] in
/-- If there is no key on some line, something fails, and nothing is printed. -/
theorem sortLines_of_illegible (plain : a.Plain) (receives : Receives a s standardInput input)
    (bad : ∃ line ∈ lines input, ∀ key : α, LineKey.parse line ≠ .ok key) (directory : Path) :
    let outcome := ((sortLines α a directory standardInput).run s).1
    outcome.fault ≠ none ∧ outcome.out = .empty := by
  intro outcome
  have charges := @Sorter.ofOptions_charges (α × Unit) _ (options a directory) (order a) s
  rcases charges.outcome with
    ⟨sorter, s₁, made, -, -, -, disk⟩ | ⟨e, s₁, made, -⟩
  · obtain ⟨fault, sorter', s', failed⟩ := addLines_fails bad sorter 1 s₁
    have fed : outcome = { fault := some fault } :=
      (sortLines_of_made plain made).trans (feed_of_failed (receives.of_disk disk) failed)
    rw [fed]
    exact ⟨Option.some_ne_none _, rfl⟩
  · have failed : outcome = { fault := some (.sort e) } := sortLines_of_refused plain made
    rw [failed]
    exact ⟨Option.some_ne_none _, rfl⟩

/-- A command that succeeds has read a key from each line. -/
theorem sortLines_succeeds (describes : form.Describes) (plain : a.Plain)
    (receives : Receives a s standardInput input) (directory : Path)
    (succeeds : ((sortLines α a directory standardInput).run s).1.fault = none) :
    ∃ keys : List α, Parsed (lines input) keys ∧
      ((sortLines α a directory standardInput).run s).1.out = outputLines (chosen a keys) ∧
      (a.noSpill = true → a.limit ≠ 1 → charge footprint (chosen a keys) ≤ a.memoryBudget.toNat) := by
  by_cases legible : ∀ line ∈ lines input, ∃ key : α, LineKey.parse line = .ok key
  · obtain ⟨keys, parsed⟩ := exists_parsed legible
    rcases sortLines_of_parsed describes plain receives parsed directory with
      ⟨stopped, -⟩ | ⟨out, -, fits⟩
    · exact absurd succeeds stopped.fault_ne
    · exact ⟨keys, parsed, out, fits⟩
  · have bad : ∃ line ∈ lines input, ∀ key : α, LineKey.parse line ≠ .ok key := by
      simpa using legible
    exact absurd succeeds (sortLines_of_illegible plain receives bad directory).1

omit [TakesSpace (α × Unit)] [LawfulStorable (α × Unit)] in
/-- Reading what was printed gives the keys that were printed. -/
theorem parsed_outputLines (describes : form.Describes) (parsed : Parsed (lines input) keys)
    {xs : List (α × Unit)} (among : ∀ x ∈ xs, x.1 ∈ keys) :
    Parsed (lines (outputLines xs)) (xs.map (·.1)) := by
  have unbroken := (isLines_lines input).unbroken
  -- what is written for a key that was read has no newline, and is read as this key
  have written : ∀ x ∈ xs, form.Stands (form.text x.1) x.1 ∧ Unbroken (form.text x.1) := by
    intro x hx
    obtain ⟨line, hline, hparse⟩ := parsed.exists_line (among x hx)
    exact describes.written (unbroken line hline) (describes.parse.mp hparse)
  have split : lines (outputLines xs) = xs.map fun x => form.text x.1 := by
    rw [outputLines_eq describes]
    refine (isLines_joined fun line hline => ?_).eq
    obtain ⟨x, hx, rfl⟩ := List.mem_map.mp hline
    exact (written x hx).2
  rw [split, Parsed, List.forall₂_map_left_iff, List.forall₂_map_right_iff, List.forall₂_same]
  exact fun x hx => describes.parse.mpr (written x hx).1

omit [Storable α] [TakesSpace (α × Unit)] [LawfulStorable (α × Unit)] in
/-- Only what is asked for decides which keys are chosen. -/
theorem chosen_alike (alike : a.Alike b) (keys : List α) : chosen b keys = chosen a keys := by
  have same : (order b : Comparator (α × Unit)) = order a := by
    rw [order, order, alike.descending]
  rw [chosen, chosen, same, alike.limit]

omit [Storable α] [LineKey α] [TakesSpace (α × Unit)] [LawfulStorable (α × Unit)] in
theorem records_map (xs : List (α × Unit)) : records (xs.map (·.1)) = xs := by
  rw [records, List.map_map]
  exact List.map_id' xs

omit [TakesSpace (α × Unit)] [LawfulStorable (α × Unit)] in
/-- Choosing from what was chosen changes nothing. -/
theorem chosen_chosen (describes : form.Describes) (a : Arguments) (keys : List α) :
    chosen a ((chosen a keys).map (·.1)) = chosen a keys := by
  have ordered := order_valid describes a
  have sorted : InOrder (order a) (chosen a keys) :=
    (inOrder_stableSort _).sublist (List.take_sublist _ _)
  have short : (chosen a keys).length ≤ Merge.most a.limit := List.length_take_le _ _
  rw [chosen, records_map, leading, stableSort_of_inOrder sorted]
  exact List.take_of_length_le short

omit [TakesSpace (α × Unit)] [LawfulStorable (α × Unit)] in
theorem mem_of_mem_chosen (describes : form.Describes) {x : α × Unit} (h : x ∈ chosen a keys) :
    x.1 ∈ keys := by
  have ordered := order_valid describes a
  have within := (perm_stableSort _).mem_iff.mp (List.mem_of_mem_take h)
  obtain ⟨key, hkey, rfl⟩ := List.mem_map.mp within
  exact hkey

/-- Whatever else is asked for, the chosen keys are the same. -/
theorem sortLines_other (describes : form.Describes) (parsed : Parsed (lines input) keys)
    (alike : a.Alike b) (plain : b.Plain) (receives : Receives b s standardInput input)
    (directory : Path) :
    PrintsOrStops b (outputLines (chosen a keys))
      ((sortLines α b directory standardInput).run s).1 := by
  rcases sortLines_of_parsed describes plain receives parsed directory with
    ⟨stopped, -⟩ | ⟨out, fine, -⟩
  · exact .inr stopped
  · rw [chosen_alike alike] at out
    exact .inl ⟨fine, out⟩

/-- What was printed is printed again when it is sorted again. Where spilling is not allowed the same
    budget suffices. -/
theorem sortLines_again (describes : form.Describes) (parsed : Parsed (lines input) keys)
    (alike : a.Alike b) (plain : b.Plain) {out : ByteArray} (hout : out = outputLines (chosen a keys))
    (receives : Receives b s standardInput out) (directory : Path) :
    let again := ((sortLines α b directory standardInput).run s).1
    PrintsOrStops b out again ∧ (b.noSpill = true →
      (a.limit ≠ 1 → charge footprint (chosen a keys) ≤ b.memoryBudget.toNat) → again.fault = none) := by
  intro again
  subst hout
  have among (x : α × Unit) (hx : x ∈ chosen a keys) : x.1 ∈ keys := mem_of_mem_chosen describes hx
  have parsed' := parsed_outputLines describes parsed among
  have same : chosen b ((chosen a keys).map (·.1)) = chosen a keys := by
    rw [chosen_alike alike, chosen_chosen describes]
  rcases sortLines_of_parsed describes plain receives parsed' directory with
    ⟨stopped, exceeds⟩ | ⟨out, fine, -⟩
  · refine ⟨.inr stopped, fun confined fits => ?_⟩
    rw [records_map, alike.limit] at exceeds
    obtain ⟨several, full⟩ := exceeds confined
    have fits := fits several
    omega
  · rw [same] at out
    exact ⟨.inl ⟨fine, out⟩, fun _ _ => fine⟩

end Keys

end CommandLine
end ExternalSort
