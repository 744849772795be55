/-
  ExternalSort.Proofs.Run.Sharing

  Many runs in one file.

  Runs are written one after another to a file that may hold something already,
  and some of them are given up or refused by a hook on the way. Every reader of
  a finished run gives the records of that run, while the other readers are
  asked in between and further runs are written. The runs lie behind one another
  in the file.
-/

import Mathlib.Data.List.Forall2
import ExternalSort.Proofs.Manifest
import ExternalSort.Proofs.Run.Writer

namespace ExternalSort

/-! ## Writing when nothing is wrong with the disk -/

/-- The buffer of a file is not full. -/
def Store.Calm (s : Store) (ref : FileRef) : Prop :=
  (s.file ref).pending.size < SpillFile.bufferLimit

namespace RunWriter

variable {ρ : Type} [Storable ρ] {w : RunWriter} {s : Store}

/-- A chunk is cut, or nothing is changed, or the disk failed. -/
theorem cutChunk_calm (known : s.Known w.file) (calm : s.Calm w.file) :
    Leads cutChunk (w, s) (fun _ p => p.2.Calm w.file)
      (fun e p => e.IsDiskFailure ∨ p = (w, s)) := by
  apply cutChunk_of
  · exact fun _ => calm
  · exact fun _ _ => .inr rfl
  · intro head payload _
    -- either of the two writes fails only with the disk
    refine (Store.onFile_leads known (SpillFile.write_calm _ _ head)).mono ?_ fun _ _ h => .inl h.1
    rintro _ t ⟨-, around⟩
    exact (Store.onFile_leads (around.known known) (SpillFile.write_calm _ _ payload)).mono
      (fun _ _ h => h.1) fun _ _ h => .inl h.1

/-- A record stays in the buffer when its chunk is refused. -/
theorem add_calm (known : s.Known w.file) (calm : s.Calm w.file) (x : ρ) :
    Leads (add x) (w, s) (fun _ p => p.2.Calm w.file)
      (fun e p => e.IsDiskFailure ∨ p = (w.take x, s)) := by
  apply add_of
  · exact fun _ => calm
  · exact fun _ => cutChunk_calm (w := w.take x) known calm

theorem finishExtent_calm {base log : ByteArray} {xs : List ρ} (writing : Writing base xs w s log)
    (calm : s.Calm w.file) :
    Leads finishExtent (w, s) (fun _ p => p.2.Calm w.file)
      (fun e p => e.IsDiskFailure ∨ p = (w, s)) := by
  apply finishExtent_of
  refine ((cutChunk_leads writing).and (cutChunk_calm writing.known calm)).mono ?_ fun _ _ h => h.2
  rintro _ ⟨w', t⟩ ⟨⟨rfl, ⟨more, writing'⟩, -⟩, calm'⟩
  refine (Store.onFile_leads writing'.known (SpillFile.currentOffset_calm _ _)).mono ?_
    fun _ _ h => .inl h.1
  rintro stop u ⟨same, -⟩
  show (u.file w.file).pending.size < SpillFile.bufferLimit
  rw [show (u.file w.file).pending = (t.file w.file).pending from same]
  exact calm'

/-- A run ends, or its file is let go, or the disk failed. -/
theorem finish_calm {base log : ByteArray} {xs : List ρ} (writing : Writing base xs w s log)
    (calm : s.Calm w.file) :
    Leads (finish w : SpillM (RunReader ρ)) s (fun _ s' => s'.Calm w.file)
      (fun e s' => e.IsDiskFailure ∨ s' = ((Store.release w.file).run s).2) := by
  apply finish_of
  refine (finishExtent_calm writing calm).mono (fun _ _ calm' => calm') ?_
  rintro e p (failure | rfl)
  · exact .inl failure
  · exact .inr rfl

theorem begin_calm {options : Options} {file : FileRef} (known : s.Known file)
    (calm : s.Calm file) :
    Leads (begin options file) s (fun _ s' => s'.Calm file)
      (fun e s' => e.IsDiskFailure ∨ s' = s) := by
  apply begin_of
  · exact fun _ _ => .inr rfl
  · exact fun _ => .inr rfl
  · refine (Store.onFile_leads known (SpillFile.currentOffset_calm _ _)).mono ?_
      fun _ _ h => .inl h.1
    rintro start t ⟨same, -⟩ u rfl
    have view := congrArg Prod.fst (Store.view_retain file file t)
    show (((Store.retain file).run t).2.file file).pending.size < SpillFile.bufferLimit
    rw [show ((Store.retain file).run t).2.file file = t.file file from view,
      show (t.file file).pending = (s.file file).pending from same]
    exact calm

end RunWriter

/-! ## One file, many runs -/

/-- A call on a shared file: on the writer of a new run, or on the reader of a finished one. -/
inductive FileCall (ρ : Type)
  | begin (options : Options)
  | put (record : ρ)
  | finish
  | abandon
  | next (run : Nat)

/-- What a call on a shared file tells. -/
inductive Answer (ρ : Type)
  | done
  | failed (e : SortError)
  | written (extent : Extent)
  | gave (step : Step ρ)
  /-- There is no writer or reader for the call, or there is a writer already. -/
  | unfit

/-- The error that an answer tells. -/
def Answer.error? {ρ : Type} : Answer ρ → Option SortError
  | .failed e | .gave (some (.error e)) => some e
  | _ => none

/-- The writer of a shared file, if one is at work, and the readers of the finished runs. -/
structure Users (ρ : Type) where
  writer : Option RunWriter := none
  readers : List (RunReader ρ) := []

namespace Users

variable {ρ : Type} [Storable ρ]

/-- Carries out one call. -/
def perform (file : FileRef) (u : Users ρ) : FileCall ρ → StoreM (Answer ρ × Users ρ)
  | .begin options =>
    match u.writer with
    | some _ => return (.unfit, u)
    | none => do
      match ← (RunWriter.begin options file).run with
      | .ok w => return (.done, { u with writer := some w })
      | .error e => return (.failed e, u)
  | .put record =>
    match u.writer with
    | none => return (.unfit, u)
    | some w => do
      match ← (RunWriter.add record).run.run w with
      | (.ok (), w) => return (.done, { u with writer := some w })
      | (.error e, w) => return (.failed e, { u with writer := some w })
  | .finish =>
    match u.writer with
    | none => return (.unfit, u)
    | some w => do
      match ← (w.finish : SpillM (RunReader ρ)).run with
      | .ok r => return (.written r.extent, { writer := none, readers := u.readers ++ [r] })
      | .error e => return (.failed e, { u with writer := none })
  | .abandon =>
    match u.writer with
    | none => return (.unfit, u)
    | some w => do
      w.release
      return (.done, { u with writer := none })
  | .next run =>
    match u.readers[run]? with
    | none => return (.unfit, u)
    | some r => do
      let (step, r) ← r.next
      return (.gave step, { u with readers := u.readers.set run r })

/-- Carries out calls, and tells what each of them answered. -/
def performAll (file : FileRef) :
    Users ρ → List (FileCall ρ) → StoreM (List (FileCall ρ × Answer ρ) × Users ρ)
  | u, [] => return ([], u)
  | u, call :: rest => do
    let (answer, u) ← u.perform file call
    let (answers, u) ← performAll file u rest
    return ((call, answer) :: answers, u)

/-- Calls on a file at a path, where something may stand already. -/
def share (path : Path) (calls : List (FileCall ρ)) :
    StoreM (List (FileCall ρ × Answer ρ) × Users ρ) := do
  let file ← Store.register path
  performAll file {} calls

end Users

/-! ## What calls and answers amount to -/

/-- A finished run: its extent, the records put into it, and what its reader gave. -/
structure Written (ρ : Type) where
  extent : Extent
  records : List ρ
  given : List (Step ρ) := []

/-- One more answer of the reader. -/
def Written.hear {ρ : Type} (step : Step ρ) (run : Written ρ) : Written ρ :=
  { run with given := run.given ++ [step] }

/-- What is known about the runs of a file from the calls and their answers. -/
structure Ledger (ρ : Type) where
  /-- The records put into the run that is being written. -/
  pending : List ρ := []
  runs : List (Written ρ) := []

namespace Ledger

variable {ρ : Type}

/-- One call and its answer. A record that is refused stays in the buffer of its writer, and
    belongs to the run if that is finished after all. -/
def note (l : Ledger ρ) : FileCall ρ × Answer ρ → Ledger ρ
  | (.begin _, .done) => { l with pending := [] }
  | (.put x, .done) | (.put x, .failed _) => { l with pending := l.pending ++ [x] }
  | (.finish, .written extent) => { l with runs := l.runs ++ [⟨extent, l.pending, []⟩] }
  | (.next run, .gave step) => { l with runs := l.runs.modify run (·.hear step) }
  | _ => l

/-- The runs that were finished, first to last. -/
def written (answers : List (FileCall ρ × Answer ρ)) : List (Written ρ) :=
  (answers.foldl note {}).runs

end Ledger

/-! ## The runs and their readers -/

section Sound

variable {ρ : Type} [Storable ρ] {file : FileRef} {base log : ByteArray}

/-- What a reader gave are the first records of its run, and what it will give are the others. -/
structure Serves (file : FileRef) (log : ByteArray) (run : Written ρ) (r : RunReader ρ) : Prop where
  gave : ∀ (k : Nat) (step : Step ρ), run.given[k]? = some step → step = run.records[k]?.map .ok
  gives : RunReader.Gives file log r (run.records.drop run.given.length)

theorem Serves.grow {run : Written ρ} {r : RunReader ρ} (h : Serves file log run r)
    (bytes : ByteArray) : Serves file (log ++ bytes) run r :=
  ⟨h.gave, h.gives.grow bytes⟩

theorem Serves.hear {run : Written ρ} {r r' : RunReader ρ} (h : Serves file log run r)
    (gives : RunReader.Gives file log r' (run.records.drop run.given.length).tail) :
    Serves file log (run.hear ((run.records.drop run.given.length).head?.map .ok)) r' := by
  refine ⟨fun k step hk => ?_, ?_⟩
  · rw [Written.hear] at hk
    -- what it gave before, the new answer, and nothing behind that
    rcases Nat.lt_trichotomy k run.given.length with lt | rfl | gt
    · rw [List.getElem?_append_left lt] at hk
      exact h.gave k step hk
    · rw [List.getElem?_concat_length, List.head?_drop] at hk
      exact (Option.some.inj hk).symm
    · rw [List.getElem?_eq_none (by rw [List.length_append]; exact gt)] at hk
      cases hk
  · rw [Written.hear, List.length_append, List.length_singleton]
    rwa [List.tail_drop] at gives

/-- When the disk does not fail, a reader gives the next record of its run. -/
theorem Serves.next [TakesSpace ρ] [LawfulStorable ρ] {run : Written ρ} {r r' : RunReader ρ}
    {s s' : Store} {step : Step ρ} (h : Serves file log run r) (carries : s.Carries file log)
    (hnext : r.next.run s = ((step, r'), s'))
    (disk : ∀ e, step = some (.error e) → ¬ e.IsDiskFailure) :
    Serves file log (run.hear step) r' ∧ s.Beside file s' ∧ (s' = s ∨ s'.Ready file log) := by
  rcases RunReader.next_eq h.gives carries with
    ⟨r'', t, hnext', gives, beside, rest⟩ | ⟨e, r'', t, hnext', failure, -⟩
  · cases hnext.symm.trans hnext'
    exact ⟨h.hear gives, beside, rest.imp And.left id⟩
  · cases hnext.symm.trans hnext'
    exact absurd failure (disk e rfl)

omit [Storable ρ] in
theorem extents_modify {f : Written ρ → Written ρ} (hf : ∀ run, (f run).extent = run.extent)
    (runs : List (Written ρ)) (i : Nat) :
    (runs.modify i f).map (·.extent) = runs.map (·.extent) := by
  induction runs generalizing i with
  | nil => cases i <;> rfl
  | cons run runs ih =>
    cases i with
    | zero => exact congrArg (· :: runs.map (·.extent)) (hf run)
    | succ i => exact congrArg (run.extent :: ·) (ih i)

/-- A relation between elements still holds after both lists changed at one place. -/
theorem forall₂_modify_set {α β : Type} {R : α → β → Prop} {as : List α} {bs : List β}
    (h : List.Forall₂ R as bs) {i : Nat} {b b' : β} (hb : bs[i]? = some b) {f : α → α}
    (hf : ∀ a, R a b → R (f a) b') : List.Forall₂ R (as.modify i f) (bs.set i b') := by
  induction h generalizing i with
  | nil => cases hb
  | cons head tail ih =>
    cases i with
    | zero =>
      obtain rfl := Option.some.inj hb
      exact .cons (hf _ head) tail
    | succ i => exact .cons head (ih hb)

/-- Every finished run has its reader, and the runs lie behind one another, below `base`. -/
structure Sound (file : FileRef) (base log : ByteArray) (runs : List (Written ρ))
    (readers : List (RunReader ρ)) : Prop where
  serves : List.Forall₂ (Serves file log) runs readers
  lined : Extent.Lined base.size (runs.map (·.extent))

namespace Sound

variable {runs : List (Written ρ)} {readers : List (RunReader ρ)}

theorem nil (file : FileRef) (base log : ByteArray) :
    Sound file base log ([] : List (Written ρ)) [] :=
  ⟨.nil, .nil _⟩

theorem grow (h : Sound file base log runs readers) (bytes : ByteArray) :
    Sound file base (log ++ bytes) runs readers :=
  ⟨h.serves.imp fun _ _ serves => serves.grow bytes, h.lined⟩

theorem raise (h : Sound file base log runs readers) {base' : ByteArray}
    (le : base.size ≤ base'.size) : Sound file base' log runs readers :=
  ⟨h.serves, h.lined.raise le⟩

/-- One more run. -/
theorem concat (h : Sound file base log runs readers) {run : Written ρ} {r : RunReader ρ}
    (serves : Serves file log run r) (start : run.extent.start.toNat = base.size)
    (stop : run.extent.stop.toNat = log.size) (le : base.size ≤ log.size) :
    Sound file log log (runs ++ [run]) (readers ++ [r]) := by
  refine ⟨List.rel_append h.serves (.cons serves .nil), ?_⟩
  rw [List.map_append]
  exact h.lined.concat start stop le

/-- One more record from a reader. -/
theorem next (h : Sound file base log runs readers) {i : Nat} {step : Step ρ}
    {r r' : RunReader ρ} (hr : readers[i]? = some r)
    (serves : ∀ run, Serves file log run r → Serves file log (run.hear step) r') :
    Sound file base log (runs.modify i (·.hear step)) (readers.set i r') := by
  refine ⟨forall₂_modify_set h.serves hr serves, ?_⟩
  rw [extents_modify (f := Written.hear step) fun _ => rfl]
  exact h.lined

end Sound
end Sound

/-! ## Steps -/

namespace Users

variable {ρ : Type} [Storable ρ] {file : FileRef} {u : Users ρ} {l : Ledger ρ} {s : Store}

/-- A file in use that is not full. It goes away once it is let go, but its users still have it. -/
structure Quiet (file : FileRef) (s : Store) : Prop where
  known : s.Known file
  gone : (s.file file).kept = false
  calm : s.Calm file

/-- What holds between calls on a shared file: it was not opened yet, or its log has the finished
    runs and the one in the making. -/
inductive InUse (file : FileRef) (u : Users ρ) (l : Ledger ρ) (s : Store) : Prop
  | unused (quiet : Quiet file s) (unopened : (s.file file).Unopened) (nobody : u = {})
      (nothing : l.runs = [])
  | used {base log : ByteArray} (quiet : Quiet file s)
      (isOpen : ∃ h, (s.file file).IsOpen s.disk h log) (le : base.size ≤ log.size)
      (sound : Sound file base log l.runs u.readers)
      (writing : ∀ w, u.writer = some w → w.file = file ∧ RunWriter.Writing base l.pending w s log)

theorem Quiet.of_beside {s' : Store} (h : Quiet file s) (beside : s.Beside file s')
    (calm : s'.Calm file) : Quiet file s' :=
  ⟨beside.known h.known, beside.frame.kept.trans h.gone, calm⟩

/-- Letting go of a file leaves it in use. -/
theorem Quiet.release (h : Quiet file s) : Quiet file ((Store.release file).run s).2 := by
  obtain ⟨same, -⟩ := Store.release_of_not_kept h.known h.gone
  refine ⟨(Store.around_release h.known).known h.known, by rw [same]; exact h.gone, ?_⟩
  rw [Store.Calm, same]
  exact h.calm

theorem Quiet.isOpen_release (h : Quiet file s) {handle : Handle} {log : ByteArray}
    (isOpen : (s.file file).IsOpen s.disk handle log) :
    (((Store.release file).run s).2.file file).IsOpen ((Store.release file).run s).2.disk handle
      log := by
  obtain ⟨same, contents⟩ := Store.release_of_not_kept h.known h.gone
  rw [same]
  exact isOpen.of_contents contents

/-- The log of a file that is not full can be measured. -/
theorem Quiet.size_lt (h : Quiet file s) {handle : Handle} {log : ByteArray}
    (isOpen : (s.file file).IsOpen s.disk handle log) : log.size < UInt64.size := by
  have size := isOpen.size_lt
  have calm := h.calm
  rw [Store.Calm] at calm
  exact Nat.lt_trans size (Nat.lt_trans (Nat.add_lt_add_left calm _) (by decide))

theorem InUse.quiet (h : InUse file u l s) : Quiet file s := by
  cases h with
  | unused quiet => exact quiet
  | used quiet => exact quiet

theorem InUse.usable (h : InUse file u l s) : (s.file file).Usable s.disk := by
  cases h with
  | unused _ unopened => exact .inl unopened
  | used _ isOpen => exact .inr (isOpen.imp fun _ isOpen => ⟨_, isOpen⟩)

/-- What is in the file does not matter before it is opened. -/
theorem InUse.sound (h : InUse file u l s) {log : ByteArray}
    (same : ∀ known, (s.file file).Holds s.disk known → log = known) :
    Sound file log log l.runs u.readers := by
  cases h with
  | unused _ _ nobody nothing =>
    rw [nobody, nothing]
    exact .nil file log log
  | used _ isOpen le sound =>
    obtain ⟨handle, isOpen⟩ := isOpen
    obtain rfl := same _ (.opened isOpen)
    exact sound.raise le

theorem InUse.begin {options : Options} (h : InUse file u l s)
    (faithful : FaithfulHook options.activeProtector) :
    Leads (RunWriter.begin options file) s
      (fun w s' => InUse file { u with writer := some w } { l with pending := [] } s')
      (fun e s' => e.IsDiskFailure ∨ s' = s) := by
  refine ((RunWriter.begin_leads ρ faithful h.quiet.known h.usable).and
    (RunWriter.begin_calm h.quiet.known h.quiet.calm)).mono ?_ fun _ _ h => h.2
  rintro w s' ⟨⟨⟨named, -⟩, ⟨base, writing, same⟩, beside⟩, calm⟩
  have isOpen := writing.isOpen
  rw [named] at isOpen
  refine .used (h.quiet.of_beside beside calm) isOpen (Nat.le_refl _) (h.sound same) ?_
  rintro _ ⟨rfl⟩
  exact ⟨named, writing⟩

/-- While a run is written, the file is open. -/
theorem InUse.writing (h : InUse file u l s) {w : RunWriter} (hw : u.writer = some w) :
    ∃ base log, w.file = file ∧ RunWriter.Writing base l.pending w s log ∧ base.size ≤ log.size ∧
      Sound file base log l.runs u.readers := by
  cases h with
  | unused _ _ nobody =>
    rw [nobody] at hw
    cases hw
  | used _ _ le sound writing => exact ⟨_, _, (writing w hw).1, (writing w hw).2, le, sound⟩

theorem InUse.put (h : InUse file u l s) {w : RunWriter} (hw : u.writer = some w) (x : ρ) :
    Leads (RunWriter.add x) (w, s)
      (fun _ p => InUse file { u with writer := some p.1 } { l with pending := l.pending ++ [x] } p.2)
      (fun e p => e.IsDiskFailure ∨
        InUse file { u with writer := some p.1 } { l with pending := l.pending ++ [x] } p.2) := by
  obtain ⟨base, log, rfl, writing, le, sound⟩ := h.writing hw
  refine ((RunWriter.add_leads writing x).and
    (RunWriter.add_calm writing.known h.quiet.calm x)).mono ?_ ?_
  · rintro _ ⟨w', s'⟩ ⟨⟨⟨buffer, checksum, rfl⟩, ⟨more, writing'⟩, beside⟩, calm⟩
    refine .used (h.quiet.of_beside beside calm) writing'.isOpen ?_ (sound.grow more) ?_
    · rw [ByteArray.size_append]
      exact Nat.le_add_right_of_le le
    · rintro _ ⟨rfl⟩
      exact ⟨rfl, writing'⟩
  · rintro e ⟨w', s'⟩ ⟨-, failure | same⟩
    · exact .inl failure
    · obtain ⟨rfl, rfl⟩ := Prod.mk.inj same
      refine .inr (.used h.quiet writing.isOpen le sound ?_)
      rintro _ ⟨rfl⟩
      exact ⟨rfl, writing.take x⟩

/-- A writer that is given up leaves the finished runs. -/
theorem InUse.release (h : InUse file u l s) {w : RunWriter} (hw : u.writer = some w) :
    InUse file { u with writer := none } l ((Store.release w.file).run s).2 := by
  obtain ⟨base, log, rfl, writing, le, sound⟩ := h.writing hw
  obtain ⟨handle, isOpen⟩ := writing.isOpen
  refine .used h.quiet.release ⟨handle, h.quiet.isOpen_release isOpen⟩ le sound ?_
  rintro _ ⟨⟩

theorem InUse.finish [TakesSpace ρ] (h : InUse file u l s) {w : RunWriter}
    (hw : u.writer = some w) :
    Leads (w.finish : SpillM (RunReader ρ)) s
      (fun r s' => InUse file { writer := none, readers := u.readers ++ [r] }
        { l with runs := l.runs ++ [⟨r.extent, l.pending, []⟩] } s')
      (fun e s' => e.IsDiskFailure ∨ InUse file { u with writer := none } l s') := by
  have released := h.release hw
  obtain ⟨base, log, rfl, writing, le, sound⟩ := h.writing hw
  refine ((RunWriter.finish_leads writing (TakesSpace.forall_mem _)).and (RunWriter.finish_calm writing h.quiet.calm)).mono
    ?_ ?_
  · rintro r s' ⟨⟨⟨⟨path, extent, reader⟩, handle, more, isOpen, runAt, spans⟩,
      ⟨_, more', isOpen'⟩, -, beside⟩, calm⟩
    have quiet := h.quiet.of_beside beside calm
    -- both say what the file has now, so the run is where the readers will look for it
    have grown : base ++ more = log ++ more' := SpillFile.Holds.eq_of_isOpen isOpen (.opened isOpen')
    have small := quiet.size_lt isOpen
    have before : base.size ≤ (base ++ more).size := runAt.le
    have start : r.extent.start.toNat = base.size := by
      rw [spans.start, UInt64.toNat_ofNat', Nat.mod_eq_of_lt (Nat.lt_of_le_of_lt before small)]
    have stop : r.extent.stop.toNat = (base ++ more).size := by
      rw [spans.stop, UInt64.toNat_ofNat', Nat.mod_eq_of_lt small]
    have sound' := sound.grow more'
    rw [← grown] at sound'
    rw [← start, ← stop] at runAt
    have gives := runAt.gives w.file path
    rw [reader] at gives
    refine .used quiet ⟨handle, isOpen⟩ (Nat.le_refl _)
      (sound'.concat ⟨by simp, ?_⟩ start stop before) ?_
    · rw [reader]
      exact gives
    · rintro _ ⟨⟩
  · rintro e s' ⟨-, failure | rfl⟩
    · exact .inl failure
    · exact .inr released

theorem InUse.next [TakesSpace ρ] [LawfulStorable ρ] (h : InUse file u l s) {i : Nat}
    {r r' : RunReader ρ} (hr : u.readers[i]? = some r) {step : Step ρ} {s' : Store}
    (hnext : r.next.run s = ((step, r'), s'))
    (disk : ∀ e, step = some (.error e) → ¬ e.IsDiskFailure) :
    InUse file { u with readers := u.readers.set i r' }
      { l with runs := l.runs.modify i (·.hear step) } s' := by
  cases h with
  | unused _ _ nobody =>
    rw [nobody] at hr
    cases hr
  | @used base log quiet isOpen le sound writing =>
    obtain ⟨handle, isOpen⟩ := isOpen
    obtain ⟨inside, rfl⟩ := List.getElem?_eq_some_iff.mp hr
    have carries : s.Carries file log := ⟨quiet.known, .opened isOpen⟩
    have serves := sound.serves.get (sound.serves.length_eq ▸ inside) inside
    obtain ⟨-, beside, same⟩ := serves.next carries hnext disk
    -- asking a reader may put the file on disk, and does nothing else to it
    have isOpen' : ∃ handle, (s'.file file).IsOpen s'.disk handle log := by
      rcases same with rfl | ready
      · exact ⟨handle, isOpen⟩
      · exact ready.flushed.isOpen
    have calm : s'.Calm file := by
      rcases same with rfl | ready
      · exact quiet.calm
      · rw [Store.Calm, ready.flushed.pending]
        exact (by decide : 0 < SpillFile.bufferLimit)
    refine .used (quiet.of_beside beside calm) isOpen' le
      (sound.next hr fun run serves => (serves.next carries hnext disk).1) fun w hw => ?_
    obtain ⟨named, making⟩ := writing w hw
    subst named
    exact ⟨rfl, making.of_isOpen (beside.known quiet.known) isOpen'⟩

/-- One call keeps the finished runs and the one in the making, when the disk does not fail. -/
theorem InUse.perform [TakesSpace ρ] [LawfulStorable ρ] (h : InUse file u l s) {call : FileCall ρ}
    (faithful : ∀ options, call = .begin options → FaithfulHook options.activeProtector)
    {answer : Answer ρ} {u' : Users ρ} {s' : Store}
    (hcall : (u.perform file call).run s = ((answer, u'), s'))
    (disk : ∀ e ∈ answer.error?, ¬ e.IsDiskFailure) : InUse file u' (l.note (call, answer)) s' := by
  -- a call that does not fit the users leaves everything as it is; each other one has its step lemma
  cases call with
  | begin options =>
    rw [Users.perform] at hcall
    split at hcall
    · cases hcall
      exact h
    · rcases (h.begin (faithful options rfl)).outcome with
        ⟨w, t, hrun, begun⟩ | ⟨e, t, hrun, failed⟩ <;>
        cases hcall.symm.trans (run_bind_of_run hrun)
      · exact begun
      · obtain rfl := failed.resolve_left (disk e rfl)
        exact h
  | put x =>
    rw [Users.perform] at hcall
    split at hcall
    · cases hcall
      exact h
    · rename_i w hw
      rcases (h.put hw x).outcome with ⟨_, ⟨w', t⟩, hrun, put⟩ | ⟨e, ⟨w', t⟩, hrun, failed⟩ <;>
        cases hcall.symm.trans (run_bind_of_run (Leads.run_run_run hrun))
      · exact put
      · exact failed.resolve_left (disk e rfl)
  | finish =>
    rw [Users.perform] at hcall
    split at hcall
    · cases hcall
      exact h
    · rename_i w hw
      rcases (h.finish hw).outcome with ⟨r, t, hrun, finished⟩ | ⟨e, t, hrun, failed⟩ <;>
        cases hcall.symm.trans (run_bind_of_run hrun)
      · exact finished
      · exact failed.resolve_left (disk e rfl)
  | abandon =>
    rw [Users.perform] at hcall
    split at hcall
    · cases hcall
      exact h
    · rename_i w hw
      cases hcall
      exact h.release hw
  | next i =>
    rw [Users.perform] at hcall
    split at hcall
    · cases hcall
      exact h
    · rename_i r hr
      rcases hnext : r.next.run s with ⟨⟨step, r'⟩, t⟩
      cases hcall.symm.trans (run_bind_of_run hnext)
      exact h.next hr hnext fun e he => disk e (by rw [he]; rfl)

/-- Any number of calls keep the finished runs. -/
theorem InUse.performAll [TakesSpace ρ] [LawfulStorable ρ] (h : InUse file u l s)
    {calls : List (FileCall ρ)}
    (faithful : ∀ options, .begin options ∈ calls → FaithfulHook options.activeProtector)
    {answers : List (FileCall ρ × Answer ρ)} {u' : Users ρ} {s' : Store}
    (hcalls : (performAll file u calls).run s = ((answers, u'), s'))
    (disk : ∀ p ∈ answers, ∀ e ∈ p.2.error?, ¬ e.IsDiskFailure) :
    InUse file u' (answers.foldl Ledger.note l) s' := by
  -- by induction on the calls, with the ledger so far
  induction calls generalizing u l s answers with
  | nil =>
    cases hcalls
    exact h
  | cons call rest ih =>
    rcases hcall : (u.perform file call).run s with ⟨⟨answer, u₁⟩, s₁⟩
    rcases hrest : (Users.performAll file u₁ rest).run s₁ with ⟨⟨answers', u₂⟩, s₂⟩
    have both : (Users.performAll file u (call :: rest)).run s
        = (((call, answer) :: answers', u₂), s₂) :=
      (run_bind_of_run hcall).trans (run_bind_of_run hrest)
    cases hcalls.symm.trans both
    obtain ⟨first, others⟩ := List.forall_mem_cons.mp disk
    have kept := h.perform
      (fun options same => faithful options (by rw [same]; exact List.mem_cons_self)) hcall first
    exact ih kept (fun options hmem => faithful options (List.mem_cons_of_mem _ hmem)) hrest others

/-- A new file was not opened, and is not full. -/
theorem inUse_register (path : Path) (s : Store) :
    InUse ((Store.register path).run s).1 ({} : Users ρ) {} ((Store.register path).run s).2 := by
  obtain ⟨known, fresh⟩ := Store.register_run path s
  refine .unused ⟨known, by rw [fresh], ?_⟩ (by rw [fresh]; exact ⟨rfl, rfl⟩) rfl rfl
  rw [Store.Calm, fresh]
  exact (by decide : 0 < SpillFile.bufferLimit)

theorem InUse.told (h : InUse file u l s) :
    ∃ base log, Sound file base log l.runs u.readers := by
  cases h with
  | unused _ _ nobody nothing =>
    rw [nobody, nothing]
    exact ⟨.empty, .empty, .nil _ _ _⟩
  | used _ _ _ sound => exact ⟨_, _, sound⟩

/-- Whatever else is done with a file, the reader of a finished run gives the records that were put
    into that run, and then nothing; and the runs lie behind one another. -/
theorem gives_records_of_shared {key value : Kind} (kinds : ¬ (key = .null ∧ value = .null))
    {path : Path} {calls : List (FileCall (Record key value))}
    (faithful : ∀ options, .begin options ∈ calls → FaithfulHook options.activeProtector)
    {s s' : Store} {answers : List (FileCall (Record key value) × Answer (Record key value))}
    {u : Users (Record key value)} (h : (share path calls).run s = ((answers, u), s'))
    (disk : ∀ p ∈ answers, ∀ e ∈ p.2.error?, ¬ e.IsDiskFailure) :
    (∀ run ∈ Ledger.written answers, ∀ (k : Nat) (step : Step (Record key value)),
      run.given[k]? = some step → step = run.records[k]?.map .ok) ∧
    ((Ledger.written answers).Pairwise fun earlier later =>
      earlier.extent.stop ≤ later.extent.start) ∧
    ∀ run ∈ Ledger.written answers, run.extent.start ≤ run.extent.stop := by
  have space := Record.takesSpace kinds
  obtain ⟨_, _, serves, lined⟩ := ((inUse_register path s).performAll faithful h disk).told
  have gave := serves.imp fun run r (serves : Serves _ _ run r) => And.intro serves.gave serves
  exact ⟨((List.forall₂_and_left _ _).mp gave).1, List.pairwise_map.mp lined.apart,
    List.forall_mem_map.mp lined.upright⟩

/-- A hook that adds a mark, and does not seal much at once. -/
def sealing : Protector where
  growth := 1
  protect bytes _ := if bytes.size < 8 then .ok (bytes ++ ⟨#[0]⟩) else .error "too much"
  unprotect bytes _ := .ok (bytes.extract 0 (bytes.size - 1))

theorem faithful_sealing : sealing.Faithful where
  unprotect_protect database input output h := by
    simp only [sealing] at h ⊢
    split at h
    · obtain rfl := Except.ok.inj h
      have front := ((StandsAt.self input).append ⟨#[0]⟩).extract_eq
      rw [Nat.zero_add] at front
      rw [ByteArray.size_append, show (ByteArray.mk #[0]).size = 1 from rfl, Nat.add_sub_cancel, front]
    · cases h
  nonempty database input output h pos := by
    simp only [sealing] at h
    split at h
    · obtain rfl := Except.ok.inj h
      rw [ByteArray.size_append]
      exact Nat.lt_of_lt_of_le pos (Nat.le_add_right _ _)
    · cases h

/-- Options for runs that are sealed. -/
def sealed : Options :=
  { spillAllowed := true, spillDirectory := some ⟨"/runs"⟩, protector := some sealing }

/-- Three runs, the second of which is refused. -/
def threeRuns : List (FileCall (Record .int32 .null)) :=
  [.begin sealed, .put (1, ()), .finish, .begin sealed, .put (2, ()), .put (3, ()), .finish,
    .begin sealed, .put (4, ()), .next 0, .finish, .next 1, .next 0, .next 1]

/-- A store with a file that has bytes in it already. -/
def begun : Store := ((share ⟨"/runs/f"⟩ threeRuns).run {}).2

theorem gives_records_of_threeRuns :
    ∃ answers u s', (share ⟨"/runs/f"⟩ threeRuns).run begun = ((answers, u), s') ∧
      (∀ options, .begin options ∈ threeRuns → FaithfulHook options.activeProtector) ∧
      (∀ p ∈ answers, ∀ e ∈ p.2.error?, ¬ e.IsDiskFailure) ∧
      (Ledger.written answers).map (·.given.length) = [2, 2] ∧
      (∀ run ∈ Ledger.written answers, ∀ (k : Nat) (step : Step (Record .int32 .null)),
        run.given[k]? = some step → step = run.records[k]?.map .ok) ∧
      ((Ledger.written answers).Pairwise fun earlier later =>
        earlier.extent.stop ≤ later.extent.start) ∧
      ∀ run ∈ Ledger.written answers, run.extent.start ≤ run.extent.stop := by
  have succeeds : (∀ p ∈ ((share ⟨"/runs/f"⟩ threeRuns).run begun).1.1,
      ∀ e ∈ p.2.error?, ¬ e.IsDiskFailure) ∧
      (Ledger.written ((share ⟨"/runs/f"⟩ threeRuns).run begun).1.1).map (·.given.length) = [2, 2] := by
    decide +kernel
  rcases h : (share ⟨"/runs/f"⟩ threeRuns).run begun with ⟨⟨answers, u⟩, s'⟩
  rw [h] at succeeds
  obtain ⟨disk, given⟩ := succeeds
  have faithful : ∀ options, .begin options ∈ threeRuns →
      FaithfulHook options.activeProtector := by
    intro options hmem
    obtain rfl : options = sealed := by simpa [threeRuns] using hmem
    intro p hp
    obtain rfl : sealing = p := Option.some.inj hp
    exact faithful_sealing
  exact ⟨answers, u, s', rfl, faithful, disk, given,
    gives_records_of_shared (by decide) faithful h disk⟩

end Users
end ExternalSort
