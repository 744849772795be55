/-
  ExternalSort.Proofs.Run.Writer

  Writing a run puts its records into the log.

  While a run is written, the records in its chunks and those in the buffer are
  the records taken so far, and the chunks stand in the log from where the run
  began to the end.
-/

import ExternalSort.Proofs.Run.Reader
import ExternalSort.Run.Writer

namespace ExternalSort

open Storable (encode)

namespace Leads

variable {α : Type} {op : SpillM α} {p : RunWriter × Store}
  {ok : α → RunWriter × Store → Prop} {err : SortError → RunWriter × Store → Prop}

theorem of_writerSpill (h : Leads op p.2 (fun a s => ok a (p.1, s)) fun e s => err e (p.1, s)) :
    Leads (RunWriter.spill op) p ok err := by
  rw [RunWriter.spill]
  exact of_outer_result (h.mono (fun _ _ h => of_pure h) fun _ _ h => of_throw₂ h)

end Leads

namespace Store

/-- A file is open with a log that begins with `base`, or its last write was cut short. -/
def Continues (s : Store) (ref : FileRef) (base : ByteArray) : Prop :=
  s.Known ref ∧ ((∃ h more, (s.file ref).IsOpen s.disk h (base ++ more)) ∨ (s.file ref).Cut s.disk)

theorem Continues.release {s : Store} {ref : FileRef} {base : ByteArray}
    (h : s.Continues ref base) : ((release ref).run s).2.Continues ref base := by
  obtain ⟨known, rest⟩ := h
  obtain ⟨t, same, around, run⟩ := release_run known
  obtain ⟨file, disk⟩ := Prod.mk.inj same
  rcases run with run | run <;> rw [run]
  · refine ⟨around.known known, ?_⟩
    rw [file, disk]
    exact rest
  · refine ⟨around.known known, ?_⟩
    show (∃ h more, (t.file ref).IsOpen _ h (base ++ more)) ∨ (t.file ref).Cut _
    rw [file]
    -- closing a file that is kept writes out the buffer, or a part of it
    rcases rest with ⟨h, more, isOpen⟩ | ⟨h, handle, knownHandle, short⟩
    · obtain ⟨knownHandle, part, grown⟩ := SpillFile.close_grows isOpen.handle isOpen.known
      by_cases hpart : part.size = 0
      · rw [ByteArray.size_eq_zero_iff.mp hpart, ByteArray.append_empty] at grown
        refine .inl ⟨h, more, isOpen.handle, knownHandle, ?_, isOpen.offset⟩
        rw [grown]
        exact isOpen.bytes
      · refine .inr ⟨h, isOpen.handle, knownHandle, ?_⟩
        rw [grown, isOpen.offset, ← isOpen.bytes]
        simp only [ByteArray.size_append]
        omega
    · obtain ⟨knownHandle, part, grown⟩ := SpillFile.close_grows handle knownHandle
      refine .inr ⟨h, handle, knownHandle, ?_⟩
      rw [grown]
      simp only [ByteArray.size_append] at short ⊢
      omega

/-- Writing to an open file. -/
theorem write_leads {s : Store} {ref : FileRef} {h : Handle} {base more : ByteArray}
    (known : s.Known ref) (isOpen : (s.file ref).IsOpen s.disk h (base ++ more))
    (data : ByteArray) :
    Leads (onFile ref (SpillFile.write data)) s
      (fun _ s' => (s'.file ref).IsOpen s'.disk h (base ++ (more ++ data)) ∧
        (base ++ (more ++ data)).size < UInt64.size ∧ s.Beside ref s')
      (fun _ s' => s'.Continues ref base ∧ s.Beside ref s') := by
  refine (onFile_leads known (SpillFile.write_leads isOpen data)).mono ?_ ?_
  · rintro _ s' ⟨⟨isOpen', -, small, frame⟩, around⟩
    rw [ByteArray.append_assoc] at isOpen' small
    exact ⟨isOpen', small, around, frame⟩
  · rintro _ s' ⟨⟨rest, frame⟩, around⟩
    rw [ByteArray.append_assoc] at rest
    exact ⟨⟨around.known known, rest.imp (fun isOpen' => ⟨h, _, isOpen'⟩) id⟩, around, frame⟩

end Store

namespace RunWriter

/-! ## A rule for each operation

What an operation leads to follows from what its parts lead to. Everything that is said of writers
enters here. -/

section Rules

variable {ρ : Type} {w : RunWriter} {s : Store} {err : SortError → RunWriter × Store → Prop}

/-- A chunk that is cut is written in two pieces, unless there is nothing to write or the hook
    refuses it. -/
theorem cutChunk_of {ok : Unit → RunWriter × Store → Prop}
    (nothing : w.buffer = .empty → ok () (w, s))
    (refused : ∀ e, Chunk.encode w.protector w.database w.path w.buffer = .error e → err e (w, s))
    (written : ∀ head payload,
      Chunk.encode w.protector w.database w.path w.buffer = .ok (head, payload) →
      Leads (Store.onFile w.file (SpillFile.write head)) s
        (fun _ t => Leads (Store.onFile w.file (SpillFile.write payload)) t
          (fun _ u => ok () ({ w with buffer := .empty }, u)) fun e u => err e (w, u))
        fun e t => err e (w, t)) :
    Leads cutChunk (w, s) ok err := by
  rw [cutChunk]
  refine Leads.bind (Leads.of_get₂ ?_)
  dsimp only
  split
  case isTrue hempty =>
    exact Leads.of_pure (nothing (ByteArray.size_eq_zero_iff.mp (by
      simpa [ByteArray.isEmpty] using hempty)))
  case isFalse =>
    refine Leads.bind (Leads.of_lift₂ ?_ refused)
    rintro ⟨head, payload⟩ encoded
    refine Leads.bind (Leads.of_writerSpill ((written head payload encoded).mono ?_ fun _ _ h => h))
    intro _ t rest
    refine Leads.bind (Leads.of_writerSpill (rest.mono ?_ fun _ _ h => h))
    exact fun _ u last => Leads.of_set₂ last

/-- The extent of a run is told once its last chunk is cut and the file says where it ends. -/
theorem finishExtent_of {ok : Extent → RunWriter × Store → Prop}
    (cut : Leads cutChunk (w, s)
      (fun _ p => Leads (Store.onFile p.1.file SpillFile.currentOffset) p.2
        (fun stop u => ok ⟨UInt64.ofNat p.1.start, UInt64.ofNat stop, p.1.checksum.value⟩ (p.1, u))
        fun e u => err e (p.1, u))
      err) :
    Leads finishExtent (w, s) ok err := by
  rw [finishExtent]
  refine Leads.bind (cut.mono ?_ fun _ _ h => h)
  intro _ p asked
  refine Leads.bind (Leads.of_get₂ (Leads.bind (Leads.of_writerSpill ?_)))
  exact asked.mono (fun _ _ h => Leads.of_pure h) fun _ _ h => h

/-- A writer turns into a reader of its extent, or lets go of the file. -/
theorem finish_of {ok : RunReader ρ → Store → Prop} {err : SortError → Store → Prop}
    (ended : Leads finishExtent (w, s)
      (fun extent p =>
        ok (.ofExtent p.1.file p.1.path extent p.1.protector p.1.database) p.2)
      fun e p => err e (p.1.release.run p.2).2) :
    Leads (finish w) s ok err := by
  rw [finish]
  refine Leads.bind (Leads.of_state ?_)
  -- the writer is run to its end apart from the store, so its outcome is split here
  rcases ended.outcome with ⟨extent, ⟨w', t⟩, hrun, post⟩ | ⟨e, ⟨w', t⟩, hrun, post⟩ <;>
    rw [Leads.run_run_run hrun]
  · exact Leads.of_pure post
  · exact Leads.bind (Leads.of_state (Leads.of_throw post))

/-- A run begins where its file ends, which the writer then holds. -/
theorem begin_of {options : Options} {file : FileRef} {ok : RunWriter → Store → Prop}
    {err : SortError → Store → Prop}
    (refused : ∀ e, options.checkPermitted s.spillForbidden = .error e → err e s)
    (homeless : options.hasSpillDirectory = false → err (.configuration .noSpillDirectory) s)
    (asked : Leads (Store.onFile file SpillFile.currentOffset) s
      (fun start t => ∀ u, ((Store.retain file).run t).2 = u →
        ok { file, start, path := (u.file file).path, protector := options.activeProtector,
             database := options.database } u)
      err) :
    Leads (begin options file) s ok err := by
  rw [begin]
  refine Leads.bind (Leads.of_get (Leads.bind (Leads.of_lift (fun _ _ => ?_) refused)))
  dsimp only
  split
  case isTrue none => exact Leads.bind (Leads.of_throw (homeless (by simpa using none)))
  case isFalse =>
    refine Leads.bind (asked.mono ?_ fun _ _ h => h)
    exact fun _ t h => Leads.bind (Leads.of_state (Leads.bind (Leads.of_get (Leads.of_pure
      (h _ rfl)))))

variable [Storable ρ]

/-- A writer with one record more in its buffer. -/
def take (w : RunWriter) (x : ρ) : RunWriter :=
  { w with buffer := w.buffer ++ encode x, checksum := w.checksum.update (encode x) }

/-- A record goes to the buffer, which is cut into a chunk if it gets too long. -/
theorem add_of {x : ρ} {ok : Unit → RunWriter × Store → Prop}
    (stays : (w.take x).buffer.size ≤ chunkThreshold → ok () (w.take x, s))
    (cut : chunkThreshold < (w.take x).buffer.size → Leads cutChunk (w.take x, s) ok err) :
    Leads (add x) (w, s) ok err := by
  rw [add]
  refine Leads.bind (Leads.of_modify₂ (Leads.bind (Leads.of_get₂ ?_)))
  dsimp only
  split
  case isTrue long => exact cut long
  case isFalse short => exact Leads.of_pure (stays (Nat.le_of_not_lt short))

/-- What holds at the beginning, and what appending one record takes along, holds when all records
    are appended. -/
theorem addAll_keeps {P : List ρ → RunWriter × Store → Prop}
    (step : ∀ before x p, P before p → Leads (add x) p (fun _ => P (before ++ [x])) err)
    (xs : List ρ) {p : RunWriter × Store} (start : P [] p) :
    Leads (addAll xs) p (fun _ => P xs) err := by
  -- by induction on the records to come, with those that went before in front of them
  suffices from_ : ∀ before p, P before p → Leads (addAll xs) p (fun _ => P (before ++ xs)) err from
    from_ [] p start
  induction xs with
  | nil =>
    intro before p holds
    rw [List.append_nil]
    exact Leads.of_pure holds
  | cons x xs ih =>
    intro before p holds
    refine Leads.bind ((step before x p holds).mono ?_ fun _ _ h => h)
    intro _ p' holds'
    rw [List.append_cons]
    exact ih (before ++ [x]) p' holds'

end Rules

/-! ## A run in the making -/

variable {ρ : Type} [Storable ρ] {w : RunWriter} {s : Store} {base log : ByteArray} {xs : List ρ}

/-- A run in the making: its records are in chunks behind `base`, or in the buffer. -/
structure Writing (base : ByteArray) (xs : List ρ) (w : RunWriter) (s : Store)
    (log : ByteArray) : Prop where
  faithful : FaithfulHook w.protector
  known : s.Known w.file
  isOpen : ∃ h, (s.file w.file).IsOpen s.disk h log
  start : w.start = base.size
  grown : ∃ more, log = base ++ more
  parts : ∃ groups rest, xs = groups.flatten ++ rest ∧ w.buffer = encodeRecords rest ∧
    Chunks w.protector w.database log base.size log.size groups
  small : base.size < log.size → log.size < UInt64.size
  checksum : w.checksum = Crc32.start.update (encodeRecords xs)

/-- The records in the buffer may move into a chunk behind the others. -/
theorem Writing.cut (writing : Writing base xs w s log) {head payload : ByteArray}
    (holds : Chunk.Holds w.protector w.database head payload w.buffer) {t : Store} {h : Handle}
    (known : t.Known w.file) (isOpen : (t.file w.file).IsOpen t.disk h (log ++ (head ++ payload)))
    (small : (log ++ (head ++ payload)).size < UInt64.size) :
    Writing base xs { w with buffer := .empty } t (log ++ (head ++ payload)) := by
  obtain ⟨faithful, -, -, start, ⟨more, rfl⟩, ⟨groups, rest, rfl, buffer, chunks⟩, -, checksum⟩ :=
    writing
  rw [buffer] at holds
  refine ⟨faithful, known, ⟨h, isOpen⟩, start, ⟨more ++ (head ++ payload), ?_⟩,
    ⟨groups ++ [rest], [], ?_, rfl, ?_⟩, fun _ => small, checksum⟩
  · rw [ByteArray.append_assoc]
  · simp
  · exact (chunks.grow (head ++ payload)).append (Chunks.behind _ holds)

/-- A chunk is cut. -/
theorem cutChunk_leads (writing : Writing base xs w s log) :
    Leads cutChunk (w, s)
      (fun _ p => p.1 = { w with buffer := .empty } ∧
        (∃ more, Writing base xs p.1 p.2 (log ++ more)) ∧ s.Beside w.file p.2)
      (fun _ p => p.1 = w ∧ p.2.Continues w.file base ∧ s.Beside w.file p.2) := by
  obtain ⟨h, isOpen⟩ := writing.isOpen
  obtain ⟨more, rfl⟩ := writing.grown
  have stays : s.Continues w.file base := ⟨writing.known, .inl ⟨h, more, isOpen⟩⟩
  apply cutChunk_of
  · intro none
    have same : w = { w with buffer := .empty } := by rw [← none]
    rw [← ByteArray.append_empty (b := base ++ more)] at writing
    exact ⟨same, ⟨.empty, writing⟩, .refl _ _⟩
  · exact fun _ _ => ⟨rfl, stays, .refl _ _⟩
  · intro head payload encoded
    have holds := Chunk.holds_encode writing.faithful encoded
    refine (Store.write_leads writing.known isOpen head).mono ?_ fun _ t h => ⟨rfl, h⟩
    rintro _ t ⟨isOpen₁, -, beside₁⟩
    refine (Store.write_leads (beside₁.known writing.known) isOpen₁ payload).mono ?_ ?_
    · rintro _ u ⟨isOpen₂, small, beside₂⟩
      have regroup : base ++ (more ++ head ++ payload) = base ++ more ++ (head ++ payload) := by
        simp only [ByteArray.append_assoc]
      rw [regroup] at isOpen₂ small
      have beside := beside₁.trans beside₂
      exact ⟨rfl,
        ⟨head ++ payload, writing.cut holds (beside.known writing.known) isOpen₂ small⟩, beside⟩
    · -- what was there before the run is still there, whichever of the two writes failed
      rintro _ u ⟨continues, beside₂⟩
      exact ⟨rfl, continues, beside₁.trans beside₂⟩

theorem Writing.take (writing : Writing base xs w s log) (x : ρ) :
    Writing base (xs ++ [x]) (w.take x) s log := by
  obtain ⟨faithful, known, isOpen, start, grown, ⟨groups, rest, rfl, buffer, chunks⟩, small,
    checksum⟩ := writing
  refine ⟨faithful, known, isOpen, start, grown, ⟨groups, rest ++ [x], ?_, ?_, chunks⟩, small, ?_⟩
  · rw [List.append_assoc]
  · rw [encodeRecords_concat, RunWriter.take, buffer]
  · rw [encodeRecords_concat, Crc32.update_append, RunWriter.take, checksum]

/-- Appending records, with the ways in which the writer may change. -/
theorem add_leads (writing : Writing base xs w s log) (x : ρ) :
    Leads (add x) (w, s)
      (fun _ p => (∃ buffer checksum, p.1 = { w with buffer, checksum }) ∧
        (∃ more, Writing base (xs ++ [x]) p.1 p.2 (log ++ more)) ∧ s.Beside w.file p.2)
      (fun _ p => p.1.file = w.file ∧ p.2.Continues w.file base ∧ s.Beside w.file p.2) := by
  have taken := writing.take x
  apply add_of
  · intro _
    rw [← ByteArray.append_empty (b := log)] at taken
    exact ⟨⟨_, _, rfl⟩, ⟨.empty, taken⟩, .refl _ _⟩
  · intro _
    refine (cutChunk_leads taken).mono ?_ ?_
    · rintro _ p ⟨same, written, beside⟩
      exact ⟨⟨_, _, same⟩, written, beside⟩
    · rintro _ p ⟨same, continues, beside⟩
      exact ⟨by rw [same]; rfl, continues, beside⟩

theorem addAll_leads (writing : Writing base xs w s log) (ys : List ρ) :
    Leads (addAll ys) (w, s)
      (fun _ p => (∃ buffer checksum, p.1 = { w with buffer, checksum }) ∧
        (∃ more, Writing base (xs ++ ys) p.1 p.2 (log ++ more)) ∧ s.Beside w.file p.2)
      (fun _ p => p.1.file = w.file ∧ p.2.Continues w.file base ∧ s.Beside w.file p.2) := by
  apply addAll_keeps (P := fun before p => (∃ buffer checksum, p.1 = { w with buffer, checksum }) ∧
    (∃ more, Writing base (xs ++ before) p.1 p.2 (log ++ more)) ∧ s.Beside w.file p.2)
  · rintro before x ⟨w', t⟩ ⟨⟨buffer, checksum, rfl⟩, ⟨more, writing'⟩, beside⟩
    refine (add_leads writing' x).mono ?_ ?_
    · rintro _ p ⟨⟨buffer', checksum', same⟩, ⟨more', written⟩, beside'⟩
      rw [ByteArray.append_assoc, List.append_assoc] at written
      exact ⟨⟨_, _, same⟩, ⟨_, written⟩, beside.trans beside'⟩
    · rintro _ p ⟨file, continues, beside'⟩
      exact ⟨file, continues, beside.trans beside'⟩
  · rw [← ByteArray.append_empty (b := log), ← List.append_nil xs] at writing
    exact ⟨⟨_, _, rfl⟩, ⟨.empty, writing⟩, .refl _ _⟩

/-- Records without bytes leave an empty writer as it is. -/
theorem addAll_blank (blank : ∀ x : ρ, encode x = .empty) (none : w.buffer = .empty) (ys : List ρ) :
    Leads (addAll ys) (w, s) (fun _ p => p = (w, s)) (fun _ _ => False) := by
  refine addAll_keeps (P := fun _ p => p = (w, s)) ?_ ys rfl
  rintro _ y _ rfl
  have same : w.take y = w := by
    rw [RunWriter.take, blank y, ByteArray.append_empty, Crc32.update_empty]
  apply add_of
  · exact fun _ => by rw [same]
  · intro long
    rw [same, none] at long
    exact absurd long (by decide)

/-! ## Beginning -/

/-- A run begins at the end of the log. -/
theorem begin_leads (ρ : Type) [Storable ρ] {options : Options} {file : FileRef}
    (faithful : FaithfulHook options.activeProtector) (known : s.Known file)
    (usable : (s.file file).Usable s.disk) :
    Leads (begin options file) s
      (fun w s' => (w.file = file ∧ w.protector = options.activeProtector ∧
        w.database = options.database ∧ w.path = (s.file file).path) ∧
        (∃ base, Writing base ([] : List ρ) w s' base ∧
          ∀ log, (s.file file).Holds s.disk log → base = log) ∧ s.Beside file s')
      (fun _ s' => (s' = s ∨ ((s'.file file).Unopened ∧ ∀ log, ¬ (s.file file).Holds s.disk log)) ∧
        s.Around s') := by
  have stays : (s = s ∨ ((s.file file).Unopened ∧ ∀ log, ¬ (s.file file).Holds s.disk log)) ∧
      s.Around s := ⟨.inl rfl, .refl s⟩
  apply begin_of
  · exact fun _ _ => stays
  · exact fun _ => stays
  · refine (Store.onFile_leads known (SpillFile.currentOffset_leads usable)).mono ?_ ?_
    · rintro _ t ⟨⟨⟨h, log, isOpen, rfl, same, -⟩, frame⟩, around⟩ u rfl
      -- one more holder changes neither the file nor the disk
      have view := Store.view_retain file file t
      have retained := Store.around_retain file t
      obtain ⟨file_eq, disk_eq⟩ := Prod.mk.inj view
      have isOpen' : (((Store.retain file).run t).2.file file).IsOpen
          ((Store.retain file).run t).2.disk h log := by
        rw [file_eq, disk_eq]
        exact isOpen
      have path : (((Store.retain file).run t).2.file file).path = (s.file file).path := by
        rw [file_eq]
        exact frame.path
      refine ⟨⟨rfl, rfl, rfl, path⟩, ⟨log, ?_, same⟩, around.trans retained, ?_⟩
      · refine ⟨faithful, (around.trans retained).known known, ⟨h, isOpen'⟩, rfl,
          ⟨.empty, by rw [ByteArray.append_empty]⟩, ⟨[], [], rfl, rfl, .nil (Nat.le_refl _)⟩,
          fun h => absurd h (Nat.lt_irrefl _), rfl⟩
      · rw [view]
        exact frame
    · rintro _ t ⟨⟨fails, frame⟩, around⟩
      exact ⟨.inr fails, around⟩

/-! ## Whole runs -/

/-- A run of records between two places of a log. -/
structure RunAt (hook : Option Protector) (database : Option String) (log : ByteArray)
    (start stop : Nat) (checksum : UInt32) (xs : List ρ) : Prop where
  chunks : ∃ groups, xs = groups.flatten ∧ Chunks hook database log start stop groups
  checksum : (Crc32.start.update (encodeRecords xs)).value = checksum

theorem RunAt.grow {hook : Option Protector} {database : Option String} {start stop : Nat}
    {checksum : UInt32} (h : RunAt hook database log start stop checksum xs) (bytes : ByteArray) :
    RunAt hook database (log ++ bytes) start stop checksum xs := by
  obtain ⟨⟨groups, flat, chunks⟩, sum⟩ := h
  exact ⟨⟨groups, flat, chunks.grow bytes⟩, sum⟩

theorem RunAt.le {hook : Option Protector} {database : Option String} {start stop : Nat}
    {checksum : UInt32} (h : RunAt hook database log start stop checksum xs) : start ≤ stop := by
  obtain ⟨⟨groups, -, chunks⟩, -⟩ := h
  exact chunks.le

theorem RunAt.le_size {hook : Option Protector} {database : Option String} {start stop : Nat}
    {checksum : UInt32} (h : RunAt hook database log start stop checksum xs) : stop ≤ log.size := by
  obtain ⟨⟨groups, -, chunks⟩, -⟩ := h
  exact chunks.le_size

theorem RunAt.lt {hook : Option Protector} {database : Option String} {start stop : Nat}
    {checksum : UInt32} (h : RunAt hook database log start stop checksum xs) (some : xs ≠ []) :
    start < stop := by
  obtain ⟨⟨groups, rfl, chunks⟩, -⟩ := h
  cases chunks with
  | nil => exact absurd rfl some
  | cons _ _ rest =>
    have := rest.le
    simp only [Chunk.headerSize] at this
    omega

/-- A run is still being made where its file is open with the same log. -/
theorem Writing.of_isOpen {t : Store} (writing : Writing base xs w s log) (known : t.Known w.file)
    (isOpen : ∃ h, (t.file w.file).IsOpen t.disk h log) : Writing base xs w t log :=
  { writing with known, isOpen }

/-- When nothing is buffered, the records are a run in the log. -/
theorem Writing.runAt (writing : Writing base xs w s log) (takes : ∀ x ∈ xs, 0 < (encode x).size)
    (none : w.buffer = .empty) :
    RunAt w.protector w.database log base.size log.size w.checksum.value xs := by
  obtain ⟨groups, rest, rfl, buffer, chunks⟩ := writing.parts
  have solid : ∀ x ∈ rest, 0 < (encode x).size := fun x hx => takes x (List.mem_append_right _ hx)
  obtain rfl : rest = [] := encodeRecords_eq_nil solid (by rw [← buffer, none]; rfl)
  refine ⟨⟨groups, by rw [List.append_nil], chunks⟩, ?_⟩
  rw [writing.checksum]

/-- Ending a run, which is now in the log. -/
theorem finishExtent_leads (writing : Writing base xs w s log)
    (takes : ∀ x ∈ xs, 0 < (encode x).size) :
    Leads finishExtent (w, s)
      (fun extent p => (∃ buffer checksum, p.1 = { w with buffer, checksum }) ∧
        (∃ more, Writing base xs p.1 p.2 (log ++ more) ∧
          RunAt w.protector w.database (log ++ more) base.size (log ++ more).size
            extent.checksum xs ∧
          extent.start = UInt64.ofNat base.size ∧ extent.stop = UInt64.ofNat (log ++ more).size) ∧
        s.Beside w.file p.2)
      (fun _ p => p.1.file = w.file ∧ p.2.Continues w.file base ∧ s.Beside w.file p.2) := by
  apply finishExtent_of
  refine (cutChunk_leads writing).mono ?_ ?_
  · rintro _ ⟨w', t⟩ ⟨rfl, ⟨more, writing'⟩, beside⟩
    obtain ⟨h, isOpen⟩ := writing'.isOpen
    -- asking an open file for its end changes nothing
    have alone : Leads SpillFile.currentOffset (t.view w.file)
        (fun stop p => stop = (log ++ more).size ∧ p = t.view w.file) (fun _ _ => False) := by
      exact Leads.of_runOn_ok (SpillFile.currentOffset_of_isOpen isOpen) ⟨rfl, rfl⟩
    refine (Store.onFile_leads writing'.known alone).mono ?_ fun _ _ h => h.1.elim
    rintro _ u ⟨⟨rfl, same⟩, around⟩
    obtain ⟨file_eq, disk_eq⟩ := Prod.mk.inj same
    have isOpen' : (u.file w.file).IsOpen u.disk h (log ++ more) := by
      rw [file_eq, disk_eq]
      exact isOpen
    have writing'' := writing'.of_isOpen (around.known writing'.known) ⟨h, isOpen'⟩
    refine ⟨⟨_, _, rfl⟩, ⟨more, writing'', writing'.runAt takes rfl, ?_, rfl⟩,
      beside.trans ⟨around, by rw [same]; exact .refl _⟩⟩
    exact congrArg UInt64.ofNat writing'.start
  · rintro _ p ⟨rfl, continues, beside⟩
    exact ⟨rfl, continues, beside⟩

/-- A reader at the beginning of a run gives out its records. -/
theorem RunAt.gives {hook : Option Protector} {database : Option String} {extent : Extent}
    (h : RunAt hook database log extent.start.toNat extent.stop.toNat extent.checksum xs)
    (file : FileRef) (path : Path) :
    RunReader.Gives file log (RunReader.ofExtent file path extent hook database) xs := by
  obtain ⟨⟨groups, flat, chunks⟩, checksum⟩ := h
  refine ⟨rfl, .inr ⟨rfl, ⟨[], groups, flat, StandsAt.self _, rfl, chunks,
    fun h => Bool.noConfusion h⟩, ?_, checksum⟩⟩
  exact (by decide : 0 < UInt32.size)

/-- An extent from one place of a log to another. An empty one may be told wrongly, behind the
    largest offset. -/
structure Spans (e : Extent) (first last : Nat) : Prop where
  start : e.start = UInt64.ofNat first
  stop : e.stop = UInt64.ofNat last
  small : first < last → last < UInt64.size

theorem Spans.toNat_eq {e : Extent} {first last : Nat} (h : Spans e first last) (lt : first < last) :
    e.start.toNat = first ∧ e.stop.toNat = last := by
  have small := h.small lt
  rw [h.start, h.stop, UInt64.toNat_ofNat', UInt64.toNat_ofNat']
  exact ⟨Nat.mod_eq_of_lt (Nat.lt_trans lt small), Nat.mod_eq_of_lt small⟩

/-- What a finished run leaves: a reader of the given records, at the end of the log. -/
structure Finished (file : FileRef) (hook : Option Protector) (database : Option String)
    (base : ByteArray) (xs : List ρ) (r : RunReader ρ) (s : Store) : Prop where
  reader : ∃ path extent, r = RunReader.ofExtent file path extent hook database
  log : ∃ h more, (s.file file).IsOpen s.disk h (base ++ more) ∧
    RunAt hook database (base ++ more) base.size (base ++ more).size r.extent.checksum xs ∧
    Spans r.extent base.size (base ++ more).size

theorem finish_leads (writing : Writing base xs w s log)
    (takes : ∀ x ∈ xs, 0 < (encode x).size) :
    Leads (finish w : SpillM (RunReader ρ)) s
      (fun r s' => Finished w.file w.protector w.database base xs r s' ∧
        (∃ h more, (s'.file w.file).IsOpen s'.disk h (log ++ more)) ∧ r.path = w.path ∧
        s.Beside w.file s')
      (fun _ s' => s'.Continues w.file base ∧ s.Around s') := by
  apply finish_of
  refine (finishExtent_leads writing takes).mono ?_ ?_
  · rintro extent ⟨w', t⟩ ⟨⟨buffer, checksum, rfl⟩, ⟨more, writing', runAt, start, stop⟩, beside⟩
    obtain ⟨all, grown⟩ := writing'.grown
    obtain ⟨h, isOpen⟩ := writing'.isOpen
    have longer := isOpen
    have small := writing'.small
    rw [grown] at isOpen runAt stop small
    exact ⟨⟨⟨_, extent, rfl⟩, h, all, isOpen, runAt, start, stop, small⟩, ⟨h, more, longer⟩, rfl,
      beside⟩
  · rintro e ⟨w', t⟩ ⟨file, continues, beside⟩
    dsimp only at file continues beside ⊢
    rw [← file] at continues ⊢
    exact ⟨continues.release, beside.toAround.trans (Store.around_release continues.1)⟩

end RunWriter
end ExternalSort
