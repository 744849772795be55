/-
  ExternalSort.Proofs.Spill.File

  What a spill file holds.

  The bytes on disk and those still buffered make up the log of a file. Writing
  makes it longer at the end, writing out and reading leave it as it is, and what
  stands in it is read back. Only a write that failed half way breaks this: then
  the file is longer than its writer believes.
-/

import ExternalSort.Proofs.Disk.Reopening
import ExternalSort.Spill.File

namespace ExternalSort

namespace Leads

variable {α : Type} {describe : OsError → SortError} {op : DiskM α} {s : SpillFile × Disk}
  {ok : α → SpillFile × Disk → Prop} {err : SortError → SpillFile × Disk → Prop}

theorem of_attempt (h : Leads op s.2 (fun a d => ok a (s.1, d)) fun e d => err (describe e) (s.1, d)) :
    Leads (SpillFile.attempt describe op) s ok err := by
  rw [SpillFile.attempt]
  exact of_outer_result (h.mono (fun _ _ h => of_pure h) fun _ _ h => of_throw₂ h)

theorem of_disk {ok : Disk → SpillFile × Disk → Prop} (h : ok s.2 s) :
    Leads SpillFile.disk s ok err := h

end Leads

/-- The disk failed. -/
def SortError.IsDiskFailure (e : SortError) : Prop := ∃ o, e.cause? = some (.system o)

instance (e : SortError) : Decidable e.IsDiskFailure :=
  match h : e.cause? with
  | some (.system o) => .isTrue ⟨o, h⟩
  | some (.stated _) => .isFalse fun ⟨_, h'⟩ => by cases h.symm.trans h'
  | none => .isFalse fun ⟨_, h'⟩ => by cases h.symm.trans h'

theorem SortError.isDiskFailure_ofWrite (path : Path) (e : OsError) :
    (SortError.ofWrite path e).IsDiskFailure := by
  cases e <;> exact ⟨_, rfl⟩

namespace SpillFile

/-! ## A rule for each operation

What an operation leads to follows from what its parts lead to. Everything that is said of spill
files enters here. -/

/-- The file with more bytes in its buffer. -/
def gather (data : ByteArray) (f : SpillFile) : SpillFile :=
  { f with pending := f.pending ++ data, offset := f.offset + data.size }

/-- A file with nothing left to write out. -/
def flushed (f : SpillFile) : SpillFile :=
  { f with
    pending := .empty
    io := if f.pending.isEmpty then f.io else f.io.addWrite (UInt64.ofNat f.pending.size) }

section Rules

variable {f : SpillFile} {d : Disk} {err : SortError → SpillFile × Disk → Prop}

/-- A file that is open is not opened again. For another one directories are made, and what its path
    leads to then is opened. -/
theorem ensureOpen_of {ok : Handle → SpillFile × Disk → Prop}
    (isOpen : ∀ h, f.handle = some h → ok h (f, d))
    (opens : f.handle = none →
      Leads (Disk.makeParents f.path) d
        (fun _ e => Leads (Disk.openAppend f.path) e
          (fun h e' => ok h ({ f with handle := some h, offset := e'.sizeOf h }, e'))
          fun o e' => err (.io .opening f.path (.system o)) (f, e'))
        fun o e => err (.io .makingDirectory f.path (.system o)) (f, e)) :
    Leads ensureOpen (f, d) ok err := by
  rw [ensureOpen]
  refine Leads.bind (Leads.of_get₂ ?_)
  dsimp only
  cases handle : f.handle with
  | some h => exact Leads.of_pure (isOpen h handle)
  | none =>
    refine Leads.bind (Leads.of_attempt ((opens handle).mono ?_ fun _ _ failed => failed))
    intro _ e made
    refine Leads.bind (Leads.of_attempt (made.mono ?_ fun _ _ failed => failed))
    intro h e' opened
    exact Leads.bind (Leads.of_disk (Leads.bind (Leads.of_set₂ (Leads.of_pure opened))))

/-- What is buffered goes to the end of an open file. -/
theorem flush_of {ok : Unit → SpillFile × Disk → Prop} (nothing : f.pending = .empty → ok () (f, d))
    (unopened : f.handle = none → ok () ({ f with pending := .empty }, d))
    (moves : ∀ h, f.handle = some h → f.pending ≠ .empty →
      Leads (Disk.append h f.pending) d (fun _ e => ok () (f.flushed, e))
        fun o e => err (.ofWrite f.path o) (f, e)) :
    Leads flush (f, d) ok err := by
  rw [flush]
  refine Leads.bind (Leads.of_get₂ ?_)
  dsimp only
  split
  case isTrue none => exact Leads.of_pure (nothing (bytes_isEmpty_iff.mp none))
  case isFalse some =>
    cases handle : f.handle with
    | none =>
      have emptied := unopened handle
      rw [handle] at emptied
      exact Leads.bind (Leads.of_pure (Leads.of_set₂ emptied))
    | some h =>
      have appends := moves h handle (mt bytes_isEmpty_iff.mpr some)
      rw [flushed, if_neg some, handle] at appends
      refine Leads.bind (Leads.of_attempt (appends.mono ?_ fun _ _ failed => failed))
      exact fun _ _ moved => Leads.of_set₂ moved

/-- Bytes go to the buffer, which is written out once it is full. -/
theorem write_of {data : ByteArray} {ok : Nat → SpillFile × Disk → Prop}
    (opens : Leads ensureOpen (f, d)
      (fun _ p =>
        ((p.1.gather data).pending.size < bufferLimit →
          ok (p.1.gather data).offset (p.1.gather data, p.2)) ∧
        (bufferLimit ≤ (p.1.gather data).pending.size →
          Leads flush (p.1.gather data, p.2) (fun _ q => ok q.1.offset q) err))
      err) :
    Leads (write data) (f, d) ok err := by
  rw [write]
  refine Leads.bind (opens.mono ?_ fun _ _ failed => failed)
  rintro _ ⟨g, e⟩ ⟨fits, writesOut⟩
  refine Leads.bind (Leads.of_modify₂ (Leads.bind (Leads.of_get₂ ?_)))
  dsimp only
  split
  case isTrue long =>
    refine Leads.bind ((writesOut long).mono ?_ fun _ _ failed => failed)
    exact fun _ _ told => Leads.bind (Leads.of_get₂ (Leads.of_pure told))
  case isFalse short =>
    exact Leads.bind (Leads.of_get₂ (Leads.of_pure (fits (Nat.lt_of_not_le short))))

theorem currentOffset_of {ok : Nat → SpillFile × Disk → Prop}
    (opens : Leads ensureOpen (f, d) (fun _ p => ok p.1.offset p) err) :
    Leads currentOffset (f, d) ok err := by
  rw [currentOffset]
  refine Leads.bind (opens.mono ?_ fun _ _ failed => failed)
  exact fun _ _ told => Leads.bind (Leads.of_get₂ (Leads.of_pure told))

/-- The buffer is written out before bytes are fetched. If fewer of them are found than were asked
    for, that is an error. -/
theorem read_of {offset length : Nat} {ok : ByteArray → SpillFile × Disk → Prop}
    (opens : Leads ensureOpen (f, d)
      (fun h p => Leads flush p
        (fun _ q => Leads (fetch h offset length) q
          (fun bytes r =>
            (bytes.size < length →
              err (.corruptData r.1.path (.shortRead bytes.size length offset)) r) ∧
            (length ≤ bytes.size →
              ok bytes ({ r.1 with io := r.1.io.addRead (UInt64.ofNat length) }, r.2)))
          err)
        err)
      err) :
    Leads (read offset length) (f, d) ok err := by
  rw [read]
  refine Leads.bind (opens.mono ?_ fun _ _ failed => failed)
  intro h p writesOut
  refine Leads.bind (writesOut.mono ?_ fun _ _ failed => failed)
  intro _ q fetches
  refine Leads.bind (fetches.mono ?_ fun _ _ failed => failed)
  rintro bytes r ⟨fails, finds⟩
  refine Leads.bind (Leads.of_get₂ ?_)
  split
  case isTrue short => exact Leads.bind (Leads.of_throw₂ (fails short))
  case isFalse whole => exact Leads.bind (Leads.of_set₂ (Leads.of_pure (finds (Nat.le_of_not_lt whole))))

end Rules

/-! ## Logs -/

/-- An open file with its log. -/
structure IsOpen (f : SpillFile) (d : Disk) (h : Handle) (log : ByteArray) : Prop where
  handle : f.handle = some h
  known : d.Known h
  bytes : d.bytesOf h ++ f.pending = log
  offset : f.offset = log.size

/-- A file that was not opened yet. -/
structure Unopened (f : SpillFile) : Prop where
  handle : f.handle = none
  pending : f.pending = ByteArray.empty

/-- The log of a file: of the open file, or what opening it will find. -/
inductive Holds (f : SpillFile) (d : Disk) (log : ByteArray) : Prop
  | opened {h : Handle} (isOpen : f.IsOpen d h log)
  | unopened (unopened : f.Unopened) (parents : d.HasParents f.path)
      (content : d.contentAt f.path = .ok log)

/-- A file whose log is longer than its writer believes, after a write that failed half way. -/
def Cut (f : SpillFile) (d : Disk) : Prop :=
  ∃ h, f.handle = some h ∧ d.Known h ∧ f.offset < (d.bytesOf h ++ f.pending).size

instance (f : SpillFile) (d : Disk) : Decidable (f.Cut d) :=
  match h : f.handle with
  | none => .isFalse fun ⟨_, handle, _⟩ => by cases h.symm.trans handle
  | some handle =>
    decidable_of_iff (d.Known handle ∧ f.offset < (d.bytesOf handle ++ f.pending).size)
      ⟨fun cut => ⟨handle, h, cut⟩, fun ⟨_, handle, cut⟩ => by
        obtain rfl := Option.some.inj (h.symm.trans handle)
        exact cut⟩

/-- Everything is on disk. -/
structure Flushed (f : SpillFile) (d : Disk) (log : ByteArray) : Prop where
  isOpen : ∃ h, f.IsOpen d h log
  pending : f.pending = ByteArray.empty

/-- The path of an open file leads to it, and so it can be opened again. -/
def Linked (f : SpillFile) (d : Disk) : Prop :=
  ∀ h, f.handle = some h → d.find f.path = .ok (Disk.nodeOf h) ∧ d.HasParents f.path

/-- What no operation changes. -/
structure Frame (p p' : SpillFile × Disk) : Prop where
  path : p'.1.path = p.1.path
  kept : p'.1.kept = p.1.kept
  linked : p.1.Linked p.2 → p'.1.Linked p'.2

theorem Frame.refl (p : SpillFile × Disk) : Frame p p := ⟨rfl, rfl, id⟩

theorem Frame.trans {p q r : SpillFile × Disk} (h : Frame p q) (k : Frame q r) : Frame p r :=
  ⟨k.path.trans h.path, k.kept.trans h.kept, fun linked => k.linked (h.linked linked)⟩

variable {f : SpillFile} {d : Disk} {log : ByteArray}

/-- What is on disk is small enough to be read. -/
theorem IsOpen.size_lt {h : Handle} (isOpen : f.IsOpen d h log) :
    log.size < Disk.offsetLimit + f.pending.size := by
  rw [← isOpen.bytes, ByteArray.size_append]
  exact Nat.add_lt_add_right (d.size_bytesOf_lt h) _

/-- Bytes that are buffered get to the end of the log. -/
theorem IsOpen.gather {h : Handle} (isOpen : f.IsOpen d h log) (data : ByteArray) :
    (f.gather data).IsOpen d h (log ++ data) := by
  refine ⟨isOpen.handle, isOpen.known, ?_, ?_⟩
  · rw [SpillFile.gather, ← ByteArray.append_assoc, isOpen.bytes]
  · rw [SpillFile.gather, ByteArray.size_append, isOpen.offset]

/-! ## Opening -/

theorem ensureOpen_of_isOpen {h : Handle} {ok : Handle → SpillFile × Disk → Prop}
    {err : SortError → SpillFile × Disk → Prop} (isOpen : f.IsOpen d h log) (hok : ok h (f, d)) :
    Leads ensureOpen (f, d) ok err := by
  apply ensureOpen_of
  · intro h' handle
    obtain rfl := Option.some.inj (isOpen.handle.symm.trans handle)
    exact hok
  · exact fun none => absurd (isOpen.handle.symm.trans none) (by simp)

theorem Holds.eq_of_isOpen {h : Handle} {known : ByteArray} (isOpen : f.IsOpen d h log)
    (holds : f.Holds d known) : log = known := by
  cases holds with
  | opened isOpen' =>
    obtain rfl := Option.some.inj (isOpen.handle.symm.trans isOpen'.handle)
    exact isOpen.bytes.symm.trans isOpen'.bytes
  | unopened unopened _ _ => exact absurd (isOpen.handle.symm.trans unopened.handle) (by simp)

theorem Holds.of_unopened {known : ByteArray} (unopened : f.Unopened)
    (holds : f.Holds d known) : d.HasParents f.path ∧ d.contentAt f.path = .ok known := by
  cases holds with
  | opened isOpen => exact absurd (isOpen.handle.symm.trans unopened.handle) (by simp)
  | unopened _ parents content => exact ⟨parents, content⟩

theorem Frame.of_deepened (unopened : f.Unopened) {d' : Disk} : Frame (f, d) (f, d') :=
  ⟨rfl, rfl, fun _ _ handle => absurd (unopened.handle.symm.trans handle) (by simp)⟩

/-- Opening finds what the path leads to. -/
theorem ensureOpen_of_unopened (unopened : f.Unopened) :
    Leads ensureOpen (f, d)
      (fun h p => (∃ log, p.1.IsOpen p.2 h log ∧ (∀ known, f.Holds d known → log = known) ∧
          ∀ n, d.fileSize f.path = .ok n → log.size = n) ∧
        p.1.pending = .empty ∧ Frame (f, d) p)
      (fun _ p => p.1.Unopened ∧ Frame (f, d) p ∧ ∀ known, ¬ f.Holds d known) := by
  apply ensureOpen_of
  · exact fun h handle => absurd (unopened.handle.symm.trans handle) (by simp)
  intro _
  -- the directories are made first; a file that has a log needs none
  have made := (Disk.makeParents_deepens f.path d).and ((Disk.makeParents_has f.path d).and
    (Disk.makeParents_fails f.path d))
  refine made.mono ?_ ?_
  · rintro _ e ⟨deepened, parents, -⟩
    -- opening finds the content that the path led to before
    refine ((Disk.openAppend_leads f.path e).and (Disk.openAppend_fails f.path e)).mono ?_ ?_
    · rintro h e' ⟨opened, -⟩
      have bytes : e'.bytesOf h ++ f.pending = e'.bytesOf h := by
        rw [unopened.pending, ByteArray.append_empty]
      refine ⟨⟨e'.bytesOf h, ⟨rfl, opened.known, bytes, e'.sizeOf_eq h⟩, fun known holds => ?_,
        fun n found => opened.size_eq (deepened.fileSize found)⟩,
        unopened.pending, rfl, rfl, fun _ h' handle => ?_⟩
      · exact opened.content known (deepened.contentAt (holds.of_unopened unopened).2)
      · obtain rfl := Option.some.inj handle
        exact ⟨opened.found, opened.toGrown.hasParents parents⟩
    · rintro _ e' ⟨rfl, fails⟩
      refine ⟨unopened, Frame.of_deepened unopened, fun known holds => ?_⟩
      exact fails known (deepened.contentAt (holds.of_unopened unopened).2)
  · rintro _ e ⟨deepened, -, fails⟩
    exact ⟨unopened, Frame.of_deepened unopened, fun known holds =>
      fails (holds.of_unopened unopened).1⟩

/-- Opening a file with a log does not change it, and does nothing if the file is open. -/
theorem ensureOpen_leads (holds : f.Holds d log) :
    Leads ensureOpen (f, d)
      (fun h p => p.1.IsOpen p.2 h log ∧ (p.1.pending ≠ .empty → p = (f, d)) ∧ Frame (f, d) p)
      (fun _ _ => False) := by
  have known := holds
  cases holds with
  | opened isOpen => exact ensureOpen_of_isOpen isOpen ⟨isOpen, fun _ => rfl, Frame.refl _⟩
  | unopened unopened _ _ =>
    refine (ensureOpen_of_unopened unopened).mono (fun h p post => ?_) fun _ p post => ?_
    · obtain ⟨⟨found, isOpen, same, -⟩, none, frame⟩ := post
      obtain rfl := same log known
      exact ⟨isOpen, absurd none, frame⟩
    · exact post.2.2 log known

/-! ## Room on the disk -/

/-- What an open file has buffered does not fit on the disk. -/
def Stuck (f : SpillFile) (d : Disk) : Prop := ∃ h, f.handle = some h ∧ d.roomAt h < f.pending.size

theorem Stuck.some (stuck : f.Stuck d) : f.pending ≠ .empty := by
  rintro none
  obtain ⟨h, -, less⟩ := stuck
  rw [none] at less
  exact absurd less (Nat.not_lt_zero _)

/-- The file is open or can be opened, and then what it has buffered and `n` bytes more fit on the
    disk. -/
structure Roomy (n : Nat) (f : SpillFile) (d : Disk) : Prop where
  opens : Leads ensureOpen (f, d) (fun h p => p.1.pending.size + n ≤ p.2.roomAt h)
    fun _ _ => False

instance (n : Nat) (f : SpillFile) (d : Disk) : Decidable (f.Roomy n d) :=
  match run : Failing.runOn ensureOpen (f, d) with
  | (.ok h, g, e) => decidable_of_iff (g.pending.size + n ≤ e.roomAt h)
      ⟨fun fits => ⟨Leads.of_runOn_ok run fits⟩, fun roomy => roomy.opens.of_ok run⟩
  | (.error _, _) => .isFalse fun roomy => roomy.opens.of_error run

theorem Roomy.mono {m n : Nat} (roomy : f.Roomy n d) (le : m ≤ n) : f.Roomy m d :=
  ⟨roomy.opens.mono (fun _ _ fits => Nat.le_trans (Nat.add_le_add_left le _) fits) fun _ _ h => h⟩

theorem roomy_iff {h : Handle} {n : Nat} (handle : f.handle = some h) :
    f.Roomy n d ↔ f.pending.size + n ≤ d.roomAt h := by
  have same : Failing.runOn ensureOpen (f, d) = (.ok h, (f, d)) := by
    apply Leads.runOn_eq
    apply ensureOpen_of
    · exact fun h' handle' => ⟨Option.some.inj (handle'.symm.trans handle), rfl⟩
    · exact fun none => absurd (handle.symm.trans none) (by simp)
  exact ⟨fun roomy => roomy.opens.of_ok same, fun fits => ⟨Leads.of_runOn_ok same fits⟩⟩

theorem Roomy.not_stuck {n : Nat} (roomy : f.Roomy n d) : ¬ f.Stuck d := by
  rintro ⟨h, handle, less⟩
  have fits := (roomy_iff handle).mp roomy
  omega

/-- Opening a file takes no room. -/
theorem ensureOpen_roomy {n : Nat} (roomy : f.Roomy n d) :
    Leads ensureOpen (f, d) (fun h p => p.1.handle = some h ∧ p.1.Roomy n p.2)
      fun _ _ => False := by
  have opens : Leads ensureOpen (f, d) (fun h p => p.1.handle = some h) fun _ _ => True := by
    apply ensureOpen_of
    · exact fun _ handle => handle
    · intro _
      refine Leads.of_forall (fun _ e => ?_) fun _ _ => trivial
      exact Leads.of_forall (fun _ _ => rfl) fun _ _ => trivial
  refine (opens.and roomy.opens).mono ?_ fun _ _ h => h.2
  rintro h p ⟨handle, fits⟩
  exact ⟨handle, (roomy_iff handle).mpr fits⟩

/-- Writing out takes the room of what was buffered. -/
theorem flush_roomy {h : Handle} {n : Nat} (handle : f.handle = some h) (roomy : f.Roomy n d) :
    Leads flush (f, d) (fun _ p => p.1.Roomy n p.2) fun _ _ => False := by
  have fits := (roomy_iff handle).mp roomy
  apply flush_of
  · exact fun _ => roomy
  · exact fun none => absurd (handle.symm.trans none) (by simp)
  · intro h' handle' _
    obtain rfl := Option.some.inj (handle.symm.trans handle')
    refine (Disk.append_room h f.pending d).mono ?_ fun _ _ less => absurd less (by omega)
    intro _ e taken
    apply (roomy_iff (f := f.flushed) handle).mpr
    show ByteArray.empty.size + n ≤ e.roomAt h
    rw [ByteArray.size_empty]
    omega

/-- Writing takes the room of the bytes. -/
theorem write_roomy {data : ByteArray} {n : Nat} (roomy : f.Roomy (data.size + n) d) :
    Leads (write data) (f, d) (fun _ p => p.1.Roomy n p.2) fun _ _ => False := by
  apply write_of
  refine (ensureOpen_roomy roomy).mono ?_ fun _ _ h => h
  rintro h ⟨g, e⟩ ⟨handle, roomy'⟩
  have gathered : (g.gather data).Roomy n e := by
    have fits : g.pending.size + (data.size + n) ≤ e.roomAt h := (roomy_iff handle).mp roomy'
    refine (roomy_iff (f := g.gather data) handle).mpr ?_
    rw [gather, ByteArray.size_append]
    omega
  exact ⟨fun _ => gathered, fun _ => flush_roomy (f := g.gather data) handle gathered⟩

theorem currentOffset_roomy {n : Nat} (roomy : f.Roomy n d) :
    Leads currentOffset (f, d) (fun _ p => p.1.Roomy n p.2) fun _ _ => False :=
  currentOffset_of ((ensureOpen_roomy roomy).mono (fun _ _ h => h.2) fun _ _ h => h)

/-! ## Writing out -/

theorem flush_of_empty (none : f.pending = .empty) (d : Disk) :
    Failing.runOn flush (f, d) = (.ok (), (f, d)) := by
  apply Leads.runOn_eq
  apply flush_of
  · exact fun _ => ⟨rfl, rfl⟩
  · intro _
    rw [← none]
    exact ⟨rfl, rfl⟩
  · exact fun _ _ some => absurd none some

/-- Writing out moves what is buffered to the disk. If it does not fit there, a part of it may be
    there, and all of it is still buffered. -/
theorem flush_moves {h : Handle} (handle : f.handle = some h) (known : d.Known h) :
    Leads flush (f, d) (fun _ p => p.1 = f.flushed ∧ Disk.Written h f.pending d p.2)
      (fun e p => e.IsDiskFailure ∧ f.Stuck d ∧ p.1 = f ∧
        ∃ part, Disk.Written h part d p.2) := by
  apply flush_of
  · intro none
    have same : f.flushed = f := by rw [flushed, if_pos (bytes_isEmpty_iff.mpr none), ← none]
    rw [same, none]
    exact ⟨rfl, .nothing known⟩
  · exact fun none => absurd (handle.symm.trans none) (by simp)
  · intro h' handle' some
    obtain rfl := Option.some.inj (handle.symm.trans handle')
    refine ((Disk.append_leads f.pending known).and (Disk.append_room h f.pending d)).mono ?_ ?_
    · exact fun _ _ h => ⟨rfl, h.1⟩
    · rintro o _ ⟨part, less⟩
      exact ⟨SortError.isDiskFailure_ofWrite _ o, ⟨h, handle, less⟩, rfl, part⟩

/-- Writing out keeps the log, unless the write is cut short. -/
theorem flush_leads {h : Handle} (isOpen : f.IsOpen d h log) :
    Leads flush (f, d)
      (fun _ p => p.1.IsOpen p.2 h log ∧ p.1.pending = .empty ∧ Frame (f, d) p)
      (fun _ p => f.Stuck d ∧ (p.1.IsOpen p.2 h log ∨ p.1.Cut p.2) ∧ Frame (f, d) p) := by
  apply (flush_moves isOpen.handle isOpen.known).mono
  · rintro _ ⟨_, e⟩ ⟨rfl, written⟩
    refine ⟨⟨isOpen.handle, written.known, ?_, isOpen.offset⟩, rfl, rfl, rfl,
      fun linked h' handle => written.toGrown.linked (linked h' handle)⟩
    show e.bytesOf h ++ .empty = log
    rw [ByteArray.append_empty, written.content, isOpen.bytes]
  · rintro _ ⟨_, e⟩ ⟨-, stuck, rfl, part, written⟩
    refine ⟨stuck, ?_, rfl, rfl, fun linked h' handle => written.toGrown.linked (linked h' handle)⟩
    have size := congrArg ByteArray.size isOpen.bytes
    rw [ByteArray.size_append] at size
    -- a write of nothing leaves the log; after a part of it the writer believes less than there is
    by_cases hpart : part.size = 0
    · refine .inl ⟨isOpen.handle, written.known, ?_, isOpen.offset⟩
      rw [written.content, ByteArray.size_eq_zero_iff.mp hpart, ByteArray.append_empty]
      exact isOpen.bytes
    · refine .inr ⟨h, isOpen.handle, written.known, ?_⟩
      rw [written.content, ByteArray.size_append, ByteArray.size_append, isOpen.offset]
      omega

/-! ## Writing -/

/-- Writing makes the log longer. -/
theorem write_leads {h : Handle} (isOpen : f.IsOpen d h log) (data : ByteArray) :
    Leads (write data) (f, d)
      (fun stop p => p.1.IsOpen p.2 h (log ++ data) ∧ stop = (log ++ data).size ∧
        (log ++ data).size < UInt64.size ∧ Frame (f, d) p)
      (fun _ p => (p.1.IsOpen p.2 h (log ++ data) ∨ p.1.Cut p.2) ∧ Frame (f, d) p) := by
  -- the bytes are in the log before they are written out, and stay if that fails
  have written : (f.gather data).IsOpen d h (log ++ data) := isOpen.gather data
  have gathered : Frame (f, d) (f.gather data, d) := ⟨rfl, rfl, id⟩
  refine write_of (ensureOpen_of_isOpen isOpen ⟨fun small => ?_, fun _ => ?_⟩)
  · have size : (log ++ data).size < Disk.offsetLimit + bufferLimit :=
      Nat.lt_trans written.size_lt (Nat.add_lt_add_left small _)
    exact ⟨written, written.offset, Nat.lt_trans size (by decide), gathered⟩
  · refine (flush_leads written).mono ?_ fun _ _ post => ⟨post.2.1, gathered.trans post.2.2⟩
    rintro _ p ⟨isOpen', none, frame⟩
    have size := isOpen'.size_lt
    rw [none] at size
    exact ⟨isOpen', isOpen'.offset, Nat.lt_trans size (by decide), gathered.trans frame⟩

/-! ## Failures -/

/-- Opening a file buffers nothing, and only the disk can make it fail. -/
theorem ensureOpen_calm (f : SpillFile) (d : Disk) :
    Leads ensureOpen (f, d) (fun _ p => p.1.pending = f.pending) (fun e _ => e.IsDiskFailure) := by
  apply ensureOpen_of
  · exact fun _ _ => rfl
  · intro _
    refine Leads.of_forall (fun _ e => ?_) fun o _ => ⟨o, rfl⟩
    exact Leads.of_forall (fun _ _ => rfl) fun o _ => ⟨o, rfl⟩

/-- After writing out nothing is buffered, and only the disk can make it fail. -/
theorem flush_calm (f : SpillFile) (d : Disk) :
    Leads flush (f, d) (fun _ p => p.1.pending = .empty) (fun e _ => e.IsDiskFailure) := by
  apply flush_of
  · exact fun none => none
  · exact fun _ => rfl
  · exact fun h _ _ => Leads.of_forall (fun _ _ => rfl) fun o _ => SortError.isDiskFailure_ofWrite _ o

/-- After writing, the buffer is not full, and only the disk can make it fail. -/
theorem write_calm (f : SpillFile) (d : Disk) (data : ByteArray) :
    Leads (write data) (f, d) (fun _ p => p.1.pending.size < bufferLimit)
      (fun e _ => e.IsDiskFailure) := by
  apply write_of
  refine (ensureOpen_calm f d).mono ?_ fun _ _ failure => failure
  rintro _ ⟨g, e⟩ -
  refine ⟨fun small => small, fun _ => (flush_calm _ e).mono ?_ fun _ _ failure => failure⟩
  intro _ q none
  rw [none]
  decide

theorem currentOffset_calm (f : SpillFile) (d : Disk) :
    Leads currentOffset (f, d) (fun _ p => p.1.pending = f.pending) (fun e _ => e.IsDiskFailure) := by
  exact currentOffset_of (ensureOpen_calm f d)

/-! ## Reading -/

/-- Fetching bytes changes nothing. -/
theorem fetch_keeps (handle : Handle) (offset length : Nat) (s : SpillFile × Disk) :
    Leads (fetch handle offset length) s (fun _ q => q = s) (fun _ q => q = s) := by
  rw [fetch]
  split
  · exact Leads.of_pure rfl
  · refine Leads.bind (Leads.of_disk ?_)
    split
    · exact Leads.of_pure rfl
    · exact Leads.bind (Leads.of_get₂ (Leads.of_throw₂ rfl))

/-- What is on disk is read. -/
theorem fetch_of_stands {h : Handle} {bytes : ByteArray} {offset : Nat}
    (stands : StandsAt bytes (d.bytesOf h) offset) :
    Leads (fetch h offset bytes.size) (f, d) (fun found p => found = bytes ∧ p = (f, d))
      (fun _ _ => False) := by
  rw [fetch]
  by_cases hzero : bytes.size = 0
  · rw [if_pos hzero]
    exact Leads.of_pure ⟨(ByteArray.size_eq_zero_iff.mp hzero).symm, rfl⟩
  · rw [if_neg hzero]
    refine Leads.bind (Leads.of_disk ?_)
    have limit : offset + bytes.size < Disk.offsetLimit :=
      Nat.lt_of_le_of_lt stands.le_size (d.size_bytesOf_lt h)
    have found := Disk.readAt_eq (h := h) (by omega) limit stands
    simp only [found]
    exact Leads.of_pure ⟨rfl, rfl⟩

/-- What stands in the log is read. When all that is left to be written out fits on the disk, reading
    does not fail. -/
theorem read_leads {bytes : ByteArray} {offset : Nat} (holds : f.Holds d log)
    (stands : StandsAt bytes log offset) :
    Leads (read offset bytes.size) (f, d)
      (fun found p => found = bytes ∧ p.1.Flushed p.2 log ∧ Frame (f, d) p)
      (fun e p => e.IsDiskFailure ∧ f.Stuck d ∧ (p.1.Holds p.2 log ∨ p.1.Cut p.2) ∧
        Frame (f, d) p) := by
  apply read_of
  refine (ensureOpen_leads holds).mono ?_ fun _ _ h => h.elim
  rintro h p ⟨isOpen, same, frame⟩
  -- what is buffered is written out first, and only that can fail
  refine ((flush_leads isOpen).and (flush_calm p.1 p.2)).mono ?_ ?_
  · rintro _ q ⟨⟨isOpen', none, frame'⟩, -⟩
    have onDisk := isOpen'.bytes
    rw [none, ByteArray.append_empty] at onDisk
    refine (fetch_of_stands (onDisk ▸ stands)).mono ?_ fun _ _ h => h.elim
    rintro _ _ ⟨rfl, rfl⟩
    refine ⟨fun short => absurd short (Nat.lt_irrefl _), fun _ => ⟨rfl, ⟨⟨h, ?_⟩, none⟩, ?_⟩⟩
    · exact ⟨isOpen'.handle, isOpen'.known, isOpen'.bytes, isOpen'.offset⟩
    · exact (frame.trans frame').trans ⟨rfl, rfl, id⟩
  · rintro e q ⟨⟨stuck, rest, frame'⟩, failure⟩
    obtain rfl := same stuck.some
    exact ⟨failure, stuck, rest.imp .opened id, frame.trans frame'⟩

/-- A file that can be written to. -/
def Usable (f : SpillFile) (d : Disk) : Prop := f.Unopened ∨ ∃ h log, f.IsOpen d h log

/-- A file that can still be written to, with the log that it had. -/
structure Stays (p p' : SpillFile × Disk) : Prop where
  usable : p'.1.Usable p'.2
  holds : ∀ log, p.1.Holds p.2 log → p'.1.Holds p'.2 log

/-- Writing out a file that may not have been opened yet. -/
theorem flush_of_usable (usable : f.Usable d) :
    Leads flush (f, d)
      (fun _ p => p.1.pending = .empty ∧ Stays (f, d) p ∧ Frame (f, d) p)
      (fun _ p => (Stays (f, d) p ∨ p.1.Cut p.2) ∧ Frame (f, d) p) := by
  rcases usable with unopened | ⟨h, log, isOpen⟩
  · exact Leads.of_runOn_ok (flush_of_empty unopened.pending d)
      ⟨unopened.pending, ⟨.inl unopened, fun _ => id⟩, .refl _⟩
  · -- an open file has one log, so whoever held a log holds this one
    have stays (p : SpillFile × Disk) (isOpen' : p.1.IsOpen p.2 h log) : Stays (f, d) p := by
      refine ⟨.inr ⟨h, log, isOpen'⟩, fun known holds => ?_⟩
      obtain rfl := holds.eq_of_isOpen isOpen
      exact .opened isOpen'
    refine (flush_leads isOpen).mono ?_ ?_
    · rintro _ p ⟨isOpen', none, frame⟩
      exact ⟨none, stays p isOpen', frame⟩
    · rintro _ p ⟨-, rest, frame⟩
      exact ⟨rest.imp (stays p) id, frame⟩

theorem stays_keep (usable : f.Usable d) : Stays (f, d) ({ f with kept := true }, d) := by
  refine ⟨usable.imp (fun unopened => ⟨unopened.handle, unopened.pending⟩) ?_, fun log holds => ?_⟩
  · rintro ⟨h, log, isOpen⟩
    exact ⟨h, log, isOpen.handle, isOpen.known, isOpen.bytes, isOpen.offset⟩
  · cases holds with
    | opened isOpen => exact .opened ⟨isOpen.handle, isOpen.known, isOpen.bytes, isOpen.offset⟩
    | unopened unopened parents content =>
      exact .unopened ⟨unopened.handle, unopened.pending⟩ parents content

/-- Where the next write will begin: behind the log of an open file, or behind what the path of
    another one leads to. -/
inductive EndsAt (f : SpillFile) (d : Disk) (n : Nat) : Prop
  | opened {h : Handle} {log : ByteArray} (isOpen : f.IsOpen d h log) (size : log.size = n)
  | unopened (unopened : f.Unopened) (found : d.fileSize f.path = .ok n)

theorem EndsAt.size_eq {h : Handle} {n : Nat} (ends : f.EndsAt d n) (isOpen : f.IsOpen d h log) :
    log.size = n := by
  cases ends with
  | opened isOpen' size => rw [(Holds.opened isOpen').eq_of_isOpen isOpen, size]
  | unopened unopened _ => exact absurd (isOpen.handle.symm.trans unopened.handle) (by simp)

theorem EndsAt.of_unopened {n : Nat} (ends : f.EndsAt d n) (unopened : f.Unopened) :
    d.fileSize f.path = .ok n := by
  cases ends with
  | opened isOpen _ => exact absurd (isOpen.handle.symm.trans unopened.handle) (by simp)
  | unopened _ found => exact found

theorem EndsAt.keep {n : Nat} (ends : f.EndsAt d n) : EndsAt { f with kept := true } d n := by
  cases ends with
  | opened isOpen size =>
    exact .opened ⟨isOpen.handle, isOpen.known, isOpen.bytes, isOpen.offset⟩ size
  | unopened unopened found => exact .unopened ⟨unopened.handle, unopened.pending⟩ found

/-- Asking for the end of the log opens the file. -/
theorem currentOffset_leads (usable : f.Usable d) :
    Leads currentOffset (f, d)
      (fun stop p => (∃ h log, p.1.IsOpen p.2 h log ∧ stop = log.size ∧
        (∀ known, f.Holds d known → log = known) ∧ ∀ n, f.EndsAt d n → log.size = n) ∧
        Frame (f, d) p)
      (fun _ p => (p.1.Unopened ∧ ∀ known, ¬ f.Holds d known) ∧ Frame (f, d) p) := by
  apply currentOffset_of
  rcases usable with unopened | ⟨h, log, isOpen⟩
  · refine (ensureOpen_of_unopened unopened).mono ?_ ?_
    · rintro h p ⟨⟨log, isOpen, same, size⟩, -, frame⟩
      exact ⟨⟨h, log, isOpen, isOpen.offset, same,
        fun n ends => size n (ends.of_unopened unopened)⟩, frame⟩
    · rintro e p ⟨unopened', frame, fails⟩
      exact ⟨⟨unopened', fails⟩, frame⟩
  · apply ensureOpen_of_isOpen isOpen
    exact ⟨⟨h, log, isOpen, isOpen.offset, fun _ holds => holds.eq_of_isOpen isOpen,
      fun _ ends => ends.size_eq isOpen⟩, .refl _⟩

theorem currentOffset_of_isOpen {h : Handle} (isOpen : f.IsOpen d h log) :
    Failing.runOn currentOffset (f, d) = (.ok log.size, (f, d)) := by
  apply Leads.runOn_eq
  exact currentOffset_of (ensureOpen_of_isOpen isOpen ⟨isOpen.offset, rfl⟩)

/-! ## Closing -/

theorem IsOpen.of_contents {h : Handle} {d' : Disk} (isOpen : f.IsOpen d h log)
    (same : d'.contents = d.contents) : f.IsOpen d' h log := by
  refine ⟨isOpen.handle, ?_, ?_, isOpen.offset⟩
  · cases h with
    | file number =>
      show number < d'.contents.size
      rw [same]
      exact isOpen.known
    | fullDevice => trivial
  · rw [← isOpen.bytes]
    cases h with
    | file number =>
      show d'.content number ++ f.pending = d.content number ++ f.pending
      rw [Disk.content, Disk.content, same]
    | fullDevice => rfl

theorem Flushed.of_contents {d' : Disk} (flushed : f.Flushed d log)
    (h : d'.contents = d.contents) : f.Flushed d' log := by
  obtain ⟨⟨handle, isOpen⟩, none⟩ := flushed
  exact ⟨⟨handle, isOpen.of_contents h⟩, none⟩

/-- Closing a file that does not stay only removes its entry. -/
theorem close_of_not_kept (gone : f.kept = false) (d : Disk) :
    (f.close.run d).2.contents = d.contents := by
  rw [close, if_neg (by rw [gone]; exact Bool.false_ne_true)]
  exact Disk.remove_contents f.path d

/-- A file that stays, with nothing left to write out. -/
structure Settled (f : SpillFile) : Prop where
  kept : f.kept = true
  pending : f.pending = .empty

/-- Closing a settled file does nothing. -/
theorem Settled.close_eq (settled : f.Settled) (d : Disk) : (f.close.run d).2 = d := by
  rw [close, if_pos settled.kept]
  exact congrArg (·.2.2) (flush_of_empty settled.pending d)

/-- The log of a settled file is what its path leads to, also for others. -/
theorem Settled.reopens (settled : f.Settled) (holds : f.Holds d log) (linked : f.Linked d) :
    d.HasParents f.path ∧ d.contentAt f.path = .ok log := by
  cases holds with
  | opened isOpen =>
    obtain ⟨found, parents⟩ := linked _ isOpen.handle
    have bytes := isOpen.bytes
    rw [settled.pending, ByteArray.append_empty] at bytes
    exact ⟨parents, by rw [Disk.contentAt_eq found, bytes]⟩
  | unopened _ parents content => exact ⟨parents, content⟩

/-- Writing out does not move the end. -/
theorem flush_endsAt (usable : f.Usable d) :
    Leads flush (f, d) (fun _ p => ∀ n, f.EndsAt d n → p.1.EndsAt p.2 n) (fun _ _ => True) := by
  rcases usable with unopened | ⟨h, log, isOpen⟩
  · exact Leads.of_runOn_ok (flush_of_empty unopened.pending d) fun _ => id
  · apply (flush_leads isOpen).mono
    · rintro _ p ⟨isOpen', -⟩ n ends
      exact .opened isOpen' (ends.size_eq isOpen)
    · exact fun _ _ _ => trivial

/-- A settled file ends where its path tells others that it does. -/
theorem Settled.fileSize {n : Nat} (settled : f.Settled) (ends : f.EndsAt d n)
    (linked : f.Linked d) : d.fileSize f.path = .ok n := by
  cases ends with
  | unopened _ found => exact found
  | @opened h _ isOpen size =>
    have bytes := isOpen.bytes
    rw [settled.pending, ByteArray.append_empty] at bytes
    rw [Disk.fileSize, (linked _ isOpen.handle).1, ← size, ← bytes]
    cases h <;> rfl

/-- Closing a file that is entirely on disk keeps its content. -/
theorem close_contents (none : f.pending = .empty) (d : Disk) :
    (f.close.run d).2.contents = d.contents := by
  rw [close]
  split
  · exact congrArg (·.2.2.contents) (flush_of_empty none d)
  · exact Disk.remove_contents f.path d

/-- Closing an open file may make it longer. -/
theorem close_grows {h : Handle} (handle : f.handle = some h) (known : d.Known h) :
    (f.close.run d).2.Known h ∧
      ∃ part, (f.close.run d).2.bytesOf h = d.bytesOf h ++ part := by
  have here : d.Known h ∧ ∃ part, d.bytesOf h = d.bytesOf h ++ part :=
    ⟨known, .empty, by rw [ByteArray.append_empty]⟩
  rw [close]
  split
  · have moves : Leads flush (f, d)
        (fun _ p => p.2.Known h ∧ ∃ part, p.2.bytesOf h = d.bytesOf h ++ part)
        (fun _ p => p.2.Known h ∧ ∃ part, p.2.bytesOf h = d.bytesOf h ++ part) := by
      apply (flush_moves handle known).mono
      · exact fun _ _ post => ⟨post.2.known, _, post.2.content⟩
      · rintro _ _ ⟨-, -, -, part, written⟩
        exact ⟨written.known, part, written.content⟩
    rcases moves.outcome with ⟨_, p, hrun, grows⟩ | ⟨_, p, hrun, grows⟩ <;>
      rw [← show _ = p from congrArg Prod.snd hrun] at grows <;> exact grows
  -- a file that is removed keeps its content for those who have it open
  · have same := Disk.remove_contents f.path d
    cases h with
    | fullDevice => exact ⟨trivial, .empty, rfl⟩
    | file number =>
      refine ⟨?_, .empty, ?_⟩
      · show number < ((Disk.remove f.path).run.run d).2.contents.size
        rw [same]
        exact known
      · show ((Disk.remove f.path).run.run d).2.content number = d.content number ++ .empty
        rw [ByteArray.append_empty, Disk.content, same]
        rfl

end SpillFile
end ExternalSort
