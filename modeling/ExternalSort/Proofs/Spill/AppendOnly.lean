/-
  ExternalSort.Proofs.Spill.AppendOnly

  A spill file is a log that only gets longer.

  Its bytes are those that its path was about before, and everything written
  since. Part of them is on disk and the others are buffered; the file is opened
  by the first call that needs it, and the buffer is written out when it is full,
  before a read and on request. Nothing of this shows in the answers: they are
  those of the log alone. Only the counters of the writes tell how much was moved
  to the disk, and that is what lies there behind the bytes from before.
-/

import ExternalSort.Proofs.Disk.Destination
import ExternalSort.Proofs.Spill.Content

namespace ExternalSort
namespace SpillFile

/-! ## Calls and answers -/

/-- A call on a spill file. -/
inductive Call
  | write (data : ByteArray)
  | flush
  | currentOffset
  | read (offset length : Nat)
  | keep

/-- What a call on a spill file answers. -/
inductive Reply
  | done
  | offset (stop : Nat)
  | found (bytes : ByteArray)
  | failed (e : SortError)

/-- The error that a reply tells. -/
def Reply.error? : Reply → Option SortError
  | .failed e => some e
  | _ => none

/-- An operation with its outcome as a reply. -/
def replying {α : Type} (op : Action α) (tell : α → Reply) :
    StateT SpillFile (StateM Disk) Reply := do
  match ← op.run with
  | .ok a => return tell a
  | .error e => return .failed e

/-- Carries out one call. -/
def perform : Call → StateT SpillFile (StateM Disk) Reply
  | .write data => replying (write data) .offset
  | .flush => replying flush fun _ => .done
  | .currentOffset => replying currentOffset .offset
  | .read offset length => replying (read offset length) .found
  | .keep => replying keep fun _ => .done

/-- Carries out calls, and tells what each of them answered. -/
def performAll : List Call → StateT SpillFile (StateM Disk) (List Reply)
  | [] => return []
  | call :: rest => do
    let reply ← perform call
    let replies ← performAll rest
    return reply :: replies

/-- The bytes of all writes. -/
def written : List Call → ByteArray
  | [] => .empty
  | .write data :: rest => data ++ written rest
  | _ :: rest => written rest

/-! ## The log -/

/-- What a spill file is to its users. -/
structure Log where
  bytes : ByteArray
  kept : Bool := false
  readOps : UInt64 := 0
  readBytes : UInt64 := 0

namespace Log

/-- What a log answers. A read that reaches behind the end finds less than it asks for. -/
def answer (path : Path) (log : Log) : Call → Reply
  | .write data => .offset (log.bytes ++ data).size
  | .flush | .keep => .done
  | .currentOffset => .offset log.bytes.size
  | .read offset length =>
    let found := log.bytes.extract offset (offset + length)
    if 0 < length ∧ log.bytes.size < offset + length then
      .failed (.corruptData path (.shortRead found.size length offset))
    else .found found

/-- The log after a call. -/
def after (log : Log) : Call → Log
  | .write data => { log with bytes := log.bytes ++ data }
  | .flush | .currentOffset => log
  | .read offset length =>
    if 0 < length ∧ log.bytes.size < offset + length then log
    else { log with
      readOps := log.readOps + 1
      readBytes := log.readBytes + UInt64.ofNat length }
  | .keep => { log with kept := true }

/-- What a log answers to calls, one after another. -/
def answers (path : Path) : Log → List Call → List Reply
  | _, [] => []
  | log, call :: rest => log.answer path call :: answers path (log.after call) rest

/-- The bytes of a log only get more, by what is written. -/
theorem bytes_foldl_after (log : Log) (calls : List Call) :
    (calls.foldl after log).bytes = log.bytes ++ written calls := by
  induction calls generalizing log with
  | nil => rw [List.foldl_nil, written, ByteArray.append_empty]
  | cons call rest ih =>
    rw [List.foldl_cons, ih]
    cases call with
    | write data => rw [written, after, ByteArray.append_assoc]
    | read offset length =>
      rw [after]
      split <;> rfl
    | flush | currentOffset | keep => rfl

end Log

/-! ## What is counted -/

variable {f : SpillFile} {d : Disk} {base log : ByteArray}

@[simp] theorem flushed_readOps (f : SpillFile) : f.flushed.io.readOps = f.io.readOps := by
  rw [flushed]
  split <;> rfl

@[simp] theorem flushed_readBytes (f : SpillFile) : f.flushed.io.readBytes = f.io.readBytes := by
  rw [flushed]
  split <;> rfl

theorem flushed_writeBytes (f : SpillFile) :
    f.flushed.io.writeBytes = f.io.writeBytes + UInt64.ofNat f.pending.size := by
  rw [flushed]
  split
  · rename_i none
    rw [bytes_isEmpty_iff.mp none]
    exact (UInt64.add_zero _).symm
  · rfl

/-! ## What is on disk -/

/-- An open file, with the bytes from before and those that were moved since on disk. -/
structure Moves (base log : ByteArray) (number : Nat) (f : SpillFile) (d : Disk) : Prop where
  isOpen : f.IsOpen d (.file number) log
  linked : f.Linked d
  moved : ∃ moved, d.content number = base ++ moved ∧ f.io.writeBytes.toNat = moved.size

/-- How the bytes of a log stand in a file. -/
inductive Stores (base log : ByteArray) (f : SpillFile) (d : Disk) : Prop
  | unopened (unopened : f.Unopened) (content : d.ContentIs f.path base) (same : log = base)
      (idle : f.io.writeBytes = 0)
  | opened {number : Nat} (moves : Moves base log number f d)

/-- Everything about a file but its bytes is as its users see it. -/
structure Beside (path : Path) (log : Log) (f : SpillFile) : Prop where
  path : f.path = path
  kept : f.kept = log.kept
  readOps : f.io.readOps = log.readOps
  readBytes : f.io.readBytes = log.readBytes

/-- A file is as its users see it. -/
structure Refines (path : Path) (base : ByteArray) (log : Log) (f : SpillFile) (d : Disk) :
    Prop where
  beside : Beside path log f
  stores : Stores base log.bytes f d

variable {number : Nat}

theorem Moves.gather (moves : Moves base log number f d) (data : ByteArray) :
    Moves base (log ++ data) number (f.gather data) d :=
  ⟨moves.isOpen.gather data, moves.linked, moves.moved⟩

/-- What is written out is moved to the disk. The counter does not wrap, since no file is so
    large. -/
theorem Moves.flushed {e : Disk} (moves : Moves base log number f d)
    (written : Disk.Written (.file number) f.pending d e) : Moves base log number f.flushed e := by
  obtain ⟨isOpen, linked, moved, content, counted⟩ := moves
  have more : e.content number = base ++ (moved ++ f.pending) := by
    rw [← ByteArray.append_assoc, ← content]
    exact written.content
  refine ⟨⟨isOpen.handle, written.known, ?_, isOpen.offset⟩, fun h handle => ?_, _, more, ?_⟩
  · show e.content number ++ .empty = log
    rw [ByteArray.append_empty, ← isOpen.bytes]
    exact written.content
  · exact written.toGrown.linked (linked h handle)
  · have small := e.size_bytesOf_lt (.file number)
    rw [Disk.bytesOf, more, ByteArray.size_append, ByteArray.size_append] at small
    have limit : Disk.offsetLimit = 2 ^ 63 := by decide
    rw [flushed_writeBytes, UInt64.toNat_add, UInt64.toNat_ofNat', counted, ByteArray.size_append]
    omega

theorem Beside.flushed {path : Path} {log : Log} (beside : Beside path log f) :
    Beside path log f.flushed :=
  ⟨beside.path, beside.kept, by rw [flushed_readOps, beside.readOps],
    by rw [flushed_readBytes, beside.readBytes]⟩

/-! ## What a call does to the log -/

section Calls

variable {path : Path} {log : Log}

/-- Opening a file finds the content that its path is about. -/
theorem ensureOpen_finds (unopened : f.Unopened) (content : d.ContentIs f.path base) :
    Leads ensureOpen (f, d)
      (fun h q => (∃ number, h = .file number ∧ q.2.bytesOf h = base) ∧ q.1.io = f.io)
      (fun _ _ => True) := by
  apply ensureOpen_of
  · intro h handle
    cases unopened.handle.symm.trans handle
  · intro _
    refine (Disk.makeParents_deepens f.path d).mono ?_ fun _ _ _ => trivial
    intro _ e deepened
    refine (Disk.openAppend_finds content deepened).mono ?_ fun _ _ _ => trivial
    exact fun h e' found => ⟨found, rfl⟩

theorem Refines.ensureOpen_leads (h : Refines path base log f d) :
    Leads ensureOpen (f, d)
      (fun handle q => ∃ number, handle = .file number ∧ Beside path log q.1 ∧
        Moves base log.bytes number q.1 q.2)
      (fun e _ => e.IsDiskFailure) := by
  obtain ⟨beside, stores⟩ := h
  cases stores with
  | @opened number moves =>
    exact ensureOpen_of_isOpen moves.isOpen ⟨number, rfl, beside, moves⟩
  | unopened unopened content same idle =>
    have opens := (ensureOpen_of_unopened unopened).and
      ((ensureOpen_finds unopened content).and (ensureOpen_calm f d))
    apply opens.mono
    · rintro _ ⟨g, e⟩ ⟨⟨⟨found, isOpen, -⟩, pending, frame⟩, ⟨⟨number, rfl, bytes⟩, io⟩, -⟩
      -- what was found is the content from before
      have whole : found = log.bytes := by
        rw [← isOpen.bytes, pending, ByteArray.append_empty, same, ← bytes]
      subst whole
      refine ⟨number, rfl, ⟨frame.path.trans beside.path, frame.kept.trans beside.kept, ?_, ?_⟩,
        isOpen, frame.linked fun _ handle => ?_, .empty, ?_, ?_⟩
      · rw [io, beside.readOps]
      · rw [io, beside.readBytes]
      · cases unopened.handle.symm.trans handle
      · rw [ByteArray.append_empty]
        exact bytes
      · rw [io, idle]
        rfl
    · exact fun _ _ post => post.2.2

theorem Refines.flush_leads (h : Refines path base log f d) :
    Leads flush (f, d) (fun _ q => Refines path base log q.1 q.2) (fun e _ => e.IsDiskFailure) := by
  obtain ⟨beside, stores⟩ := h
  cases stores with
  | unopened unopened content same idle =>
    exact Leads.of_runOn_ok (flush_of_empty unopened.pending d)
      ⟨beside, .unopened unopened content same idle⟩
  | opened moves =>
    apply (flush_moves moves.isOpen.handle moves.isOpen.known).mono
    · rintro _ ⟨_, e⟩ ⟨rfl, written⟩
      exact ⟨beside.flushed, .opened (moves.flushed written)⟩
    · exact fun _ _ post => post.1

theorem Refines.write_leads (h : Refines path base log f d) (data : ByteArray) :
    Leads (write data) (f, d)
      (fun stop q => stop = (log.bytes ++ data).size ∧
        Refines path base { log with bytes := log.bytes ++ data } q.1 q.2)
      (fun e _ => e.IsDiskFailure) := by
  apply write_of
  refine h.ensureOpen_leads.mono ?_ fun _ _ failure => failure
  rintro _ ⟨g, e⟩ ⟨number, rfl, beside, moves⟩
  have more := moves.gather data
  have beside' : Beside path { log with bytes := log.bytes ++ data } (g.gather data) :=
    ⟨beside.path, beside.kept, beside.readOps, beside.readBytes⟩
  refine ⟨fun _ => ⟨more.isOpen.offset, beside', .opened more⟩, fun _ => ?_⟩
  refine (flush_moves more.isOpen.handle more.isOpen.known).mono ?_ fun _ _ post => post.1
  rintro _ ⟨_, e'⟩ ⟨rfl, written⟩
  exact ⟨more.isOpen.offset, beside'.flushed, .opened (more.flushed written)⟩

theorem Refines.currentOffset_leads (h : Refines path base log f d) :
    Leads currentOffset (f, d)
      (fun stop q => stop = log.bytes.size ∧ Refines path base log q.1 q.2)
      (fun e _ => e.IsDiskFailure) := by
  apply currentOffset_of
  refine h.ensureOpen_leads.mono ?_ fun _ _ failure => failure
  rintro _ ⟨g, e⟩ ⟨number, rfl, beside, moves⟩
  exact ⟨moves.isOpen.offset, beside, .opened moves⟩

theorem Refines.read_leads (h : Refines path base log f d) (offset length : Nat) :
    Leads (read offset length) (f, d)
      (fun found q => .found found = log.answer path (.read offset length) ∧
        Refines path base (log.after (.read offset length)) q.1 q.2)
      (fun e q => e.IsDiskFailure ∨ .failed e = log.answer path (.read offset length) ∧
        Refines path base (log.after (.read offset length)) q.1 q.2) := by
  apply read_of
  refine h.ensureOpen_leads.mono ?_ fun _ _ failure => .inl failure
  rintro _ ⟨g, e⟩ ⟨number, rfl, beside, moves⟩
  refine (flush_moves moves.isOpen.handle moves.isOpen.known).mono ?_ fun _ _ post => .inl post.1
  rintro _ ⟨_, e'⟩ ⟨rfl, written⟩
  have moves' := moves.flushed written
  refine (fetch_leads_of_file number offset length).mono ?_ fun _ _ post => .inl post.1
  rintro _ _ ⟨rfl, rfl⟩
  -- with nothing buffered the content is the log
  have content : e'.content number = log.bytes := by
    have bytes := moves'.isOpen.bytes
    rwa [flushed, ByteArray.append_empty] at bytes
  rw [content]
  have size : (log.bytes.extract offset (offset + length)).size =
      min (offset + length) log.bytes.size - offset := ByteArray.size_extract
  refine ⟨fun short => .inr ?_, fun whole => ?_⟩
  · have behind : 0 < length ∧ log.bytes.size < offset + length := by omega
    constructor
    · rw [Log.answer, if_pos behind]
      show Reply.failed (.corruptData g.path _) = _
      rw [beside.path]
    · rw [Log.after, if_pos behind]
      exact ⟨beside.flushed, .opened moves'⟩
  · have inside : ¬ (0 < length ∧ log.bytes.size < offset + length) := by omega
    constructor
    · rw [Log.answer, if_neg inside]
    · rw [Log.after, if_neg inside]
      obtain ⟨path, kept, readOps, readBytes⟩ := beside.flushed
      refine ⟨⟨path, kept, ?_, ?_⟩, .opened ⟨⟨moves'.isOpen.handle, moves'.isOpen.known,
        moves'.isOpen.bytes, moves'.isOpen.offset⟩, moves'.linked, moves'.moved⟩⟩
      · exact congrArg (· + 1) readOps
      · exact congrArg (· + UInt64.ofNat length) readBytes

theorem Refines.keep_leads (h : Refines path base log f d) :
    Leads keep (f, d) (fun _ q => Refines path base { log with kept := true } q.1 q.2)
      (fun _ _ => False) := by
  obtain ⟨⟨path, -, readOps, readBytes⟩, stores⟩ := h
  refine Leads.of_modify₂ ⟨⟨path, rfl, readOps, readBytes⟩, ?_⟩
  cases stores with
  | unopened unopened content same idle =>
    exact .unopened ⟨unopened.handle, unopened.pending⟩ content same idle
  | opened moves =>
    exact .opened ⟨⟨moves.isOpen.handle, moves.isOpen.known, moves.isOpen.bytes,
      moves.isOpen.offset⟩, moves.linked, moves.moved⟩

/-! ## Calls, one after another -/

theorem replying_of {α : Type} {op : Action α} {tell : α → Reply}
    {P : Reply → SpillFile × Disk → Prop}
    (leads : Leads op (f, d) (fun a q => P (tell a) q) fun e q => P (.failed e) q)
    {reply : Reply} {g : SpillFile} {e : Disk}
    (h : ((replying op tell).run f).run d = ((reply, g), e)) : P reply (g, e) := by
  rw [replying, StateT.run_bind, StateT.run_bind] at h
  obtain ⟨a, ⟨g', e'⟩, hrun, post⟩ | ⟨err, ⟨g', e'⟩, hrun, post⟩ := leads.outcome
  · rw [Leads.run_run_run hrun] at h
    cases h
    exact post
  · rw [Leads.run_run_run hrun] at h
    cases h
    exact post

/-- What a call comes to: the disk fails, or the log answers. -/
inductive Comes (path : Path) (base : ByteArray) (log : Log) (call : Call) :
    Reply → SpillFile × Disk → Prop
  | failed {e : SortError} {q : SpillFile × Disk} (failure : e.IsDiskFailure) :
      Comes path base log call (.failed e) q
  | answered {reply : Reply} {q : SpillFile × Disk} (same : reply = log.answer path call)
      (refines : Refines path base (log.after call) q.1 q.2) : Comes path base log call reply q

theorem Refines.comes (h : Refines path base log f d) {call : Call} {reply : Reply}
    {g : SpillFile} {e : Disk} (run : ((perform call).run f).run d = ((reply, g), e)) :
    Comes path base log call reply (g, e) := by
  have failed {call : Call} (e : SortError) (q : SpillFile × Disk) (failure : e.IsDiskFailure) :
      Comes path base log call (.failed e) q := .failed failure
  cases call with
  | write data =>
    apply replying_of (P := Comes path base log _) ((h.write_leads data).mono ?_ failed) run
    rintro _ q ⟨rfl, refines⟩
    exact .answered rfl refines
  | flush =>
    apply replying_of (P := Comes path base log _) (h.flush_leads.mono ?_ failed) run
    exact fun _ _ refines => .answered rfl refines
  | currentOffset =>
    apply replying_of (P := Comes path base log _) (h.currentOffset_leads.mono ?_ failed) run
    rintro _ q ⟨rfl, refines⟩
    exact .answered rfl refines
  | read offset length =>
    apply replying_of (P := Comes path base log _) ((h.read_leads offset length).mono ?_ ?_) run
    · exact fun _ _ answered => .answered answered.1 answered.2
    · rintro e q (failure | ⟨same, refines⟩)
      · exact .failed failure
      · exact .answered same refines
  | keep =>
    apply replying_of (P := Comes path base log _) (h.keep_leads.mono ?_ ?_) run
    · exact fun _ _ refines => .answered rfl refines
    · exact fun _ _ impossible => impossible.elim

/-- Unless the disk fails, a call answers what the log does. -/
theorem Refines.perform (h : Refines path base log f d) {call : Call} {reply : Reply}
    {g : SpillFile} {e : Disk} (run : ((perform call).run f).run d = ((reply, g), e))
    (healthy : ∀ err ∈ reply.error?, ¬ err.IsDiskFailure) :
    reply = log.answer path call ∧ Refines path base (log.after call) g e := by
  cases h.comes run with
  | failed failure => exact absurd failure (healthy _ rfl)
  | answered same refines => exact ⟨same, refines⟩

/-- Any number of calls answer what the log does. -/
theorem Refines.performAll (h : Refines path base log f d) {calls : List Call}
    {replies : List Reply} {g : SpillFile} {e : Disk}
    (run : ((performAll calls).run f).run d = ((replies, g), e))
    (healthy : ∀ reply ∈ replies, ∀ err ∈ reply.error?, ¬ err.IsDiskFailure) :
    replies = log.answers path calls ∧ Refines path base (calls.foldl Log.after log) g e := by
  induction calls generalizing log f d replies with
  | nil =>
    cases run
    exact ⟨rfl, h⟩
  | cons call rest ih =>
    rcases hcall : ((SpillFile.perform call).run f).run d with ⟨⟨reply, f₁⟩, d₁⟩
    rcases hrest : ((SpillFile.performAll rest).run f₁).run d₁ with ⟨⟨others, f₂⟩, d₂⟩
    have both : ((SpillFile.performAll (call :: rest)).run f).run d =
        ((reply :: others, f₂), d₂) := by
      rw [SpillFile.performAll, StateT.run_bind, StateT.run_bind, hcall]
      show ((StateT.run (SpillFile.performAll rest >>= _) f₁).run d₁) = _
      rw [StateT.run_bind, StateT.run_bind, hrest]
      rfl
    cases run.symm.trans both
    obtain ⟨first, others⟩ := List.forall_mem_cons.mp healthy
    obtain ⟨rfl, refines⟩ := h.perform hcall first
    obtain ⟨rfl, refines'⟩ := ih refines hrest others
    exact ⟨rfl, refines'⟩

/-! ## Closing -/

/-- Behind what was there before lies on disk what was moved, and the rest is buffered. -/
theorem Refines.moved (h : Refines path base log f d) :
    ∃ moved, d.ContentIs path (base ++ moved) ∧ f.io.writeBytes.toNat = moved.size ∧
      base ++ moved ++ f.pending = log.bytes := by
  obtain ⟨⟨rfl, -⟩, stores⟩ := h
  cases stores with
  | unopened unopened content same idle =>
    refine ⟨.empty, ?_, by rw [idle]; rfl, ?_⟩
    · rwa [ByteArray.append_empty]
    · rw [unopened.pending, ByteArray.append_empty, ByteArray.append_empty, same]
  | opened moves =>
    obtain ⟨isOpen, linked, moved, content, counted⟩ := moves
    refine ⟨moved, ?_, counted, ?_⟩
    · rw [← content]
      exact Disk.contentIs_of_find (linked _ isOpen.handle).1
    · rw [← content]
      exact isOpen.bytes

/-- A file that stays is on disk with the whole log, if the rest of it can be written out. -/
theorem Refines.close_of_kept (h : Refines path base log f d) (kept : f.kept = true)
    {q : SpillFile × Disk} (flushes : Failing.runOn flush (f, d) = (.ok (), q)) :
    (f.close.run d).2.ContentIs path log.bytes := by
  have closed : (f.close.run d).2 = q.2 := by
    rw [close, if_pos kept]
    exact congrArg (·.2.2) flushes
  obtain ⟨moved, content, -, whole⟩ := (h.flush_leads.of_ok flushes).moved
  rw [(flush_calm f d).of_ok flushes, ByteArray.append_empty] at whole
  rw [closed, ← whole]
  exact content

/-- Of any other file nothing stays. -/
theorem Refines.close_of_not_kept (h : Refines path base log f d) (gone : f.kept = false)
    (node : Node) : (f.close.run d).2.find path ≠ .ok node := by
  obtain ⟨moved, content, -⟩ := h.moved
  rw [close, if_neg (by rw [gone]; exact Bool.false_ne_true), h.beside.path]
  exact Disk.find_of_remove content.not_directory node

end Calls

/-- A spill file that acts as an append-only log, which starts with what its path was about. -/
structure ActsAsLog (path : Path) (base : ByteArray) (calls : List Call) (replies : List Reply)
    (f : SpillFile) (d : Disk) : Prop where
  /-- It answers as the log does, wherever its buffer was written out. -/
  answers : replies = Log.answers path { bytes := base } calls
  kept : f.kept = (calls.foldl Log.after { bytes := base }).kept
  readOps : f.io.readOps = (calls.foldl Log.after { bytes := base }).readOps
  readBytes : f.io.readBytes = (calls.foldl Log.after { bytes := base }).readBytes
  /-- The bytes that were written are on disk, as many as the counter says, or buffered. -/
  moved : ∃ moved, d.ContentIs path (base ++ moved) ∧ f.io.writeBytes.toNat = moved.size ∧
    base ++ moved ++ f.pending = base ++ written calls
  /-- A file that stays is on disk with the whole log, if the rest of it can be written out. -/
  stays : f.kept = true → ∀ q, Failing.runOn flush (f, d) = (.ok (), q) →
    (f.close.run d).2.ContentIs path (base ++ written calls)
  /-- Of any other file nothing stays. -/
  goes : f.kept = false → ∀ node, (f.close.run d).2.find path ≠ .ok node

/-- A spill file is an append-only log to its users, unless the disk fails. -/
theorem acts_as_log {path : Path} {base : ByteArray} {d : Disk} (content : d.ContentIs path base)
    {calls : List Call} {replies : List Reply} {f : SpillFile} {d' : Disk}
    (run : ((performAll calls).run { path }).run d = ((replies, f), d'))
    (healthy : ∀ reply ∈ replies, ∀ e ∈ reply.error?, ¬ e.IsDiskFailure) :
    ActsAsLog path base calls replies f d' := by
  have fresh : Refines path base { bytes := base } { path } d :=
    ⟨⟨rfl, rfl, rfl, rfl⟩, .unopened ⟨rfl, rfl⟩ content rfl rfl⟩
  obtain ⟨answers, refines⟩ := fresh.performAll run healthy
  have bytes := Log.bytes_foldl_after { bytes := base } calls
  have beside := refines.beside
  refine ⟨answers, beside.kept, beside.readOps, beside.readBytes, ?_, fun kept q flushes => ?_,
    fun gone => refines.close_of_not_kept gone⟩
  · rw [← bytes]
    exact refines.moved
  · rw [← bytes]
    exact refines.close_of_kept kept flushes

/-- A disk with a file. -/
def twoDigits : Disk where
  entries := [([['f']], .file 0)]
  contents := #[⟨#[48, 49]⟩]
  small number h := by
    obtain rfl : number = 0 := by simpa using h
    exact (by decide : (ByteArray.mk #[48, 49]).size < Disk.offsetLimit)

/-- Calls on that file: one read finds a byte of the file and one that was written, another one
    wants more than there is. -/
def someCalls : List Call :=
  [.write ⟨#[50]⟩, .currentOffset, .read 1 2, .read 2 5, .write ⟨#[51, 52]⟩, .keep]

theorem acts_as_log_twoDigits :
    ∃ replies f d', ((performAll someCalls).run { path := ⟨"f"⟩ }).run twoDigits =
        ((replies, f), d') ∧
      twoDigits.ContentIs ⟨"f"⟩ ⟨#[48, 49]⟩ ∧
      (∀ reply ∈ replies, ∀ e ∈ reply.error?, ¬ e.IsDiskFailure) ∧
      ActsAsLog ⟨"f"⟩ ⟨#[48, 49]⟩ someCalls replies f d' := by
  have succeeds : ∀ reply ∈ (((performAll someCalls).run { path := ⟨"f"⟩ }).run twoDigits).1.1,
      ∀ e ∈ reply.error?, ¬ e.IsDiskFailure := by
    decide +kernel
  have leads : twoDigits.destination ⟨"f"⟩ = .ok [['f']] := rfl
  have content : twoDigits.ContentIs ⟨"f"⟩ ⟨#[48, 49]⟩ := .file leads rfl rfl
  rcases h : ((performAll someCalls).run { path := ⟨"f"⟩ }).run twoDigits with ⟨⟨replies, f⟩, d'⟩
  rw [h] at succeeds
  exact ⟨replies, f, d', rfl, content, succeeds, acts_as_log content h succeeds⟩

end SpillFile
end ExternalSort
