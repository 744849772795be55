/-
  ExternalSort.Proofs.Spill.Retries

  What a spill file holds when writing it out failed half way.

  A disk that becomes full takes a part of the buffer, and once there is space the
  whole buffer is written again. What the attempts that failed have left stays in
  the file, so all that was still buffered stands that much later than its writers
  were told. What had reached the disk before stays where it was.
-/

import ExternalSort.Proofs.Spill.AppendOnly

namespace ExternalSort
namespace SpillFile

/-! ## Events -/

/-- What can happen to a file. -/
inductive Event
  | call (call : Call)
  /-- The space that is left on the disk changes. -/
  | space (free : Option Nat)

/-- A call, carried out on a file and a disk. -/
def Call.on (call : Call) (s : SpillFile × Disk) : Reply × SpillFile × Disk :=
  let ((reply, f), d) := ((perform call).run s.1).run s.2
  (reply, f, d)

/-- The bytes that a call writes. -/
def Call.bytes : Call → ByteArray
  | .write data => data
  | .flush | .currentOffset | .read _ _ | .keep => .empty

/-- The end of the file that a reply tells. -/
def Reply.offset? : Reply → Option Nat
  | .offset stop => some stop
  | _ => none

/-- What a call that failed has left on disk of a buffer that is still to be written out. -/
def Reply.leaves (reply : Reply) (before : Disk) (after : SpillFile × Disk) : Nat :=
  match reply with
  | .done | .offset _ | .found _ => 0
  | .failed _ =>
    match after.1.handle with
    | none => 0
    | some h => if after.1.pending.isEmpty then 0 else after.2.sizeOf h - before.sizeOf h

namespace Event

/-- The file and the disk after an event. -/
def after (s : SpillFile × Disk) : Event → SpillFile × Disk
  | .call c => (c.on s).2
  | .space free => (s.1, { s.2 with free := free })

/-- How many bytes an event leaves behind. -/
def leaves (s : SpillFile × Disk) : Event → Nat
  | .call c => (c.on s).1.leaves s.2 (c.on s).2
  | .space _ => 0

end Event

/-- How many bytes events leave behind. -/
def leftBy : SpillFile × Disk → List Event → Nat
  | _, [] => 0
  | s, event :: rest => event.leaves s + leftBy (event.after s) rest

/-- How many bytes events leave behind until nothing is buffered. -/
def leftUntilMoved : SpillFile × Disk → List Event → Nat
  | _, [] => 0
  | s, event :: rest =>
    if s.1.pending.isEmpty then 0 else event.leaves s + leftUntilMoved (event.after s) rest

/-! ## What a call comes to -/

theorem gather_empty (f : SpillFile) : f.gather .empty = f := by
  rw [gather, ByteArray.append_empty]
  rfl

/-- A file that can be used: it is open, or it was not opened yet. -/
def Ready (s : SpillFile × Disk) : Prop :=
  s.1.Unopened ∨ ∃ h, s.1.handle = some h ∧ s.2.Known h

/-- The file as it is once a call has opened it. -/
structure Opens (s : SpillFile × Disk) (h : Handle) (p : SpillFile × Disk) : Prop where
  handle : p.1.handle = some h
  known : p.2.Known h
  bytes : p.2.bytesOf h = s.2.bytesOf h
  start : p = s ∨ s.1.Unopened ∧ p.1.pending = .empty ∧ p.1.offset = (p.2.bytesOf h).size

/-- What becomes of the buffer of an open file: it stays as it is, and only a call that fails
    leaves some of it on disk then, or all of it is moved there. -/
inductive Settles (reply : Reply) (h : Handle) (s s' : SpillFile × Disk) : Prop
  | waits {part : ByteArray} (handle : s'.1.handle = some h) (offset : s'.1.offset = s.1.offset)
      (buffer : s'.1.pending = s.1.pending) (written : Disk.Written h part s.2 s'.2)
      (told : part = .empty ∨ reply.error?.isSome ∧ s.1.pending ≠ .empty)
  | moves (handle : s'.1.handle = some h) (offset : s'.1.offset = s.1.offset)
      (buffer : s'.1.pending = .empty) (written : Disk.Written h s.1.pending s.2 s'.2)

/-- What a call comes to: its file is not opened, or its bytes are buffered, and the buffer
    settles. -/
inductive Becomes (call : Call) (s : SpillFile × Disk) (reply : Reply) (s' : SpillFile × Disk) : Prop
  | unopened (before : s.1.Unopened) (after : s'.1.Unopened) (untold : reply.offset? = none)
  | opened {h : Handle} {p : SpillFile × Disk} (opens : Opens s h p)
      (settles : Settles reply h (p.1.gather call.bytes, p.2) s')
      (told : reply.offset? = none ∨ reply.offset? = some s'.1.offset)

variable {s s' p : SpillFile × Disk} {f : SpillFile} {d : Disk} {h : Handle} {reply : Reply}

/-- Nothing happens to what is buffered and to the disk. -/
theorem Settles.same (handle : s.1.handle = some h) (known : s.2.Known h)
    (same : s'.1.handle = s.1.handle ∧ s'.1.offset = s.1.offset ∧ s'.1.pending = s.1.pending)
    (disk : s'.2 = s.2) : Settles reply h s s' := by
  obtain ⟨handle', offset, buffer⟩ := same
  refine .waits (handle'.trans handle) offset buffer ?_ (.inl rfl)
  rw [disk]
  exact .nothing known

theorem Settles.offset (settles : Settles reply h s s') : s'.1.offset = s.1.offset := by
  cases settles with
  | waits _ offset _ _ _ => exact offset
  | moves _ offset _ _ => exact offset

/-- A call that writes nothing. -/
theorem Becomes.of_settles {call : Call} (blank : call.bytes = .empty) (opens : Opens s h p)
    (settles : Settles reply h p s')
    (told : reply.offset? = none ∨ reply.offset? = some s'.1.offset) : Becomes call s reply s' := by
  refine .opened opens ?_ told
  rw [blank, gather_empty]
  exact settles

theorem ensureOpen_opens (ready : Ready s) :
    Leads ensureOpen s (fun h p => Opens s h p)
      (fun _ p => s.1.Unopened ∧ p.1.Unopened) := by
  apply ensureOpen_of
  · intro h handle
    rcases ready with unopened | ⟨h', handle', known⟩
    · cases unopened.handle.symm.trans handle
    · obtain rfl := Option.some.inj (handle'.symm.trans handle)
      exact ⟨handle, known, rfl, .inl rfl⟩
  · intro none
    have unopened : s.1.Unopened := by
      rcases ready with unopened | ⟨h, handle, -⟩
      · exact unopened
      · cases handle.symm.trans none
    refine (Disk.makeParents_deepens s.1.path s.2).mono ?_ fun _ _ _ => ⟨unopened, unopened⟩
    intro _ e deepened
    have opens := (Disk.openAppend_leads s.1.path e).and (Disk.openAppend_bytes s.1.path e)
    refine opens.mono ?_ fun _ _ _ => ⟨unopened, unopened⟩
    rintro h e' ⟨opened, bytes⟩
    -- making directories changes no file
    have same : e.bytesOf h = s.2.bytesOf h := by
      cases h with
      | fullDevice => rfl
      | file number =>
        show e.content number = s.2.content number
        rw [Disk.content, Disk.content, deepened.contents]
    exact ⟨rfl, opened.known, bytes.trans same, .inr ⟨unopened, unopened.pending, e'.sizeOf_eq h⟩⟩

/-- The buffer is moved to the disk, or the call fails. -/
theorem flush_settles (handle : f.handle = some h) (known : d.Known h) :
    Leads flush (f, d)
      (fun _ q => q.1.pending = .empty ∧ ∀ reply, Settles reply h (f, d) q)
      (fun e q => Settles (.failed e) h (f, d) q) := by
  apply (flush_moves handle known).mono
  · rintro _ ⟨_, e⟩ ⟨rfl, written⟩
    exact ⟨rfl, fun _ => .moves handle rfl rfl written⟩
  · rintro e ⟨_, e'⟩ ⟨-, stuck, rfl, part, written⟩
    exact .waits handle rfl rfl written (.inr ⟨rfl, stuck.some⟩)

theorem write_becomes (ready : Ready s) (data : ByteArray) :
    Leads (write data) s (fun stop q => Becomes (.write data) s (.offset stop) q)
      (fun e q => Becomes (.write data) s (.failed e) q) := by
  apply write_of
  refine (ensureOpen_opens ready).mono ?_ fun e q post => .unopened post.1 post.2 rfl
  rintro h ⟨g, e⟩ opens
  refine ⟨fun _ => ?_, fun _ => ?_⟩
  · have settles : Settles (.offset (g.gather data).offset) h (g.gather data, e) (g.gather data, e) :=
      .same opens.handle opens.known ⟨rfl, rfl, rfl⟩ rfl
    exact .opened opens settles (.inr rfl)
  · refine (flush_settles (f := g.gather data) opens.handle opens.known).mono ?_ ?_
    · exact fun _ q post => .opened opens (post.2 _) (.inr rfl)
    · exact fun e q settles => .opened opens settles (.inl rfl)

theorem currentOffset_becomes (ready : Ready s) :
    Leads currentOffset s (fun stop q => Becomes .currentOffset s (.offset stop) q)
      (fun e q => Becomes .currentOffset s (.failed e) q) := by
  apply currentOffset_of
  refine (ensureOpen_opens ready).mono ?_ fun e q post => .unopened post.1 post.2 rfl
  rintro h p opens
  have settles : Settles (.offset p.1.offset) h p p :=
    .same opens.handle opens.known ⟨rfl, rfl, rfl⟩ rfl
  exact .of_settles rfl opens settles (.inr rfl)

theorem flush_becomes (ready : Ready s) :
    Leads flush s (fun _ q => Becomes .flush s .done q)
      (fun e q => Becomes .flush s (.failed e) q) := by
  rcases ready with unopened | ⟨h, handle, known⟩
  · exact Leads.of_runOn_ok (flush_of_empty unopened.pending s.2) (.unopened unopened unopened rfl)
  · have opens : Opens s h s := ⟨handle, known, rfl, .inl rfl⟩
    apply (flush_settles handle known).mono
    · exact fun _ _ post => .of_settles rfl opens (post.2 _) (.inl rfl)
    · exact fun _ _ settles => .of_settles rfl opens settles (.inl rfl)

theorem read_becomes (ready : Ready s) (offset length : Nat) :
    Leads (read offset length) s (fun found q => Becomes (.read offset length) s (.found found) q)
      (fun e q => Becomes (.read offset length) s (.failed e) q) := by
  apply read_of
  refine (ensureOpen_opens ready).mono ?_ fun e q post => .unopened post.1 post.2 rfl
  rintro h ⟨g, e⟩ opens
  refine (flush_settles opens.handle opens.known).mono ?_
    fun _ _ settles => .of_settles rfl opens settles (.inl rfl)
  rintro _ q ⟨-, settles⟩
  -- what follows changes nothing but a counter
  refine (fetch_keeps h offset length q).mono ?_ ?_
  · rintro found _ rfl
    refine ⟨fun _ => .of_settles rfl opens (settles _) (.inl rfl), fun _ => ?_⟩
    · refine .of_settles rfl opens ?_ (.inl rfl)
      cases settles (.found found) with
      | waits handle offset buffer written told => exact .waits handle offset buffer written told
      | moves handle offset buffer written => exact .moves handle offset buffer written
  · rintro e _ rfl
    exact .of_settles rfl opens (settles _) (.inl rfl)

theorem keep_becomes (ready : Ready s) :
    Leads keep s (fun _ q => Becomes .keep s .done q) (fun _ _ => False) := by
  refine Leads.of_modify₂ ?_
  rcases ready with unopened | ⟨h, handle, known⟩
  · exact .unopened unopened ⟨unopened.handle, unopened.pending⟩ rfl
  · have opens : Opens s h s := ⟨handle, known, rfl, .inl rfl⟩
    exact .of_settles rfl opens (.same handle known ⟨rfl, rfl, rfl⟩ rfl) (.inl rfl)

theorem Call.on_of {α : Type} {op : Action α} {tell : α → Reply}
    {P : Reply → SpillFile × Disk → Prop} {call : Call} (same : perform call = replying op tell)
    (leads : Leads op s (fun a q => P (tell a) q) fun e q => P (.failed e) q) :
    P (call.on s).1 (call.on s).2 := by
  obtain ⟨f, d⟩ := s
  rcases run : ((perform call).run f).run d with ⟨⟨reply, g⟩, e⟩
  have on : call.on (f, d) = (reply, g, e) := by rw [Call.on, run]
  rw [same] at run
  rw [on]
  exact replying_of leads run

/-- What each call comes to. -/
theorem Call.on_becomes (ready : Ready s) (call : Call) :
    Becomes call s (call.on s).1 (call.on s).2 := by
  cases call with
  | write data => exact on_of rfl (write_becomes ready data)
  | flush => exact on_of rfl (flush_becomes ready)
  | currentOffset => exact on_of rfl (currentOffset_becomes ready)
  | read offset length => exact on_of rfl (read_becomes ready offset length)
  | keep =>
    exact on_of rfl ((keep_becomes ready).mono (fun _ _ post => post)
      fun _ _ impossible => impossible.elim)

theorem pending_of_flushed (moved : Call.flush.on s = (.done, s')) : s'.1.pending = .empty := by
  have emptied : (Call.flush.on s).1 = .done → (Call.flush.on s).2.1.pending = .empty := by
    apply Call.on_of (P := fun reply q => reply = .done → q.1.pending = .empty) rfl
    exact (flush_calm s.1 s.2).mono (fun _ _ none _ => none) fun _ _ _ failed => by cases failed
  rw [moved] at emptied
  exact emptied rfl

/-! ## What is left behind -/

variable {extra start place : Nat} {data : ByteArray}

/-- An open file that is longer than its writers were told, with what is buffered. -/
structure Longer (extra : Nat) (h : Handle) (s : SpillFile × Disk) : Prop where
  handle : s.1.handle = some h
  known : s.2.Known h
  size : (s.2.bytesOf h).size + s.1.pending.size = s.1.offset + extra

/-- A file that is longer than its writers were told, if it is open. -/
inductive Ahead (extra : Nat) (s : SpillFile × Disk) : Prop
  | unopened (unopened : s.1.Unopened) (none : extra = 0)
  | opened {h : Handle} (longer : Longer extra h s)

theorem Ahead.ready (ahead : Ahead extra s) : Ready s := by
  cases ahead with
  | unopened unopened none => exact .inl unopened
  | opened longer => exact .inr ⟨_, longer.handle, longer.known⟩

theorem Ahead.opens (ahead : Ahead extra s) (opens : Opens s h p) : Longer extra h p := by
  refine ⟨opens.handle, opens.known, ?_⟩
  obtain rfl | ⟨unopened, pending, offset⟩ := opens.start
  · cases ahead with
    | unopened unopened none => cases unopened.handle.symm.trans opens.handle
    | opened longer =>
      obtain rfl := Option.some.inj (longer.handle.symm.trans opens.handle)
      exact longer.size
  · cases ahead with
    | unopened _ none => rw [pending, offset, none, ByteArray.size_empty]
    | opened longer => cases unopened.handle.symm.trans longer.handle

theorem Longer.gather (longer : Longer extra h (f, d)) (data : ByteArray) :
    Longer extra h (f.gather data, d) := by
  refine ⟨longer.handle, longer.known, ?_⟩
  have size := longer.size
  simp only [SpillFile.gather, ByteArray.size_append] at size ⊢
  omega

theorem Reply.leaves_of_pending (none : s'.1.pending = .empty) : reply.leaves d s' = 0 := by
  cases reply with
  | done | offset | found => rfl
  | failed e =>
    rw [Reply.leaves]
    split
    · rfl
    · rw [if_pos (bytes_isEmpty_iff.mpr none)]

theorem Reply.leaves_of_offset {stop : Nat} (told : reply.offset? = some stop) :
    reply.leaves d s' = 0 := by
  cases reply with
  | offset => rfl
  | done | found | failed => cases told

/-- What a call leaves behind when the buffer stays is what got on disk. -/
theorem Reply.leaves_of_waits {part : ByteArray} (handle : s'.1.handle = some h)
    (buffer : s'.1.pending = s.1.pending) (content : s'.2.bytesOf h = d.bytesOf h ++ part)
    (told : part = .empty ∨ reply.error?.isSome ∧ s.1.pending ≠ .empty) :
    reply.leaves d s' = part.size := by
  have more : s'.2.sizeOf h - d.sizeOf h = part.size := by
    rw [Disk.sizeOf_eq, Disk.sizeOf_eq, content, ByteArray.size_append, Nat.add_sub_cancel_left]
  cases reply with
  | done | offset | found =>
    obtain rfl | ⟨failed, -⟩ := told
    · rfl
    · cases failed
  | failed e =>
    rw [Reply.leaves, handle]
    dsimp only
    rw [more]
    obtain rfl | ⟨-, some⟩ := told
    · split <;> rfl
    · rw [buffer, if_neg (mt bytes_isEmpty_iff.mp some)]

/-- The file gets ahead by what a call leaves behind. -/
theorem Longer.settles (longer : Longer extra h s) (settles : Settles reply h s s')
    (same : d.bytesOf h = s.2.bytesOf h) : Longer (extra + reply.leaves d s') h s' := by
  have size := longer.size
  cases settles with
  | waits handle offset buffer written told =>
    rw [Reply.leaves_of_waits handle buffer (same ▸ written.content) told]
    refine ⟨handle, written.known, ?_⟩
    rw [written.content, ByteArray.size_append, buffer, offset]
    omega
  | moves handle offset buffer written =>
    rw [Reply.leaves_of_pending buffer]
    refine ⟨handle, written.known, ?_⟩
    rw [written.content, ByteArray.size_append, buffer, offset, ByteArray.size_empty]
    omega

theorem bytesOf_free (d : Disk) (free : Option Nat) (h : Handle) :
    Disk.bytesOf { d with free := free } h = d.bytesOf h := by
  cases h <;> rfl

theorem known_free (known : d.Known h) (free : Option Nat) :
    Disk.Known { d with free := free } h := by
  cases h <;> exact known

theorem Ahead.after (ahead : Ahead extra s) (event : Event) :
    Ahead (extra + event.leaves s) (event.after s) := by
  cases event with
  | space free =>
    cases ahead with
    | unopened unopened none => exact .unopened unopened none
    | opened longer =>
      refine .opened ⟨longer.handle, known_free longer.known free, ?_⟩
      rw [Event.after, bytesOf_free]
      exact longer.size
  | call c =>
    have becomes := Call.on_becomes ahead.ready c
    rw [Event.leaves, Event.after]
    cases becomes with
    | unopened before after untold =>
      cases ahead with
      | unopened unopened none =>
        exact .unopened after (by rw [none, Reply.leaves_of_pending after.pending])
      | opened longer => cases before.handle.symm.trans longer.handle
    | opened opens settles told =>
      have longer := (ahead.opens opens).gather c.bytes
      exact .opened (longer.settles settles opens.bytes.symm)

theorem Ahead.afterAll (ahead : Ahead extra s) (events : List Event) :
    Ahead (extra + leftBy s events) (events.foldl Event.after s) := by
  induction events generalizing s extra with
  | nil => exact ahead
  | cons event rest ih =>
    rw [leftBy, ← Nat.add_assoc, List.foldl_cons]
    exact ih (ahead.after event)

/-! ## Where bytes stand -/

/-- Bytes that are still buffered. Their writers were told that they begin at `start`. -/
structure Waits (start extra : Nat) (data : ByteArray) (h : Handle) (s : SpillFile × Disk) : Prop
    extends Longer extra h s where
  stands : ∃ pos, StandsAt data s.1.pending pos ∧ (s.2.bytesOf h).size + pos = start + extra

/-- Bytes that are on disk. -/
structure Lies (place : Nat) (data : ByteArray) (h : Handle) (s : SpillFile × Disk) : Prop where
  handle : s.1.handle = some h
  known : s.2.Known h
  stands : StandsAt data (s.2.bytesOf h) place

/-- Bytes that are still buffered, or were moved to the disk with everything else. -/
inductive Placed (start extra : Nat) (data : ByteArray) (h : Handle) (s : SpillFile × Disk) : Prop
  | waits (waits : Waits start extra data h s)
  | lies (lies : Lies (start + extra) data h s) (none : s.1.pending = .empty)

/-- Bytes that are buffered stand on disk behind what is there. -/
theorem Waits.written (waits : Waits start extra data h s)
    (written : Disk.Written h s.1.pending s.2 s'.2) (handle : s'.1.handle = some h) :
    Lies (start + extra) data h s' := by
  obtain ⟨pos, stands, at_⟩ := waits.stands
  refine ⟨handle, written.known, ?_⟩
  rw [written.content, ← at_]
  exact stands.prepend _

theorem Placed.lies_of_empty (placed : Placed start extra data h s) (none : s.1.pending = .empty) :
    Lies (start + extra) data h s := by
  cases placed with
  | lies lies _ => exact lies
  | waits waits =>
    apply waits.written _ waits.handle
    rw [none]
    exact .nothing waits.known

theorem Waits.settles (waits : Waits start extra data h s) (settles : Settles reply h s s') :
    Placed start (extra + reply.leaves s.2 s') data h s' := by
  have longer := waits.toLonger.settles settles rfl
  cases settles with
  | waits handle offset buffer written told =>
    obtain ⟨pos, stands, at_⟩ := waits.stands
    refine .waits ⟨longer, pos, by rwa [buffer], ?_⟩
    rw [Reply.leaves_of_waits handle buffer written.content told, written.content,
      ByteArray.size_append]
    omega
  | moves handle offset buffer written =>
    rw [Reply.leaves_of_pending buffer]
    exact .lies (waits.written written handle) buffer

theorem Waits.gather (waits : Waits start extra data h (f, d)) (more : ByteArray) :
    Waits start extra data h (f.gather more, d) := by
  obtain ⟨pos, stands, at_⟩ := waits.stands
  exact ⟨waits.toLonger.gather more, pos, stands.append more, at_⟩

/-- An open file is not opened again. -/
theorem Opens.eq {h' : Handle} (opens : Opens s h' p) (handle : s.1.handle = some h) :
    p = s ∧ h' = h := by
  obtain rfl | ⟨unopened, -⟩ := opens.start
  · exact ⟨rfl, Option.some.inj (opens.handle.symm.trans handle)⟩
  · cases unopened.handle.symm.trans handle

theorem Waits.after (waits : Waits start extra data h s) (event : Event) :
    Placed start (extra + event.leaves s) data h (event.after s) := by
  cases event with
  | space free =>
    obtain ⟨pos, stands, at_⟩ := waits.stands
    refine .waits ⟨⟨waits.handle, known_free waits.known free, ?_⟩, pos, stands, ?_⟩
    · rw [Event.after, bytesOf_free]
      exact waits.size
    · rw [Event.after, bytesOf_free]
      exact at_
  | call c =>
    have becomes := c.on_becomes (.inr ⟨h, waits.handle, waits.known⟩)
    rw [Event.leaves, Event.after]
    cases becomes with
    | unopened before after untold => cases before.handle.symm.trans waits.handle
    | opened opens settles told =>
      obtain ⟨rfl, rfl⟩ := opens.eq waits.handle
      exact (waits.gather c.bytes).settles settles

theorem Lies.after (lies : Lies place data h s) (event : Event) :
    Lies place data h (event.after s) := by
  cases event with
  | space free =>
    refine ⟨lies.handle, known_free lies.known free, ?_⟩
    rw [Event.after, bytesOf_free]
    exact lies.stands
  | call c =>
    have becomes := c.on_becomes (.inr ⟨h, lies.handle, lies.known⟩)
    rw [Event.after]
    cases becomes with
    | unopened before after untold => cases before.handle.symm.trans lies.handle
    | opened opens settles told =>
      obtain ⟨rfl, rfl⟩ := opens.eq lies.handle
      cases settles with
      | waits handle offset buffer written told =>
        exact ⟨handle, written.known, written.content ▸ lies.stands.append _⟩
      | moves handle offset buffer written =>
        exact ⟨handle, written.known, written.content ▸ lies.stands.append _⟩

theorem Lies.afterAll (lies : Lies place data h s) (events : List Event) :
    Lies place data h (events.foldl Event.after s) := by
  induction events generalizing s with
  | nil => exact lies
  | cons event rest ih => exact ih (lies.after event)

theorem leftUntilMoved_of_empty (none : s.1.pending = .empty) (events : List Event) :
    leftUntilMoved s events = 0 := by
  cases events with
  | nil => rfl
  | cons event rest => rw [leftUntilMoved, if_pos (bytes_isEmpty_iff.mpr none)]

/-- Bytes stay where they are once nothing was buffered, and until then they get later by what is
    left behind. -/
theorem Placed.afterAll (placed : Placed start extra data h s) (events : List Event) :
    Waits start (extra + leftUntilMoved s events) data h (events.foldl Event.after s) ∨
      Lies (start + (extra + leftUntilMoved s events)) data h (events.foldl Event.after s) := by
  induction events generalizing s extra with
  | nil =>
    cases placed with
    | waits waits => exact .inl waits
    | lies lies _ => exact .inr lies
  | cons event rest ih =>
    -- with nothing buffered the place is settled, whatever is left behind later
    by_cases none : s.1.pending = .empty
    · rw [leftUntilMoved_of_empty none]
      exact .inr ((placed.lies_of_empty none).afterAll _)
    · cases placed with
      | lies _ empty => exact absurd empty none
      | waits waits =>
        rw [leftUntilMoved, if_neg (mt bytes_isEmpty_iff.mp none), ← Nat.add_assoc]
        exact ih (waits.after event)

/-- Once it is flushed, everything is on disk. -/
theorem Placed.lies_of_flush (placed : Placed start extra data h s) {events : List Event}
    (moved : Call.flush.on (events.foldl Event.after s) = (.done, s')) :
    Lies (start + (extra + leftUntilMoved s events)) data h s' := by
  have after : (Event.call .flush).after (events.foldl Event.after s) = s' := by
    rw [Event.after, moved]
  rcases placed.afterAll events with waits | lies
  · have flushed := waits.after (.call .flush)
    rw [after, Event.leaves, moved] at flushed
    exact flushed.lies_of_empty (pending_of_flushed moved)
  · rw [← after]
    exact lies.after _

/-- Bytes on disk are read. Only writing out what is buffered can fail. -/
theorem Lies.read_leads (lies : Lies place data h s) :
    Leads (read place data.size) s (fun found _ => found = data)
      (fun e _ => e.IsDiskFailure ∧ s.1.pending ≠ .empty) := by
  obtain ⟨f, d⟩ := s
  apply read_of
  refine (ensureOpen_opens (.inr ⟨h, lies.handle, lies.known⟩)).mono ?_ ?_
  · rintro h' p opens
    obtain ⟨rfl, rfl⟩ := opens.eq lies.handle
    refine (flush_moves lies.handle lies.known).mono ?_ fun e _ post => ⟨post.1, post.2.1.some⟩
    rintro _ ⟨g, e⟩ ⟨rfl, written⟩
    have stands : StandsAt data (e.bytesOf h') place := by
      rw [written.content]
      exact lies.stands.append _
    refine (fetch_of_stands stands).mono ?_ fun _ _ impossible => impossible.elim
    rintro _ _ ⟨rfl, rfl⟩
    exact ⟨fun short => absurd short (Nat.lt_irrefl _), fun _ => rfl⟩
  · rintro _ _ ⟨unopened, -⟩
    cases unopened.handle.symm.trans lies.handle

/-! ## Reading back -/

/-- Once it was flushed, what was written is read back for good: behind the place that its writer
    was told, by what calls that failed had left in the file before it got there. -/
theorem reads_behind_leftovers {path : Path} {d : Disk} {before between : List Event}
    {data : ByteArray} {stop : Nat} {s s' : SpillFile × Disk}
    (wrote : (Call.write data).on (before.foldl Event.after ({ path }, d)) = (.offset stop, s))
    (moved : Call.flush.on (between.foldl Event.after s) = (.done, s')) (after : List Event) :
    let left := leftBy ({ path }, d) before + leftUntilMoved s between
    let now := after.foldl Event.after s'
    let reply := ((Call.read (stop - data.size + left) data.size).on now).1
    reply = .found data ∨
      ∃ e, reply = .failed e ∧ e.IsDiskFailure ∧ now.1.pending ≠ .empty := by
  have fresh : Ahead 0 (({ path }, d) : SpillFile × Disk) := .unopened ⟨rfl, rfl⟩ rfl
  have ahead := fresh.afterAll before
  have becomes := Call.on_becomes ahead.ready (.write data)
  rw [wrote] at becomes
  rw [Nat.zero_add] at ahead
  cases becomes with
  | unopened _ _ untold => cases untold
  | @opened h p opens settles told =>
    have longer := ahead.opens opens
    -- at first the bytes are the last of those buffered
    have waits : Waits p.1.offset (leftBy ({ path }, d) before) data h (p.1.gather data, p.2) :=
      ⟨longer.gather data, _, .behind _ _, longer.size⟩
    have start : stop - data.size = p.1.offset := by
      rcases told with none | some
      · cases none
      · rw [Option.some.inj some, settles.offset]
        exact Nat.add_sub_cancel _ data.size
    have placed := waits.settles settles
    -- the write itself left nothing behind, since it succeeded
    rw [Reply.leaves_of_offset rfl] at placed
    have lies := (placed.lies_of_flush moved).afterAll after
    rw [start]
    apply Call.on_of (P := fun reply _ => reply = .found data ∨ ∃ e, reply = .failed e ∧
      e.IsDiskFailure ∧ (after.foldl Event.after s').1.pending ≠ .empty) rfl
    exact lies.read_leads.mono (fun _ _ same => .inl (congrArg _ same))
      fun e _ failure => .inr ⟨e, rfl, failure⟩

/-- A disk on which three more bytes fit. -/
def almostFull : Disk := { (default : Disk) with free := some 3 }

/-- Six bytes. -/
def sixBytes : ByteArray := ⟨#[0, 1, 2, 3, 4, 5]⟩

/-- The buffer is flushed in vain, and then there is space. -/
def spaceAtLast : List Event := [.call .flush, .space none]

/-- A file to which they were written. -/
def sixWritten : SpillFile × Disk :=
  ((Call.write sixBytes).on ({ path := ⟨"f"⟩ }, almostFull)).2

/-- The file when they have been moved to the disk. -/
def sixMoved : SpillFile × Disk := (Call.flush.on (spaceAtLast.foldl Event.after sixWritten)).2

theorem reads_behind_leftovers_six :
    (Call.write sixBytes).on ({ path := ⟨"f"⟩ }, almostFull) = (.offset 6, sixWritten) ∧
      Call.flush.on (spaceAtLast.foldl Event.after sixWritten) = (.done, sixMoved) ∧
      leftUntilMoved sixWritten spaceAtLast = 3 ∧
      ((Call.read 3 6).on sixMoved).1 = .found sixBytes := by
  have wrote : (Call.write sixBytes).on ({ path := ⟨"f"⟩ }, almostFull) = (.offset 6, sixWritten) :=
    rfl
  have moved : Call.flush.on (spaceAtLast.foldl Event.after sixWritten) = (.done, sixMoved) :=
    rfl
  have left : leftUntilMoved sixWritten spaceAtLast = 3 := rfl
  have first : (Call.write sixBytes).on
      (([] : List Event).foldl Event.after ({ path := ⟨"f"⟩ }, almostFull)) =
        (.offset 6, sixWritten) := wrote
  have reads := reads_behind_leftovers first moved []
  rw [left] at reads
  refine ⟨wrote, moved, left, ?_⟩
  rcases reads with same | ⟨e, -, -, some⟩
  · exact same
  · exact absurd (pending_of_flushed moved) some

/-- Where their writer was told that they are, there are three of them and then the others. -/
theorem misreads_six :
    (Call.write sixBytes).on ({ path := ⟨"f"⟩ }, almostFull) = (.offset 6, sixWritten) ∧
      Call.flush.on (spaceAtLast.foldl Event.after sixWritten) = (.done, sixMoved) ∧
      ((Call.read 0 6).on sixMoved).1 = .found ⟨#[0, 1, 2, 0, 1, 2]⟩ := by
  exact ⟨rfl, rfl, rfl⟩

end SpillFile
end ExternalSort
