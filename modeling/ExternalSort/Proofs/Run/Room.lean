/-
  ExternalSort.Proofs.Run.Room

  Where nothing is in the way, a run is written.

  Without a hook a chunk is never longer than its records and a header. So a run
  is written if the disk has room for its records and a header for each of them,
  and if no record is so long that a chunk with it cannot be told by a header.
-/

import ExternalSort.Proofs.Run.Writer

namespace ExternalSort

open Storable (encode)

/-- Without a hook, a text that its header can tell is stored in no more bytes than it has. -/
theorem Chunk.encode_of_short (database : Option String) (path : Path) {records : ByteArray}
    (short : records.size < payloadLimit) :
    ∃ head payload, encode none database path records = .ok (head, payload) ∧
      head.size = headerSize ∧ payload.size ≤ records.size := by
  have limit : payloadLimit = 2147483648 := rfl
  have shrinks : (shrink records).2.size ≤ records.size := by
    rw [shrink]
    split
    · dsimp only
      omega
    · exact Nat.le_refl _
  rcases encode_cases none database path records with
    ⟨long, -⟩ | ⟨_, refused, -⟩ | ⟨payload, same, ⟨long, -⟩ | ⟨-, -, succeeds⟩⟩
  · -- what the compressor refuses is longer still
    have range : UInt32.size = 4294967296 := rfl
    have long : UInt32.size ≤ Snappy.streamBound records.size := of_decide_eq_true long
    rw [Snappy.streamBound] at long
    omega
  · cases refused
  · obtain rfl := Except.ok.inj same
    omega
  · obtain rfl := Except.ok.inj same
    exact ⟨_, _, succeeds, size_head_encode succeeds, shrinks⟩

namespace Store

/-- The process may spill, and there is room for `n` bytes more in a file. -/
structure Roomy (n : Nat) (s : Store) (ref : FileRef) : Prop where
  known : s.Known ref
  permitted : s.spillForbidden = false
  room : (s.file ref).Roomy n s.disk

variable {s : Store} {ref : FileRef} {m n : Nat}

theorem Roomy.mono (roomy : s.Roomy n ref) (le : m ≤ n) : s.Roomy m ref :=
  ⟨roomy.known, roomy.permitted, roomy.room.mono le⟩

theorem Roomy.retain (roomy : s.Roomy n ref) : ((retain ref).run s).2.Roomy n ref := by
  obtain ⟨file, disk⟩ := Prod.mk.inj (view_retain ref ref s)
  have around := around_retain ref s
  refine ⟨around.known roomy.known, around.forbidden.trans roomy.permitted, ?_⟩
  rw [file, disk]
  exact roomy.room

/-- An operation on the file that takes some of the room. -/
theorem onFile_roomy {α : Type} {action : SpillFile.Action α} (roomy : s.Roomy m ref)
    (takes : Leads action (s.view ref) (fun _ p => p.1.Roomy n p.2) fun _ _ => False) :
    Leads (onFile ref action) s (fun _ s' => s'.Roomy n ref) fun _ _ => False := by
  refine (onFile_leads roomy.known takes).mono ?_ fun _ _ h => h.1
  rintro _ s' ⟨room, around⟩
  exact ⟨around.known roomy.known, around.forbidden.trans roomy.permitted, room⟩

end Store

namespace RunWriter

variable {w : RunWriter} {s : Store} {file : FileRef} {n : Nat}

/-- A writer without a hook, with room in its file for the chunk that it has begun, and for `n` bytes
    more. -/
structure Roomy (n : Nat) (w : RunWriter) (file : FileRef) (s : Store) : Prop where
  bare : w.protector = none
  sameFile : w.file = file
  short : w.buffer.size ≤ chunkThreshold
  room : s.Roomy (Chunk.headerSize + w.buffer.size + n) file

/-- A chunk takes the room of its header and its records. -/
theorem cutChunk_roomy (bare : w.protector = none) (same : w.file = file)
    (short : w.buffer.size < Chunk.payloadLimit)
    (roomy : s.Roomy (Chunk.headerSize + w.buffer.size + n) file) :
    Leads cutChunk (w, s) (fun _ p => p.1 = { w with buffer := .empty } ∧ p.2.Roomy n file)
      fun _ _ => False := by
  obtain ⟨head, payload, encoded, headSize, payloadSize⟩ :=
    Chunk.encode_of_short w.database w.path short
  subst same
  apply cutChunk_of
  · intro none
    exact ⟨by rw [← none], roomy.mono (Nat.le_add_left _ _)⟩
  · rw [bare, encoded]
    exact fun _ refused => by cases refused
  · rw [bare, encoded]
    rintro _ _ ⟨⟩
    have first : s.Roomy (head.size + (payload.size + n)) w.file := roomy.mono (by omega)
    refine (Store.onFile_roomy first (SpillFile.write_roomy first.room)).mono ?_ fun _ _ h => h
    intro _ t second
    refine (Store.onFile_roomy second (SpillFile.write_roomy second.room)).mono ?_ fun _ _ h => h
    exact fun _ u rest => ⟨rfl, rest⟩

variable {ρ : Type} [Storable ρ]

/-- A chunk that ends with the record can be told by its header. -/
def Short (x : ρ) : Prop := chunkThreshold + (encode x).size < Chunk.payloadLimit

/-- The most bytes that a record adds to a run: its own, and those of a header. -/
def takenBy (x : ρ) : Nat := Chunk.headerSize + (encode x).size

theorem add_roomy {x : ρ} (short : Short x) (roomy : w.Roomy (takenBy x + n) file s) :
    Leads (add x) (w, s) (fun _ p => p.1.Roomy n file p.2) fun _ _ => False := by
  obtain ⟨bare, same, within, room⟩ := roomy
  have size : (w.take x).buffer.size = w.buffer.size + (encode x).size := ByteArray.size_append
  rw [takenBy] at room
  rw [Short] at short
  -- the header is for the next chunk, should this one end with the record
  have taken : s.Roomy (Chunk.headerSize + (w.take x).buffer.size + (Chunk.headerSize + n)) file :=
    room.mono (by omega)
  apply add_of
  · intro few
    exact ⟨bare, same, few, taken.mono (Nat.add_le_add_left (Nat.le_add_left _ _) _)⟩
  · intro _
    refine (cutChunk_roomy (w := w.take x) bare same (by omega) taken).mono ?_ fun _ _ h => h
    rintro _ ⟨_, t⟩ ⟨rfl, rest⟩
    exact ⟨bare, same, Nat.zero_le _, rest⟩

theorem addAll_roomy {xs : List ρ} (short : ∀ x ∈ xs, Short x)
    (roomy : w.Roomy (charge takenBy xs + n) file s) :
    Leads (addAll xs) (w, s) (fun _ p => p.1.Roomy n file p.2) fun _ _ => False := by
  induction xs generalizing w s with
  | nil =>
    rw [charge, Nat.zero_add] at roomy
    exact Leads.of_pure roomy
  | cons x xs ih =>
    rw [charge_cons, Nat.add_assoc] at roomy
    obtain ⟨shortHere, shortThere⟩ := List.forall_mem_cons.mp short
    refine Leads.seq (add_roomy shortHere roomy) ?_ fun _ _ h => h
    exact fun _ p roomy' => ih shortThere roomy'

omit [Storable ρ] in
theorem finish_roomy (roomy : w.Roomy n file s) :
    Leads (finish w : SpillM (RunReader ρ)) s (fun _ s' => s'.Roomy n file) fun _ _ => False := by
  obtain ⟨bare, rfl, within, room⟩ := roomy
  have short : w.buffer.size < Chunk.payloadLimit := Nat.lt_of_le_of_lt within (by decide)
  apply finish_of
  apply finishExtent_of
  refine (cutChunk_roomy bare rfl short room).mono ?_ fun _ _ h => h
  rintro _ ⟨_, t⟩ ⟨rfl, rest⟩
  exact Store.onFile_roomy rest (SpillFile.currentOffset_roomy rest.room)

/-- A run that begins takes the room of its first header. -/
theorem begin_roomy {options : Options} (directory : options.hasSpillDirectory = true)
    (bare : options.activeProtector = none) (roomy : s.Roomy (Chunk.headerSize + n) file) :
    Leads (begin options file) s (fun w s' => w.Roomy n file s') fun _ _ => False := by
  apply begin_of
  · rw [Options.checkPermitted, roomy.permitted, Bool.and_false]
    exact fun _ refused => by cases refused
  · exact fun none => absurd (directory.symm.trans none) (by simp)
  · refine (Store.onFile_roomy roomy (SpillFile.currentOffset_roomy roomy.room)).mono ?_
      fun _ _ h => h
    rintro start t rest _ rfl
    exact ⟨bare, rfl, Nat.zero_le _, rest.retain⟩

end RunWriter
end ExternalSort
