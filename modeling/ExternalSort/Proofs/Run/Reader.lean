/-
  ExternalSort.Proofs.Run.Reader

  Reading a run that stands in the log of its file.

  A run is chunks, back to back. While a reader gives out records, the rest of
  its chunk stands in its buffer and the other chunks stand in the log; the
  checksum that it has computed, continued over what is left, is the recorded
  one. Reading fails only while something of the log is left to be written out.
-/

import ExternalSort.Proofs.Record.Storable
import ExternalSort.Proofs.Run.Chunk
import ExternalSort.Proofs.Run.Stepping
import ExternalSort.Proofs.Source
import ExternalSort.Proofs.Spill.Store

namespace ExternalSort

open Storable (encode decode)

variable {ρ : Type} [Storable ρ]

/-! ## Records in bytes -/

/-- The byte forms of records, back to back. -/
def encodeRecords : List ρ → ByteArray
  | [] => .empty
  | r :: rest => encode r ++ encodeRecords rest

theorem encodeRecords_append (xs ys : List ρ) :
    encodeRecords (xs ++ ys) = encodeRecords xs ++ encodeRecords ys := by
  induction xs with
  | nil => rw [encodeRecords, ByteArray.empty_append, List.nil_append]
  | cons x xs ih => rw [List.cons_append, encodeRecords, encodeRecords, ih, ByteArray.append_assoc]

theorem encodeRecords_concat (xs : List ρ) (x : ρ) :
    encodeRecords (xs ++ [x]) = encodeRecords xs ++ encode x := by
  rw [encodeRecords_append, encodeRecords, encodeRecords, ByteArray.append_empty]

theorem encodeRecords_eq_nil {xs : List ρ} (takes : ∀ x ∈ xs, 0 < (encode x).size)
    (h : (encodeRecords xs).size = 0) : xs = [] := by
  cases xs with
  | nil => rfl
  | cons x xs =>
    have := takes x List.mem_cons_self
    rw [encodeRecords, ByteArray.size_append] at h
    omega

theorem encodeRecords_blank (blank : ∀ x : ρ, encode x = .empty) (xs : List ρ) :
    encodeRecords xs = .empty := by
  induction xs with
  | nil => rfl
  | cons x xs ih => rw [encodeRecords, blank x, ih, ByteArray.append_empty]

/-! ## Runs in a log -/

/-- Chunks of groups of records stand in a log, back to back. -/
inductive Chunks (hook : Option Protector) (database : Option String) (log : ByteArray) :
    (start stop : Nat) → List (List ρ) → Prop
  | nil {start : Nat} (inside : start ≤ log.size) : Chunks hook database log start start []
  | cons {start stop : Nat} {head payload : ByteArray} {group : List ρ} {groups : List (List ρ)}
      (holds : Chunk.Holds hook database head payload (encodeRecords group))
      (stands : StandsAt (head ++ payload) log start)
      (rest : Chunks hook database log (start + Chunk.headerSize + payload.size) stop groups) :
      Chunks hook database log start stop (group :: groups)

namespace Chunks

variable {hook : Option Protector} {database : Option String} {log : ByteArray}
  {start mid stop : Nat} {groups more : List (List ρ)}

theorem le (h : Chunks hook database log start stop groups) : start ≤ stop := by
  induction h with
  | nil => exact Nat.le_refl _
  | cons _ _ _ ih => omega

theorem le_size (h : Chunks hook database log start stop groups) : stop ≤ log.size := by
  induction h with
  | nil inside => exact inside
  | cons _ _ _ ih => exact ih

/-- Chunks stay where they are when the log gets longer. -/
theorem grow (h : Chunks hook database log start stop groups) (bytes : ByteArray) :
    Chunks hook database (log ++ bytes) start stop groups := by
  induction h with
  | nil inside => exact .nil (by rw [ByteArray.size_append]; omega)
  | cons holds stands _ ih => exact .cons holds (stands.append bytes) ih

/-- A chunk at the end of a log. -/
theorem behind (log : ByteArray) {head payload : ByteArray} {group : List ρ}
    (holds : Chunk.Holds hook database head payload (encodeRecords group)) :
    Chunks hook database (log ++ (head ++ payload)) log.size (log ++ (head ++ payload)).size
      [group] := by
  have size : (log ++ (head ++ payload)).size = log.size + Chunk.headerSize + payload.size := by
    rw [ByteArray.size_append, ByteArray.size_append, holds.size_header, Nat.add_assoc]
  refine .cons holds (StandsAt.behind _ _) ?_
  rw [size]
  exact .nil (Nat.le_of_eq size.symm)

theorem append (h : Chunks hook database log start mid groups)
    (k : Chunks hook database log mid stop more) :
    Chunks hook database log start stop (groups ++ more) := by
  induction h with
  | nil => exact k
  | cons holds stands _ ih => exact .cons holds stands (ih k)

end Chunks

/-! ## Stores that can be read from -/

namespace Store

/-- The log of a file. -/
structure Carries (s : Store) (ref : FileRef) (log : ByteArray) : Prop where
  known : s.Known ref
  holds : (s.file ref).Holds s.disk log

/-- The log of a file that is entirely on disk. -/
structure Ready (s : Store) (ref : FileRef) (log : ByteArray) : Prop where
  known : s.Known ref
  flushed : (s.file ref).Flushed s.disk log

variable {s : Store} {ref : FileRef} {log : ByteArray}

theorem Ready.carries (h : s.Ready ref log) : s.Carries ref log := by
  obtain ⟨handle, isOpen⟩ := h.flushed.isOpen
  exact ⟨h.known, .opened isOpen⟩

theorem Ready.release (h : s.Ready ref log) : ((release ref).run s).2.Ready ref log := by
  obtain ⟨known, flushed⟩ := flushed_release h.known h.flushed
  exact ⟨known, flushed⟩

/-- What reading and writing a run leaves alone. -/
structure Beside (ref : FileRef) (s s' : Store) : Prop extends Around s s' where
  frame : SpillFile.Frame (s.view ref) (s'.view ref)

theorem Beside.refl (ref : FileRef) (s : Store) : Beside ref s s :=
  ⟨Around.refl s, SpillFile.Frame.refl _⟩

theorem Beside.trans {ref : FileRef} {s t u : Store} (h : Beside ref s t) (k : Beside ref t u) :
    Beside ref s u :=
  ⟨h.toAround.trans k.toAround, h.frame.trans k.frame⟩

/-- Reading from a log puts it on disk. -/
theorem read_leads {bytes : ByteArray} {offset : Nat} (carries : s.Carries ref log)
    (stands : StandsAt bytes log offset) :
    Leads (onFile ref (SpillFile.read offset bytes.size)) s
      (fun found s' => found = bytes ∧ s'.Ready ref log ∧ s.Beside ref s')
      (fun e _ => e.IsDiskFailure ∧ (s.file ref).Stuck s.disk) := by
  refine (onFile_leads carries.known (SpillFile.read_leads carries.holds stands)).mono ?_ ?_
  · rintro found s' ⟨⟨eq, flushed, frame⟩, around⟩
    exact ⟨eq, ⟨around.known carries.known, flushed⟩, around, frame⟩
  · rintro e s' ⟨⟨failure, stuck, -, -⟩, -⟩
    exact ⟨failure, stuck⟩

end Store

namespace RunReader

variable {r : RunReader ρ} {xs : List ρ} {log : ByteArray} {s : Store}

/-- What a reader will give out: the rest of its chunk and the chunks behind it. -/
structure Reads (log : ByteArray) (r : RunReader ρ) (xs : List ρ) : Prop where
  isOpen : r.closed = false
  parts : ∃ here groups, xs = here ++ groups.flatten ∧
    StandsAt (encodeRecords here) r.buffer r.position ∧
    r.position + (encodeRecords here).size = r.buffer.size ∧
    Chunks r.protector r.database log r.readOffset r.stop groups ∧
    (r.loaded = true → groups = [])
  small : r.buffer.size < UInt32.size
  checksum : (r.checksum.update (encodeRecords xs)).value = r.extent.checksum

/-- What a reader reads stays where it is when the log gets longer. -/
theorem Reads.grow (reads : Reads log r xs) (bytes : ByteArray) : Reads (log ++ bytes) r xs := by
  obtain ⟨isOpen, ⟨here, groups, flat, stands, whole, chunks, loaded⟩, small, checksum⟩ := reads
  exact ⟨isOpen, ⟨here, groups, flat, stands, whole, chunks.grow bytes, loaded⟩, small, checksum⟩

omit [Storable ρ] in
/-- At the end of a run nothing more is loaded. -/
theorem loadChunk_ended (open_ : r.loaded = false) (ended : r.readOffset = r.stop) :
    Leads (r.loadChunk open_) s
      (fun r' s' => r'.1 = r.atEnd ∧ s' = s) fun _ _ => False := by
  apply loadChunk_of open_ (P := fun r' s' => r' = r.atEnd ∧ s' = s)
  · exact fun past => absurd past (by omega)
  · exact fun _ => ⟨rfl, rfl⟩
  · exact fun more _ => absurd more (by omega)
  · intro room
    simp only [Chunk.headerSize] at room
    omega

omit [Storable ρ] in
/-- The records of a chunk that stands next in the log are put into the buffer. -/
theorem loadChunk_of_holds (open_ : r.loaded = false) (carries : s.Carries r.file log)
    {head payload records : ByteArray}
    (holds : Chunk.Holds r.protector r.database head payload records)
    (stands : StandsAt (head ++ payload) log r.readOffset)
    (inside : r.readOffset + Chunk.headerSize + payload.size ≤ r.stop) :
    Leads (r.loadChunk open_) s
      (fun r' s' => r'.1 = r.holding payload.size records ∧ s'.Ready r.file log ∧
        s.Beside r.file s')
      (fun e _ => e.IsDiskFailure ∧ (s.file r.file).Stuck s.disk) := by
  obtain ⟨compressed, hread, hdecode⟩ := holds.read
  have room : r.readOffset < r.stop := by
    simp only [Chunk.headerSize] at inside
    omega
  apply loadChunk_of open_ (P := fun r' s' => r' = r.holding payload.size records ∧
    s'.Ready r.file log ∧ s.Beside r.file s')
  · exact fun past => absurd past (by omega)
  · exact fun ended => absurd ended (by omega)
  · exact fun _ short => absurd short (by omega)
  intro _
  have readHead := Store.read_leads carries stands.left
  rw [holds.size_header] at readHead
  refine readHead.mono ?_ fun _ _ h => h
  rintro _ t ⟨rfl, ready, beside⟩ compressed' length same
  obtain ⟨rfl, rfl⟩ := Prod.mk.inj (hread.symm.trans same)
  refine ⟨fun long => absurd long (by omega), fun _ => ?_⟩
  -- the header was read, and with it everything was written out
  have readBody := Store.read_leads ready.carries stands.right
  rw [holds.size_header] at readBody
  refine readBody.mono ?_ fun _ _ h => absurd ready.flushed.pending h.2.some
  rintro _ u ⟨rfl, ready', beside'⟩
  constructor
  · intro text decoded
    obtain rfl := Except.ok.inj ((hdecode r.path).symm.trans decoded)
    exact ⟨rfl, ready', beside.trans beside'⟩
  · intro e failed
    rw [hdecode] at failed
    exact absurd failed (by simp)

variable [TakesSpace ρ]

/-- A chunk is loaded, or there is none. -/
theorem loadChunk_leads (reads : Reads log r xs) (drained : r.drained = true)
    (open_ : r.loaded = false) (carries : s.Carries r.file log) :
    Leads (r.loadChunk open_) s
      (fun r' s' => Reads log r'.1 xs ∧ r'.1.file = r.file ∧ s.Beside r.file s' ∧
        (s' = s ∧ r'.1.drained = true ∨ s'.Ready r.file log))
      (fun e _ => e.IsDiskFailure ∧ (s.file r.file).Stuck s.disk) := by
  obtain ⟨isOpen, ⟨here, groups, rfl, stands, whole, chunks, -⟩, small, checksum⟩ := reads
  have used : r.buffer.size ≤ r.position := by simpa [RunReader.drained] using drained
  obtain rfl : here = [] := encodeRecords_eq_nil (TakesSpace.forall_mem _) (by omega)
  obtain ⟨start, hstart⟩ : ∃ start, start = r.readOffset := ⟨_, rfl⟩
  rw [← hstart] at chunks
  -- nothing is left of this chunk, so there is a next one or the run is at its end
  cases chunks with
  | nil inside =>
    have none : Chunks r.protector r.database log r.readOffset r.stop ([] : List (List ρ)) := by
      rw [← hstart]
      exact .nil inside
    refine (loadChunk_ended open_ hstart.symm).mono ?_ fun _ _ h => h.elim
    rintro ⟨_, -⟩ t ⟨rfl, rfl⟩
    refine ⟨⟨isOpen, ?_, ?_, checksum⟩, rfl, .refl _ _, .inl ⟨rfl, rfl⟩⟩
    · exact ⟨[], [], rfl, StandsAt.self _, rfl, none, fun _ => rfl⟩
    · exact (by decide : 0 < UInt32.size)
  | @cons _ _ head payload group groups holds stands' rest =>
    subst hstart
    refine (loadChunk_of_holds open_ carries holds stands' rest.le).mono ?_ fun _ _ h => h
    rintro ⟨_, -⟩ t ⟨rfl, ready, beside⟩
    refine ⟨⟨isOpen, ?_, holds.size_records, checksum⟩, rfl, beside, .inr ready⟩
    refine ⟨group, groups, ?_, StandsAt.self _, Nat.zero_add _, rest, fun h => ?_⟩
    · rw [List.flatten_cons, List.nil_append]
    · exact absurd (open_.symm.trans h) (by simp)

/-- After loading chunks there is a record in the buffer, or everything was loaded. -/
theorem ensureChunk_leads (reads : Reads log r xs) (carries : s.Carries r.file log) :
    Leads r.ensureChunk s
      (fun r' s' => Reads log r' xs ∧ r'.file = r.file ∧ s.Beside r.file s' ∧
        (r'.drained = true → r'.loaded = true) ∧
        (s' = s ∧ (r.drained = true → r'.drained = true) ∨ s'.Ready r.file log))
      (fun e _ => e.IsDiskFailure ∧ (s.file r.file).Stuck s.disk) := by
  apply (ensureChunk_keeps (P := fun r' t => Reads log r' xs ∧ r'.file = r.file ∧
    s.Beside r.file t ∧ (t = s ∧ (r.drained = true → r'.drained = true) ∨ t.Ready r.file log))
    ?_ ⟨reads, rfl, .refl _ _, .inl ⟨rfl, id⟩⟩).mono
  · rintro r' t ⟨⟨reads', file, beside, rest⟩, loaded⟩
    exact ⟨reads', file, beside, loaded, rest⟩
  · exact fun _ _ h => h
  rintro r₁ t open_ drained ⟨reads₁, file, beside, rest⟩
  have carries₁ : t.Carries r₁.file log := by
    rw [file]
    rcases rest with ⟨rfl, -⟩ | ready
    · exact carries
    · exact ready.carries
  have loads := loadChunk_leads reads₁ drained open_ carries₁
  rw [file] at loads
  apply loads.mono
  · rintro ⟨r₂, less⟩ u ⟨reads₂, file₂, beside₂, rest₂⟩
    refine ⟨reads₂, file₂, beside.trans beside₂, ?_⟩
    rcases rest₂ with ⟨rfl, drained₂⟩ | ready₂
    · exact rest.imp (fun same => ⟨same.1, fun _ => drained₂⟩) id
    · exact .inr ready₂
  · rintro e u failed
    -- only the first read can fail, with what is left to be written out
    rcases rest with ⟨rfl, -⟩ | ready
    · exact failed
    · exact absurd ready.flushed.pending failed.2.some

omit [TakesSpace ρ] in
theorem Reads.drained_of_nil (reads : Reads log r []) : r.drained = true := by
  obtain ⟨-, ⟨here, groups, parts, -, whole, -, -⟩, -, -⟩ := reads
  obtain rfl := (List.append_eq_nil_iff.mp parts.symm).1
  simp only [encodeRecords, ByteArray.size_empty] at whole
  simp only [RunReader.drained, decide_eq_true_eq]
  omega

theorem Reads.nil_of_drained (reads : Reads log r xs) (drained : r.drained = true)
    (loaded : r.loaded = true) : xs = [] := by
  obtain ⟨-, ⟨here, groups, rfl, -, whole, -, none⟩, -, -⟩ := reads
  have used : r.buffer.size ≤ r.position := by simpa [RunReader.drained] using drained
  obtain rfl : here = [] := encodeRecords_eq_nil (TakesSpace.forall_mem _) (by omega)
  obtain rfl := none loaded
  rfl

/-- A run that is read to its end has the recorded checksum. -/
theorem close_eq (reads : Reads log r xs) : ∃ r', r.close = (.ok (), r') ∧
    r'.file = r.file ∧ r'.closed = true := by
  have isOpen := reads.isOpen
  -- closing compares the checksums only where everything was read
  have verified : (r.loaded && r.drained) = true → r.checksum.value = r.extent.checksum := by
    intro h
    obtain ⟨loaded, drained⟩ := Bool.and_eq_true_iff.mp h
    obtain rfl := reads.nil_of_drained drained loaded
    exact reads.checksum
  have same : ((r.loaded && r.drained) && r.checksum.value != r.extent.checksum) = false := by
    cases h : r.loaded && r.drained with
    | false => rfl
    | true => simp [verified h]
  refine ⟨{ r with closed := true, buffer := .empty, position := 0 }, ?_, rfl, rfl⟩
  simp [close, isOpen, same]

variable [LawfulStorable ρ]

omit [TakesSpace ρ] in
/-- What stands at the front of the buffer is decoded. -/
theorem decodeRecord_of_stands {x : ρ} (stands : StandsAt (encode x) r.buffer r.position)
    (small : (encode x).size < UInt32.size) :
    r.decodeRecord = (.ok x, { r with
      position := r.position + (encode x).size
      checksum := r.checksum.update (encode x) }) := by
  have decodes := LawfulStorable.decode_encode r.position small stands
  have bytes := stands.extract_eq
  simp only [decodeRecord, decodes, bytes]

omit [TakesSpace ρ] in
/-- The record at the front of the buffer is decoded. -/
theorem decodeRecord_eq {x : ρ} (reads : Reads log r (x :: xs)) (full : r.drained = false) :
    ∃ r', r.decodeRecord = (.ok x, r') ∧ r'.file = r.file ∧ Reads log r' xs := by
  obtain ⟨isOpen, ⟨here, groups, parts, stands, whole, chunks, loaded⟩, small, checksum⟩ := reads
  have ahead : r.position < r.buffer.size := by simpa [RunReader.drained] using full
  obtain ⟨here, rfl⟩ : ∃ here', here = x :: here' := by
    cases here with
    | nil =>
      simp only [encodeRecords, ByteArray.size_empty] at whole
      omega
    | cons y here => exact ⟨here, by rw [(List.cons.inj parts).1]⟩
  obtain rfl := (List.cons.inj parts).2
  have size : (encodeRecords (x :: here)).size = (encode x).size + (encodeRecords here).size :=
    ByteArray.size_append
  refine ⟨_, decodeRecord_of_stands stands.left (by omega), rfl, isOpen,
    ⟨here, groups, rfl, stands.right, ?_, chunks, loaded⟩, small, ?_⟩
  · show r.position + (encode x).size + (encodeRecords here).size = r.buffer.size
    omega
  · rw [encodeRecords, Crc32.update_append] at checksum
    exact checksum

/-- A reader of a file gives out the given records, and then nothing. -/
def Gives (ref : FileRef) (log : ByteArray) (r : RunReader ρ) (xs : List ρ) : Prop :=
  r.file = ref ∧ (r.closed = true ∧ xs = [] ∨ Reads log r xs)

omit [TakesSpace ρ] [LawfulStorable ρ] in
theorem Gives.grow {ref : FileRef} (gives : Gives ref log r xs) (bytes : ByteArray) :
    Gives ref (log ++ bytes) r xs :=
  ⟨gives.1, gives.2.imp id fun reads => reads.grow bytes⟩

/-- The next record comes out. This fails only if what is left to be written out does not fit on the
    disk, and once a chunk was loaded nothing is left. -/
theorem next_eq {ref : FileRef} (gives : Gives ref log r xs) (carries : s.Carries ref log) :
    (∃ r' s', (next r).run s = ((xs.head?.map .ok, r'), s') ∧ Gives ref log r' xs.tail ∧
      s.Beside ref s' ∧ (s' = s ∧ (xs = [] ∨ r.drained = false) ∨ s'.Ready ref log)) ∨
    ∃ e r' s', (next r).run s = ((some (.error e), r'), s') ∧ e.IsDiskFailure ∧
      (s.file ref).Stuck s.disk := by
  obtain ⟨rfl, closed | reads⟩ := gives
  · obtain ⟨closed, rfl⟩ := closed
    refine .inl ⟨r, s, ?_, ⟨rfl, .inl ⟨closed, rfl⟩⟩, .refl _ _, .inl ⟨rfl, .inl rfl⟩⟩
    exact next_of_closed closed
  · have open_ := reads.isOpen
    -- only loading a chunk can fail; what is loaded is decoded as it was written
    rcases (ensureChunk_leads reads carries).outcome.symm with
      ⟨e, s', hrun, failed⟩ | ⟨r', s', hrun, reads', file, beside, loaded, rest⟩
    · exact .inr ⟨e, _, s', (Went.failed hrun).next_eq open_, failed⟩
    refine .inl ?_
    cases xs with
    | nil =>
      obtain ⟨r'', hclose, file', closed⟩ := close_eq reads'
      have went := Went.ended hrun reads'.drained_of_nil hclose
      exact ⟨r'', s', went.next_eq open_, ⟨file'.trans file, .inl ⟨closed, rfl⟩⟩, beside,
        rest.imp (fun same => ⟨same.1, .inl rfl⟩) id⟩
    | cons x xs =>
      have full : r'.drained = false := by
        refine Bool.eq_false_iff.mpr fun drained => ?_
        exact absurd (reads'.nil_of_drained drained (loaded drained)) (by simp)
      obtain ⟨r'', hdecode, file', reads''⟩ := decodeRecord_eq reads' full
      have went := Went.decoded hrun full hdecode
      refine ⟨r'', s', went.next_eq open_, ⟨file'.trans file, .inr reads''⟩, beside, ?_⟩
      refine rest.imp (fun same => ⟨same.1, .inr ?_⟩) id
      exact Bool.eq_false_iff.mpr fun drained =>
        absurd (full.symm.trans (same.2 drained)) (by simp)

/-- Once its file is entirely on disk, a reader does not fail. -/
theorem reliable (ref : FileRef) (log : ByteArray) :
    SortedSource.Reliable (S := Store) (Gives (ρ := ρ) ref log) fun s => s.Ready ref log where
  next {r xs s} gives ready := by
    rcases next_eq gives ready.carries with ⟨r', s', hnext, gives', -, rest⟩ |
      ⟨_, _, _, _, -, stuck⟩
    · refine ⟨r', s', hnext, gives', ?_⟩
      rcases rest with ⟨rfl, -⟩ | ready'
      · exact ready
      · exact ready'
    · exact absurd ready.flushed.pending stuck.some
  close {r xs s} gives ready := by
    obtain ⟨file, ⟨closed, -⟩ | reads⟩ := gives
    · refine ⟨r, s, ?_, ⟨file, .inl ⟨closed, rfl⟩⟩, ready⟩
      show (r.close, s) = _
      rw [RunReader.close, if_pos closed]
    · obtain ⟨r', hclose, file', closed⟩ := close_eq reads
      refine ⟨r', s, ?_, ⟨file'.trans file, .inl ⟨closed, rfl⟩⟩, ready⟩
      show (r.close, s) = _
      rw [hclose]
  release {r xs s} gives ready := by
    show ((Store.release r.file).run s).2.Ready ref log
    rw [gives.1]
    exact ready.release

end RunReader
end ExternalSort
