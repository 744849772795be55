/-
  ExternalSort.Proofs.Run.Truncated

  Reading a run from a file that was cut short.

  The chunks of a run tile its extent. If only the first `t` bytes of the file
  are left, the chunks that end there are read as they were written, and the next
  one is not: its header or its payload reaches past the end of the file, which
  the extent does not know. So a reader gives the records of whole chunks and
  then finds damage, wherever the cut falls.
-/

import ExternalSort.Proofs.Run.Loading

namespace ExternalSort

open Storable (encode)
open SortedSource (drain)

variable {ρ : Type} [Storable ρ]

/-! ## Chunks before and behind a cut -/

/-- The chunks of a run that end within the first `t` bytes, and the others. -/
inductive Severed (hook : Option Protector) (database : Option String) (log : ByteArray) (t : Nat) :
    (start stop : Nat) → (kept lost : List (List ρ)) → Prop
  | here {start stop : Nat} {head payload : ByteArray} {group : List ρ} {groups : List (List ρ)}
      (holds : Chunk.Holds hook database head payload (encodeRecords group))
      (stands : StandsAt (head ++ payload) log start)
      (rest : Chunks hook database log (start + Chunk.headerSize + payload.size) stop groups)
      (cut : t < start + Chunk.headerSize + payload.size) :
      Severed hook database log t start stop [] (group :: groups)
  | later {start stop : Nat} {head payload : ByteArray} {group : List ρ} {kept lost : List (List ρ)}
      (holds : Chunk.Holds hook database head payload (encodeRecords group))
      (stands : StandsAt (head ++ payload) log start)
      (whole : start + Chunk.headerSize + payload.size ≤ t)
      (rest : Severed hook database log t (start + Chunk.headerSize + payload.size) stop kept lost) :
      Severed hook database log t start stop (group :: kept) lost

variable {hook : Option Protector} {database : Option String} {log : ByteArray} {t : Nat}
  {start stop : Nat} {kept lost groups : List (List ρ)}

/-- A cut in front of the end of a run severs its chunks, also if it is in front of the run. -/
theorem Chunks.exists_severed (h : Chunks hook database log start stop groups) (cut : t < stop)
    (some : groups ≠ [] ∨ start ≤ t) :
    ∃ kept lost, groups = kept ++ lost ∧ Severed hook database log t start stop kept lost := by
  induction h with
  | nil =>
    obtain none | before := some
    · exact absurd rfl none
    · omega
  | @cons start stop head payload group groups holds stands rest ih =>
    by_cases whole : start + Chunk.headerSize + payload.size ≤ t
    · obtain ⟨kept, lost, rfl, severed⟩ := ih cut (.inr whole)
      exact ⟨group :: kept, lost, rfl, .later holds stands whole severed⟩
    · exact ⟨[], group :: groups, rfl, .here holds stands rest (by omega)⟩

/-- There is at least one chunk behind the cut. -/
theorem Severed.lt (h : Severed hook database log t start stop kept lost) : start < stop := by
  induction h with
  | here _ _ rest =>
    have le := rest.le
    simp only [Chunk.headerSize] at le
    omega
  | later _ _ _ _ ih =>
    omega

/-- What is left of a file has the bytes that it had. -/
theorem extract_cut {first last : Nat} (inside : last ≤ t) :
    (log.extract 0 t).extract first last = log.extract first last := by
  rw [ByteArray.extract_extract, Nat.zero_add, Nat.zero_add, Nat.min_eq_left inside]

theorem size_cut_le : (log.extract 0 t).size ≤ t := by
  rw [ByteArray.size_extract]
  omega

/-- A chunk that ends in front of the cut is still there. -/
theorem Chunk.Holds.stands_of_whole {head payload records : ByteArray}
    (holds : Chunk.Holds hook database head payload records)
    (stands : StandsAt (head ++ payload) log start)
    (whole : start + Chunk.headerSize + payload.size ≤ t)
    (room : start + Chunk.headerSize + payload.size ≤ stop) (path : Path) :
    ∃ compressed, Chunk.Stands (log.extract 0 t) start stop compressed payload.size ∧
      Chunk.decode hook database path compressed
        (Chunk.payloadAt (log.extract 0 t) start payload.size) = .ok records := by
  obtain ⟨compressed, hread, hdecode⟩ := holds.read
  have reach := stands.le_size
  rw [ByteArray.size_append, holds.size_header] at reach
  have readHead := stands.left.extract_eq
  have readBody := stands.right.extract_eq
  rw [holds.size_header] at readHead readBody
  refine ⟨compressed, ⟨?_, room, ?_⟩, ?_⟩
  · rw [extract_cut (by omega), readHead, hread]
  · rw [ByteArray.size_extract]
    omega
  · rw [Chunk.payloadAt, extract_cut whole, readBody, hdecode]

/-- A chunk that ends behind the cut is not there any more. -/
theorem Chunk.Holds.not_stands_of_cut {head payload records : ByteArray}
    (holds : Chunk.Holds hook database head payload records)
    (stands : StandsAt (head ++ payload) log start)
    (cut : t < start + Chunk.headerSize + payload.size) {compressed : Bool} {length : Nat} :
    ¬ Chunk.Stands (log.extract 0 t) start stop compressed length := by
  intro there
  obtain ⟨compressed', hread, -⟩ := holds.read
  have inside := Nat.le_trans there.inside size_cut_le
  have readHead := stands.left.extract_eq
  rw [holds.size_header] at readHead
  -- its header is still there, and tells the length that it had
  have head' := there.head
  rw [extract_cut (by omega), readHead, hread] at head'
  obtain ⟨-, rfl⟩ := Prod.mk.inj head'
  omega

namespace RunReader

/-! ## Reading up to the cut -/

variable {r r' : RunReader ρ} {s s' : Store} {xs : List ρ}

/-- What a reader still gives of a file that is cut behind its first `t` bytes: the rest of its
    chunk and the chunks in front of the cut. -/
structure Remains (log : ByteArray) (t : Nat) (r : RunReader ρ) (xs : List ρ) : Prop where
  isOpen : r.closed = false
  unloaded : r.loaded = false
  parts : ∃ here kept lost, xs = here ++ kept.flatten ∧
    StandsAt (encodeRecords here) r.buffer r.position ∧
    r.position + (encodeRecords here).size = r.buffer.size ∧
    Severed r.protector r.database log t r.readOffset r.stop kept lost
  small : r.buffer.size < UInt32.size

variable [TakesSpace ρ]

/-- The next chunk is loaded from what is left, or it was lost, and with it all that follows. -/
theorem Loads.of_remains {result : Except SortError (RunReader ρ)}
    (loads : Loads (log.extract 0 t) r result) (drained : r.drained = true)
    (remains : Remains log t r xs) :
    (∃ r', result = .ok r' ∧ Remains log t r' xs) ∨
      ∃ e, result = .error e ∧ xs = [] ∧ IsDamageInside r.path e := by
  obtain ⟨isOpen, unloaded, ⟨here, kept, lost, rfl, -, whole, severed⟩, -⟩ := remains
  have used : r.buffer.size ≤ r.position := by simpa [RunReader.drained] using drained
  obtain rfl : here = [] := encodeRecords_eq_nil (TakesSpace.forall_mem _) (by omega)
  have lt := severed.lt
  obtain ⟨first, hfirst⟩ : ∃ first, first = r.readOffset := ⟨_, rfl⟩
  rw [← hfirst] at severed
  cases severed with
  -- the next chunk is the one that the end of the file cuts
  | here holds stands rest cut =>
    subst hfirst
    cases loads with
    | ended ended => omega
    | chunk there => exact absurd there (holds.not_stands_of_cut stands cut)
    | lacking lacks =>
      obtain damage | ⟨_, _, there, -⟩ := lacks.damage_or_stands
      · exact .inr ⟨_, rfl, rfl, damage⟩
      · exact absurd there (holds.not_stands_of_cut stands cut)
  | @later _ _ head payload group kept lost holds stands whole rest =>
    subst hfirst
    obtain ⟨compressed, there, decodes⟩ :=
      holds.stands_of_whole stands whole (Nat.le_of_lt rest.lt) r.path
    cases loads with
    | ended ended => omega
    | chunk there' body =>
      obtain ⟨rfl, rfl⟩ := there.unique there'
      obtain rfl := Except.ok.inj (decodes.symm.trans body)
      refine .inl ⟨_, rfl, isOpen, unloaded, ⟨group, kept, lost, rfl, ?_, ?_, rest⟩,
        holds.size_records⟩
      · exact StandsAt.self _
      · exact Nat.zero_add _
    | lacking lacks => cases decodes.symm.trans (lacks.of_stands there)

theorem Fetches.of_remains {result : Except SortError (RunReader ρ)}
    (fetches : Fetches (log.extract 0 t) r result) (remains : Remains log t r xs) :
    (∃ r', result = .ok r' ∧ r'.drained = false ∧ Remains log t r' xs) ∨
      ∃ e, result = .error e ∧ xs = [] ∧ IsDamageInside r.path e := by
  induction fetches with
  | @full r full => exact .inl ⟨r, rfl, full, remains⟩
  | noted _ loaded => exact Bool.noConfusion (remains.unloaded.symm.trans loaded)
  | failed drained _ loads =>
    obtain ⟨_, eq, -⟩ | failed := loads.of_remains drained remains
    · cases eq
    · exact .inr failed
  | more drained _ loads _ ih =>
    obtain ⟨r', eq, remains'⟩ | ⟨_, eq, -⟩ := loads.of_remains drained remains
    · cases eq
      rw [← loads.onward.1.path]
      exact ih remains'
    · cases eq

variable [LawfulStorable ρ]

/-- A reader gives the next record that is left, or it finds damage. -/
theorem Answers.of_remains {step : Step ρ} (answers : Answers (log.extract 0 t) r step r')
    (remains : Remains log t r xs) :
    (∃ x rest, xs = x :: rest ∧ step = some (.ok x) ∧ Remains log t r' rest) ∨
      xs = [] ∧ ∃ e, step = some (.error e) ∧ IsDamageInside r.path e := by
  cases answers with
  -- fetching finds the damage before anything else is looked at
  | failed fetches =>
    obtain ⟨_, eq, -⟩ | ⟨e, eq, rfl, damage⟩ := fetches.of_remains remains
    · cases eq
    · cases eq
      exact .inr ⟨rfl, _, rfl, damage⟩
  -- a reader that fetched something is not drained, so it is not at its end
  | ended fetches drained =>
    obtain ⟨_, eq, full, -⟩ | ⟨_, eq, -⟩ := fetches.of_remains remains
    · cases eq
      exact Bool.noConfusion (full.symm.trans drained)
    · cases eq
  | refused fetches drained =>
    obtain ⟨_, eq, full, -⟩ | ⟨_, eq, -⟩ := fetches.of_remains remains
    · cases eq
      exact Bool.noConfusion (full.symm.trans drained)
    · cases eq
  | @decoded result r₁ r' fetches full decodes =>
    obtain ⟨_, eq, -, remains₁⟩ | ⟨_, eq, -⟩ := fetches.of_remains remains
    · cases eq
      obtain ⟨isOpen, unloaded, ⟨here, kept, lost, rfl, stands, whole, severed⟩, small⟩ := remains₁
      have ahead : r₁.position < r₁.buffer.size := by simpa [RunReader.drained] using full
      cases here with
      | nil =>
        simp only [encodeRecords, ByteArray.size_empty] at whole
        omega
      | cons x here =>
        rw [encodeRecords, ByteArray.size_append] at whole
        rw [decodeRecord_of_stands stands.left (by omega)] at decodes
        obtain ⟨rfl, rfl⟩ := Prod.mk.inj decodes
        refine .inl ⟨x, here ++ kept.flatten, rfl, rfl, isOpen, unloaded,
          ⟨here, kept, lost, rfl, stands.right, ?_, severed⟩, small⟩
        dsimp only
        omega
    · cases eq

/-- A reader of a cut file that shows what is left of it. -/
structure Cuts (log : ByteArray) (t : Nat) (path : Path) (r : RunReader ρ) (xs : List ρ)
    (s : Store) : Prop where
  remains : Remains log t r xs
  shown : s.Shows r.file path (log.extract 0 t)
  path : r.path = path
  placed : Placed r

theorem Cuts.record {path : Path} {x : ρ} (cuts : Cuts log t path r (x :: xs) s) :
    ∃ r' s', (next r).run s = ((some (.ok x), r'), s') ∧ Cuts log t path r' xs s' := by
  obtain ⟨remains, shown, rfl, placed⟩ := cuts
  rcases h : (next r).run s with ⟨⟨step, r'⟩, s'⟩
  obtain ⟨answers, shown'⟩ := next_answers shown placed remains.isOpen h
  have onward := answers.onward
  obtain ⟨y, rest, eq, rfl, remains'⟩ | ⟨none, -⟩ := answers.of_remains remains
  · obtain ⟨rfl, rfl⟩ := List.cons.inj eq
    refine ⟨r', s', rfl, remains', ?_, onward.path, onward.placed placed⟩
    rw [onward.file]
    exact shown'
  · cases none

theorem Cuts.error {path : Path} (cuts : Cuts log t path r [] s) :
    ∃ e r' s', (next r).run s = ((some (.error e), r'), s') ∧ IsDamageInside path e ∧ Over r' := by
  obtain ⟨remains, shown, rfl, placed⟩ := cuts
  rcases h : (next r).run s with ⟨⟨step, r'⟩, s'⟩
  obtain ⟨answers, -⟩ := next_answers shown placed remains.isOpen h
  obtain ⟨_, _, eq, -⟩ | ⟨-, e, rfl, damage⟩ := answers.of_remains remains
  · cases eq
  · exact ⟨e, r', s', rfl, damage, over_of_closed (closed_of_next h (by simp))⟩

/-- Reading a run from the first `t` bytes of its file gives the records of the chunks that end
    there, and then damage. -/
theorem drain_of_cut {file : FileRef} {path : Path} {extent : Extent}
    (severed : Severed hook database log t extent.start.toNat extent.stop.toNat kept lost)
    (limit : extent.stop.toNat < Disk.offsetLimit) (shown : s.Shows file path (log.extract 0 t))
    {count : Nat} (more : kept.flatten.length < count) :
    ∃ d r' s', (drain count (ofExtent file path extent hook database : RunReader ρ) :
      StoreM _).run s = (((kept.flatten, .failed (.corruptData path d)), r'), s') ∧ Over r' := by
  have cuts : Cuts log t path (ofExtent file path extent hook database : RunReader ρ)
      kept.flatten s := by
    refine ⟨⟨rfl, rfl, ⟨[], kept, lost, rfl, StandsAt.self _, rfl, severed⟩, ?_⟩, shown, rfl,
      Nat.le_of_lt severed.lt, limit⟩
    exact (by decide : 0 < UInt32.size)
  obtain ⟨e, r', s', hdrain, ⟨d, rfl, -⟩, closed⟩ := SortedSource.drainOnto_breaks (Cuts log t path)
    (fun e r => IsDamageInside path e ∧ Over r) Cuts.record Cuts.error cuts more []
  exact ⟨d, r', s', hdrain, closed⟩

end RunReader

/-- A run with records is severed by a cut in front of its end. -/
theorem RunWriter.RunAt.exists_severed {checksum : UInt32} {xs : List ρ}
    (runAt : RunWriter.RunAt hook database log start stop checksum xs) (nonempty : xs ≠ [])
    (cut : t < stop) :
    ∃ kept lost, xs = kept.flatten ++ lost.flatten ∧
      Severed hook database log t start stop kept lost := by
  obtain ⟨⟨groups, rfl, chunks⟩, -⟩ := runAt
  have several : groups ≠ [] := by
    rintro rfl
    exact nonempty rfl
  obtain ⟨kept, lost, rfl, severed⟩ := chunks.exists_severed cut (.inl several)
  exact ⟨kept, lost, List.flatten_append, severed⟩

end ExternalSort
