/-
  ExternalSort.Proofs.Run.Loading

  All that reading the next chunk can come to.

  A reader inside its extent finds the end of the extent, or a chunk that the
  file holds as a whole, or something that keeps it from loading one: a header
  or a payload that does not fit in the extent, one that the file does not hold
  to its end, or a payload that cannot be decoded. What a reader gives is told
  from this alone, whatever wrote the file.
-/

import ExternalSort.Proofs.Run.Damaged
import ExternalSort.Proofs.Run.Polling
import ExternalSort.Proofs.Spill.Content

namespace ExternalSort
namespace Chunk

/-! ## Chunks in a file -/

/-- A content holds a chunk from `start` on, which ends before `stop`. -/
structure Stands (content : ByteArray) (start stop : Nat) (compressed : Bool) (length : Nat) :
    Prop where
  head : readHeader (content.extract start (start + headerSize)) = (compressed, length)
  room : start + headerSize + length ≤ stop
  inside : start + headerSize + length ≤ content.size

/-- The payload of a chunk. -/
def payloadAt (content : ByteArray) (start length : Nat) : ByteArray :=
  content.extract (start + headerSize) (start + headerSize + length)

/-- What keeps a chunk from being loaded from `start` on. -/
inductive Lacks (hook : Option Protector) (database : Option String) (path : Path)
    (content : ByteArray) (start stop : Nat) : SortError → Prop
  | roomForHeader (before : start < stop) (short : stop < start + headerSize) :
      Lacks hook database path content start stop (.corruptData path (.truncatedHeader start stop))
  | header {got : Nat} (few : got < headerSize) (missing : content.size < start + headerSize) :
      Lacks hook database path content start stop
        (.corruptData path (.shortRead got headerSize start))
  | roomForPayload {compressed : Bool} {length : Nat}
      (head : readHeader (content.extract start (start + headerSize)) = (compressed, length))
      (short : stop < start + headerSize + length) :
      Lacks hook database path content start stop
        (.corruptData path (.overrun length (start + headerSize) stop))
  | payload {compressed : Bool} {length got : Nat}
      (head : readHeader (content.extract start (start + headerSize)) = (compressed, length))
      (few : got < length) (missing : content.size < start + headerSize + length) :
      Lacks hook database path content start stop
        (.corruptData path (.shortRead got length (start + headerSize)))
  | text {compressed : Bool} {length : Nat} {e : SortError}
      (stands : Stands content start stop compressed length)
      (body : decode hook database path compressed (payloadAt content start length) = .error e) :
      Lacks hook database path content start stop e

variable {hook : Option Protector} {database : Option String} {path : Path} {content : ByteArray}
  {start stop : Nat}

/-- A chunk begins in one way only. -/
theorem Stands.unique {compressed compressed' : Bool} {length length' : Nat}
    (h : Stands content start stop compressed length)
    (k : Stands content start stop compressed' length') :
    compressed = compressed' ∧ length = length' :=
  Prod.mk.inj (h.head.symm.trans k.head)

/-- Where a chunk stands, only its text can be missing. -/
theorem Lacks.of_stands {compressed : Bool} {length : Nat} {e : SortError}
    (stands : Stands content start stop compressed length)
    (lacks : Lacks hook database path content start stop e) :
    decode hook database path compressed (payloadAt content start length) = .error e := by
  have room := stands.room
  have inside := stands.inside
  cases lacks with
  | roomForHeader before short => omega
  | header few missing => omega
  | roomForPayload head short =>
    obtain ⟨-, rfl⟩ := Prod.mk.inj (stands.head.symm.trans head)
    omega
  | payload head few missing =>
    obtain ⟨-, rfl⟩ := Prod.mk.inj (stands.head.symm.trans head)
    omega
  | text stands' body =>
    obtain ⟨rfl, rfl⟩ := stands.unique stands'
    exact body

end Chunk

/-! ## Damage inside an extent -/

/-- Damage at a path, other than reading past the end of an extent. -/
def IsDamageInside (path : Path) (e : SortError) : Prop :=
  ∃ d, e = .corruptData path d ∧ ∀ offset, d ≠ .pastEnd offset

theorem Chunk.decode_damage_inside {database : Option String} {path : Path} {compressed : Bool}
    {payload : ByteArray} {e : SortError}
    (h : decode none database path compressed payload = .error e) : IsDamageInside path e := by
  cases compressed with
  | false => cases h
  | true =>
    simp only [decode, unprotect, bind, Except.bind, if_true] at h
    split at h
    · cases h
    · rename_i d expands
      refine ⟨d, (Except.error.inj h).symm, ?_⟩
      -- compressed data is refused for one of two reasons
      rintro offset rfl
      rw [expand] at expands
      split at expands
      · cases expands
      · split at expands
        · cases expands
        · split at expands <;> cases expands

/-- What keeps a chunk from being loaded is damage, unless the chunk is there and only its text is
    missing. -/
theorem Chunk.Lacks.damage_or_stands {hook : Option Protector} {database : Option String}
    {path : Path} {content : ByteArray} {start stop : Nat} {e : SortError}
    (lacks : Lacks hook database path content start stop e) :
    IsDamageInside path e ∨ ∃ compressed length, Stands content start stop compressed length ∧
      decode hook database path compressed (payloadAt content start length) = .error e := by
  cases lacks with
  | roomForHeader => exact .inl ⟨_, rfl, fun _ => Damage.noConfusion⟩
  | header => exact .inl ⟨_, rfl, fun _ => Damage.noConfusion⟩
  | roomForPayload => exact .inl ⟨_, rfl, fun _ => Damage.noConfusion⟩
  | payload => exact .inl ⟨_, rfl, fun _ => Damage.noConfusion⟩
  | text stands body => exact .inr ⟨_, _, stands, body⟩

theorem Chunk.Lacks.damage {database : Option String} {path : Path} {content : ByteArray}
    {start stop : Nat} {e : SortError} (lacks : Lacks none database path content start stop e) :
    IsDamageInside path e := by
  obtain damage | ⟨_, _, -, body⟩ := lacks.damage_or_stands
  · exact damage
  · exact decode_damage_inside body

namespace RunReader

variable {ρ : Type} {r r' r₁ : RunReader ρ} {s s' : Store} {content : ByteArray}

theorem close_damage_inside {e : SortError} (h : r.close = (.error e, r')) :
    IsDamageInside r.path e := by
  rw [close] at h
  split at h
  · cases h
  · dsimp only at h
    split at h
    · cases h
      exact ⟨_, rfl, fun _ => Damage.noConfusion⟩
    · cases h

theorem decodeRecord_damage_inside [Storable ρ] {e : SortError}
    (h : r.decodeRecord = (.error e, r')) : IsDamageInside r.path e := by
  rw [decodeRecord] at h
  rcases hrun : Reader.runOn (Storable.decode : Reader ρ) ⟨r.buffer, r.position, r.position⟩ with
    ⟨fault | y, c⟩ <;> simp only [hrun] at h <;> cases h
  exact ⟨_, rfl, fun _ => Damage.noConfusion⟩

/-! ## Loading a chunk -/

/-- What loading the next chunk comes to. -/
inductive Loads (content : ByteArray) (r : RunReader ρ) : Except SortError (RunReader ρ) → Prop
  | ended (ended : r.readOffset = r.stop) : Loads content r (.ok r.atEnd)
  | chunk {compressed : Bool} {length : Nat} {text : ByteArray}
      (stands : Chunk.Stands content r.readOffset r.stop compressed length)
      (body : Chunk.decode r.protector r.database r.path compressed
        (Chunk.payloadAt content r.readOffset length) = .ok text) :
      Loads content r (.ok (r.holding length text))
  | lacking {e : SortError}
      (lacks : Chunk.Lacks r.protector r.database r.path content r.readOffset r.stop e) :
      Loads content r (.error e)

/-- A reader whose place is inside its extent, as far as offsets can say. -/
structure Placed (r : RunReader ρ) : Prop where
  before : r.readOffset ≤ r.stop
  limit : r.stop < Disk.offsetLimit

theorem loadChunk_loads (shown : s.Shows r.file r.path content) (placed : Placed r)
    (open_ : r.loaded = false) :
    Leads (r.loadChunk open_) s
      (fun r' s' => Loads content r (.ok r'.1) ∧ s'.Shows r.file r.path content)
      (fun e s' => Loads content r (.error e) ∧ s'.Shows r.file r.path content) := by
  obtain ⟨before, limit⟩ := placed
  have header : Chunk.headerSize = 4 := rfl
  apply loadChunk_of open_ (P := fun r' s' => Loads content r (.ok r') ∧ s'.Shows r.file r.path content)
  · exact fun past => absurd past (Nat.not_lt.mpr before)
  · exact fun ended => ⟨.ended ended, shown⟩
  · -- what is left of the extent has no room for a header
    exact fun _ short => ⟨.lacking (.roomForHeader (by omega) (by omega)), shown⟩
  · intro room
    refine (shown.read_leads (by omega)).mono ?_ ?_
    · rintro _ t ⟨rfl, whole, shown'⟩ compressed length head
      constructor
      · -- the header tells of more than the extent has room for
        exact fun short => ⟨.lacking (.roomForPayload head (by omega)), shown'⟩
      · intro long
        rw [ByteArray.size_extract] at whole
        refine (shown'.read_leads (by omega)).mono ?_ ?_
        · rintro payload u ⟨rfl, whole', shown''⟩
          rw [ByteArray.size_extract] at whole'
          have stands : Chunk.Stands content r.readOffset r.stop compressed length :=
            ⟨head, by omega, by omega⟩
          exact ⟨fun text body => ⟨.chunk stands body, shown''⟩,
            fun e failed => ⟨.lacking (.text stands failed), shown''⟩⟩
        · -- inside the extent, but past the end of the file
          rintro e u ⟨⟨got, rfl, few, rfl⟩, shown''⟩
          refine ⟨.lacking (.payload head few ?_), shown''⟩
          rw [ByteArray.size_extract] at few
          omega
    · rintro e t ⟨⟨got, rfl, few, rfl⟩, shown'⟩
      refine ⟨.lacking (.header few ?_), shown'⟩
      rw [ByteArray.size_extract] at few
      omega

/-- A reader of the same extent of the same file. -/
structure SameReader (r r' : RunReader ρ) : Prop where
  file : r'.file = r.file
  path : r'.path = r.path
  extent : r'.extent = r.extent
  protector : r'.protector = r.protector
  database : r'.database = r.database

theorem SameReader.refl (r : RunReader ρ) : SameReader r r := ⟨rfl, rfl, rfl, rfl, rfl⟩

theorem SameReader.trans {r'' : RunReader ρ} (h : SameReader r r') (k : SameReader r' r'') :
    SameReader r r'' :=
  ⟨k.file.trans h.file, k.path.trans h.path, k.extent.trans h.extent,
    k.protector.trans h.protector, k.database.trans h.database⟩

theorem SameReader.shown (same : SameReader r r') (shown : s.Shows r.file r.path content) :
    s.Shows r'.file r'.path content := by
  rw [same.file, same.path]
  exact shown

/-- What reading on leaves of a reader: its run, and a place inside its extent. -/
structure Onward (r r' : RunReader ρ) : Prop extends SameReader r r' where
  on : r.readOffset ≤ r'.readOffset
  placed : Placed r → Placed r'

theorem Onward.refl (r : RunReader ρ) : Onward r r := ⟨.refl r, Nat.le_refl _, id⟩

theorem Onward.trans {r'' : RunReader ρ} (h : Onward r r') (k : Onward r' r'') : Onward r r'' :=
  ⟨h.toSameReader.trans k.toSameReader, Nat.le_trans h.on k.on,
    fun placed => k.placed (h.placed placed)⟩

theorem Loads.onward (loads : Loads content r (.ok r')) : Onward r r' ∧ r'.closed = r.closed := by
  cases loads with
  | ended => exact ⟨⟨⟨rfl, rfl, rfl, rfl, rfl⟩, Nat.le_refl _, fun h => ⟨h.before, h.limit⟩⟩, rfl⟩
  | @chunk _ length text stands =>
    have on : r.readOffset ≤ (r.holding length text).readOffset := by
      simp only [holding]
      omega
    exact ⟨⟨⟨rfl, rfl, rfl, rfl, rfl⟩, on, fun h => ⟨stands.room, h.limit⟩⟩, rfl⟩

/-- A chunk that is loaded leaves less unread. -/
theorem Loads.unread (loads : Loads content r (.ok r')) (open_ : r.loaded = false) :
    r'.unread < r.unread := by
  cases loads with
  | ended => exact unread_atEnd open_
  | chunk stands =>
    have room := stands.room
    simp only [Chunk.headerSize] at room
    exact unread_holding open_ (by omega) _ _

/-! ## Loading chunks -/

/-- What loading chunks until one has records left comes to. -/
inductive Fetches (content : ByteArray) : RunReader ρ → Except SortError (RunReader ρ) → Prop
  | full {r : RunReader ρ} (full : r.drained = false) : Fetches content r (.ok r)
  | noted {r : RunReader ρ} (drained : r.drained = true) (loaded : r.loaded = true) :
      Fetches content r (.ok r)
  | failed {r : RunReader ρ} {e : SortError} (drained : r.drained = true)
      (open_ : r.loaded = false) (loads : Loads content r (.error e)) :
      Fetches content r (.error e)
  | more {r r' : RunReader ρ} {result : Except SortError (RunReader ρ)}
      (drained : r.drained = true) (open_ : r.loaded = false) (loads : Loads content r (.ok r'))
      (rest : Fetches content r' result) : Fetches content r result

theorem ensureChunk_fetches (shown : s.Shows r.file r.path content) (placed : Placed r) :
    Leads r.ensureChunk s
      (fun r' s' => Fetches content r (.ok r') ∧ s'.Shows r.file r.path content)
      (fun e s' => Fetches content r (.error e) ∧ s'.Shows r.file r.path content) := by
  apply (ensureChunk_keeps (P := fun r' t => Onward r r' ∧ t.Shows r.file r.path content ∧
    ∀ result, Fetches content r' result → Fetches content r result)
    ?_ ⟨.refl r, shown, fun _ h => h⟩).mono
  · rintro r' t ⟨⟨-, shown', fetches⟩, loaded⟩
    refine ⟨fetches _ ?_, shown'⟩
    cases drained : r'.drained with
    | true => exact .noted drained (loaded drained)
    | false => exact .full drained
  · exact fun _ _ h => h
  · rintro r₁ t open_ drained ⟨onward, shown₁, fetches⟩
    have loads := loadChunk_loads (onward.shown shown₁) (onward.placed placed) open_
    rw [onward.file, onward.path] at loads
    apply loads.mono
    · rintro ⟨r₂, less⟩ u ⟨loads₂, shown₂⟩
      exact ⟨onward.trans loads₂.onward.1, shown₂,
        fun result h => fetches result (.more drained open_ loads₂ h)⟩
    · exact fun e u failed => ⟨fetches _ (.failed drained open_ failed.1), failed.2⟩

/-- Nothing is loaded while there is a record in the buffer. -/
theorem Fetches.eq_of_full {result : Except SortError (RunReader ρ)}
    (h : Fetches content r result) (full : r.drained = false) : result = .ok r := by
  cases h with
  | full => rfl
  | noted drained => exact Bool.noConfusion (full.symm.trans drained)
  | failed drained => exact Bool.noConfusion (full.symm.trans drained)
  | more drained => exact Bool.noConfusion (full.symm.trans drained)

theorem Fetches.onward (h : Fetches content r (.ok r')) : Onward r r' ∧ r'.closed = r.closed := by
  generalize eq : Except.ok r' = result at h
  induction h with
  | full =>
    cases eq
    exact ⟨.refl _, rfl⟩
  | noted =>
    cases eq
    exact ⟨.refl _, rfl⟩
  | failed =>
    cases eq
  | more _ _ loads _ ih =>
    obtain ⟨onward, closed⟩ := loads.onward
    obtain ⟨onward', closed'⟩ := ih eq
    exact ⟨onward.trans onward', closed'.trans closed⟩

/-- Loading chunks leaves less unread, unless there was a record in the buffer. -/
theorem Fetches.unread (h : Fetches content r (.ok r')) : r' = r ∨ r'.unread < r.unread := by
  generalize eq : Except.ok r' = result at h
  induction h with
  | full =>
    cases eq
    exact .inl rfl
  | noted =>
    cases eq
    exact .inl rfl
  | failed =>
    cases eq
  | more _ open_ loads _ ih =>
    have less := loads.unread open_
    obtain rfl | less' := ih eq
    · exact .inr less
    · exact .inr (Nat.lt_trans less' less)

/-- What keeps chunks from being loaded without a hook is damage. -/
theorem Fetches.damage {e : SortError} (h : Fetches content r (.error e))
    (plain : r.protector = none) : IsDamageInside r.path e := by
  generalize eq : Except.error e = result at h
  induction h with
  | full =>
    cases eq
  | noted =>
    cases eq
  | failed _ _ loads =>
    cases eq
    cases loads with
    | lacking lacks =>
      rw [plain] at lacks
      exact lacks.damage
  | more _ _ loads _ ih =>
    obtain ⟨onward, -⟩ := loads.onward
    have damage := ih (onward.protector.trans plain) eq
    rw [onward.path] at damage
    exact damage

/-! ## The next record -/

/-- What asking an open reader for a record comes to: a record, nothing because the checksum is
    right, or an error. -/
inductive Answers [Storable ρ] (content : ByteArray) (r : RunReader ρ) :
    Step ρ → RunReader ρ → Prop
  | failed {e : SortError} (fetches : Fetches content r (.error e)) :
      Answers content r (some (.error e)) r.fail
  | ended {r₁ r' : RunReader ρ} (fetches : Fetches content r (.ok r₁)) (drained : r₁.drained = true)
      (closes : r₁.close = (.ok (), r')) : Answers content r none r'
  | refused {e : SortError} {r₁ r' : RunReader ρ} (fetches : Fetches content r (.ok r₁))
      (drained : r₁.drained = true) (closes : r₁.close = (.error e, r')) :
      Answers content r (some (.error e)) r'.fail
  | decoded {result : Except SortError ρ} {r₁ r' : RunReader ρ}
      (fetches : Fetches content r (.ok r₁)) (full : r₁.drained = false)
      (decodes : r₁.decodeRecord = (result, r')) : Answers content r (some result) r'

variable [Storable ρ] {step : Step ρ}

theorem next_answers (shown : s.Shows r.file r.path content) (placed : Placed r)
    (isOpen : r.closed = false) (h : (next r).run s = ((step, r'), s')) :
    Answers content r step r' ∧ s'.Shows r.file r.path content := by
  have ensured_ := ensureChunk_fetches shown placed
  cases went_of_next isOpen h with
  | failed ensured =>
    obtain ⟨fetches, shown'⟩ := ensured_.of_error ensured
    exact ⟨.failed fetches, shown'⟩
  | ended ensured drained closes =>
    obtain ⟨fetches, shown'⟩ := ensured_.of_ok ensured
    exact ⟨.ended fetches drained closes, shown'⟩
  | refused ensured drained closes =>
    obtain ⟨fetches, shown'⟩ := ensured_.of_ok ensured
    exact ⟨.refused fetches drained closes, shown'⟩
  | decoded ensured full decodes =>
    obtain ⟨fetches, shown'⟩ := ensured_.of_ok ensured
    exact ⟨.decoded fetches full decodes, shown'⟩

omit [Storable ρ] in
theorem close_onward {result : Except SortError Unit} (h : r.close = (result, r')) :
    Onward r r' ∧ r'.closed = true := by
  rw [close] at h
  split at h
  · rename_i closed
    cases h
    exact ⟨.refl r, closed⟩
  · cases h
    exact ⟨⟨⟨rfl, rfl, rfl, rfl, rfl⟩, Nat.le_refl _, fun h => ⟨h.before, h.limit⟩⟩, rfl⟩

omit [Storable ρ] in
theorem fail_onward (r : RunReader ρ) : Onward r r.fail :=
  ⟨⟨rfl, rfl, rfl, rfl, rfl⟩, Nat.le_refl _, fun h => ⟨h.before, h.limit⟩⟩

theorem decodeRecord_onward {result : Except SortError ρ} (h : r.decodeRecord = (result, r')) :
    Onward r r' ∧ (∀ x, result = .ok x → r'.closed = r.closed) ∧
      ∀ e, result = .error e → r'.closed = true := by
  rw [decodeRecord] at h
  rcases hrun : Reader.runOn (Storable.decode : Reader ρ) ⟨r.buffer, r.position, r.position⟩ with
    ⟨fault | x, c⟩ <;> simp only [hrun] at h <;> cases h
  · exact ⟨fail_onward r, by simp, fun _ _ => rfl⟩
  · exact ⟨⟨⟨rfl, rfl, rfl, rfl, rfl⟩, Nat.le_refl _, fun h => ⟨h.before, h.limit⟩⟩,
      fun _ _ => rfl, by simp⟩

/-- An answer leaves a reader of the same extent. -/
theorem Answers.onward (answers : Answers content r step r') : Onward r r' := by
  cases answers with
  | failed fetches => exact fail_onward r
  | ended fetches drained closes => exact fetches.onward.1.trans (close_onward closes).1
  | refused fetches drained closes =>
    exact fetches.onward.1.trans ((close_onward closes).1.trans (fail_onward _))
  | decoded fetches full decodes => exact fetches.onward.1.trans (decodeRecord_onward decodes).1

/-- A reader that gave a record can be asked for another one. -/
theorem Answers.isOpen {x : ρ} (answers : Answers content r (some (.ok x)) r')
    (isOpen : r.closed = false) : r'.closed = false := by
  cases answers with
  | decoded fetches full decodes =>
    have same := (decodeRecord_onward decodes).2.1 x rfl
    exact same.trans (fetches.onward.2.trans isOpen)

/-- A reader that gave no record is closed. -/
theorem closed_of_next (h : (next r).run s = ((step, r'), s')) (last : ∀ x, step ≠ some (.ok x)) :
    r'.closed = true := by
  cases isOpen : r.closed with
  | true =>
    rw [next, if_pos isOpen] at h
    cases h
    exact isOpen
  | false =>
    cases went_of_next isOpen h with
    | failed => rfl
    | ended ensured drained closes => exact (close_onward closes).2
    | refused => rfl
    | @decoded result r₁ r' s' ensured full decodes =>
      cases result with
      | ok x => exact absurd rfl (last x)
      | error e => exact (decodeRecord_onward decodes).2.2 e rfl

/-- Without a hook, an error is damage inside the extent. -/
theorem Answers.damage {e : SortError} (answers : Answers content r (some (.error e)) r')
    (plain : r.protector = none) : IsDamageInside r.path e := by
  cases answers with
  | failed fetches => exact fetches.damage plain
  | refused fetches drained closes =>
    rw [← fetches.onward.1.path]
    exact close_damage_inside closes
  | decoded fetches full decodes =>
    rw [← fetches.onward.1.path]
    exact decodeRecord_damage_inside decodes

/-- A record that takes space leaves less to read. -/
theorem Answers.left [CanonicalStorable ρ] [TakesSpace ρ] {x : ρ}
    (answers : Answers content r (some (.ok x)) r') :
    Prod.Lex (· < ·) (· < ·) r'.left r.left := by
  cases answers with
  | @decoded _ r₁ r' fetches full decodes =>
    obtain ⟨stands, rfl⟩ := decodeRecord_ok full decodes
    -- either a chunk was loaded, or the position moves on in the one there was
    obtain rfl | less := fetches.unread
    · apply Prod.Lex.right
      have le := stands.le_size
      have pos := TakesSpace.size_encode_pos x
      dsimp only
      omega
    · exact .left _ _ less

end RunReader
end ExternalSort
