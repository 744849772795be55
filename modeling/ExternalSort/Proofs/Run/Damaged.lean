/-
  ExternalSort.Proofs.Run.Damaged

  Reading a run in which some bytes were changed.

  Between two places, the bytes of a log spell out at most one byte string: what
  its chunks decode to, whatever they were meant to be. A reader that reaches
  the end gave records with exactly these bytes, and these bytes have the
  recorded checksum. Changed bytes in the payload of an uncompressed chunk change
  as many bytes of what is spelled out, so the checksum tells if they are few. A
  changed byte elsewhere may change where chunks begin and end, or what a chunk
  decodes to, and then the checksum decides alone.
-/

import ExternalSort.Proofs.Crc32
import ExternalSort.Proofs.Run.Verification
import ExternalSort.Proofs.Run.Writer

namespace ExternalSort

open Storable (encode decode)

/-! ## What a log spells out -/

/-- Between two places the chunks of a log decode to the given bytes. -/
inductive Spells (hook : Option Protector) (database : Option String) (path : Path)
    (log : ByteArray) : (start stop : Nat) → ByteArray → Prop
  | nil {stop : Nat} : Spells hook database path log stop stop .empty
  | cons {start stop length : Nat} {compressed : Bool} {text rest : ByteArray}
      (head : Chunk.readHeader (log.extract start (start + Chunk.headerSize)) = (compressed, length))
      (room : start + Chunk.headerSize + length ≤ stop)
      (body : Chunk.decode hook database path compressed
        (log.extract (start + Chunk.headerSize) (start + Chunk.headerSize + length)) = .ok text)
      (behind : Spells hook database path log (start + Chunk.headerSize + length) stop rest) :
      Spells hook database path log start stop (text ++ rest)

/-- The byte at `p` is in the payload of an uncompressed chunk. -/
inductive InRaw (log : ByteArray) : (start stop p : Nat) → Prop
  | here {start stop length p : Nat}
      (head : Chunk.readHeader (log.extract start (start + Chunk.headerSize)) = (false, length))
      (room : start + Chunk.headerSize + length ≤ stop)
      (begun : start + Chunk.headerSize ≤ p) (within : p < start + Chunk.headerSize + length) :
      InRaw log start stop p
  | later {start stop length p : Nat} {compressed : Bool}
      (head : Chunk.readHeader (log.extract start (start + Chunk.headerSize)) = (compressed, length))
      (room : start + Chunk.headerSize + length ≤ stop)
      (behind : InRaw log (start + Chunk.headerSize + length) stop p) : InRaw log start stop p

/-- The payload of an uncompressed chunk lies from `first` up to `last`. -/
inductive RawChunk (log : ByteArray) : (start stop first last : Nat) → Prop
  | here {start stop length : Nat}
      (head : Chunk.readHeader (log.extract start (start + Chunk.headerSize)) = (false, length))
      (room : start + Chunk.headerSize + length ≤ stop) :
      RawChunk log start stop (start + Chunk.headerSize) (start + Chunk.headerSize + length)
  | later {start stop length first last : Nat} {compressed : Bool}
      (head : Chunk.readHeader (log.extract start (start + Chunk.headerSize)) = (compressed, length))
      (room : start + Chunk.headerSize + length ≤ stop)
      (behind : RawChunk log (start + Chunk.headerSize + length) stop first last) :
      RawChunk log start stop first last

theorem InRaw.rawChunk {log : ByteArray} {start stop p : Nat} (h : InRaw log start stop p) :
    ∃ first last, RawChunk log start stop first last ∧ first ≤ p ∧ p < last := by
  induction h with
  | here head room begun within => exact ⟨_, _, .here head room, begun, within⟩
  | later head room _ ih =>
    obtain ⟨first, last, raw, begun, within⟩ := ih
    exact ⟨first, last, .later head room raw, begun, within⟩

/-- A payload lies behind the header of its chunk, before the end. -/
theorem RawChunk.bounds {log : ByteArray} {start stop first last : Nat}
    (h : RawChunk log start stop first last) : start + Chunk.headerSize ≤ first ∧ last ≤ stop := by
  induction h with
  | here _ room => exact ⟨Nat.le_refl _, room⟩
  | later _ _ _ ih => omega

namespace Spells

variable {hook : Option Protector} {database : Option String} {path : Path} {log log' : ByteArray}
  {start stop first last p n : Nat} {bytes bytes' : ByteArray}

/-- Where a chunk begins, what is spelled out begins with what the chunk decodes to. -/
theorem uncons (h : Spells hook database path log start stop bytes) {compressed : Bool}
    {length : Nat}
    (head : Chunk.readHeader (log.extract start (start + Chunk.headerSize)) = (compressed, length))
    (room : start + Chunk.headerSize + length ≤ stop) :
    ∃ text rest, bytes = text ++ rest ∧
      Chunk.decode hook database path compressed (log.extract (start + Chunk.headerSize)
        (start + Chunk.headerSize + length)) = .ok text ∧
      Spells hook database path log (start + Chunk.headerSize + length) stop rest := by
  cases h with
  | nil => simp only [Chunk.headerSize] at room; omega
  | cons head' _ body behind =>
    obtain ⟨rfl, rfl⟩ := Prod.mk.inj (head.symm.trans head')
    exact ⟨_, _, rfl, body, behind⟩

/-- The bytes at one place decide what is spelled out there. -/
theorem unique (h : Spells hook database path log start stop bytes)
    (k : Spells hook database path log start stop bytes') : bytes = bytes' := by
  induction h generalizing bytes' with
  | nil =>
    cases k with
    | nil => rfl
    | cons _ room => simp only [Chunk.headerSize] at room; omega
  | cons head room body _ ih =>
    obtain ⟨text, rest, rfl, body', behind'⟩ := k.uncons head room
    obtain rfl := Except.ok.inj (body.symm.trans body')
    rw [ih behind']

/-- What is in front does not matter. -/
theorem of_differsWithin (h : Spells hook database path log start stop bytes)
    (differs : DiffersWithin p n log log') (front : p + n ≤ start) :
    Spells hook database path log' start stop bytes := by
  induction h with
  | nil => exact .nil
  | cons head room body _ ih =>
    rw [← differs.extract_eq (.inl front)] at head
    rw [← differs.extract_eq (.inl (by omega))] at body
    exact .cons head room body (ih (by omega))

theorem decode_raw {payload text : ByteArray}
    (h : Chunk.decode none database path false payload = .ok text) : payload = text := by
  cases h
  rfl

/-- Changed bytes in the payload of an uncompressed chunk change as many neighbouring bytes of what
    is spelled out. -/
theorem differsWithin (raw : RawChunk log start stop first last)
    (differs : DiffersWithin p n log log') (begun : first ≤ p) (within : p + n ≤ last)
    (h : Spells none database path log start stop bytes)
    (k : Spells none database path log' start stop bytes') :
    ∃ i, DiffersWithin i n bytes bytes' := by
  induction raw generalizing bytes bytes' with
  | @here start stop length head room =>
    -- the header is in front of the changed bytes, and the next chunk begins behind them
    have head' := head
    rw [← differs.extract_eq (.inr begun)] at head'
    obtain ⟨text₁, rest₁, rfl, body₁, behind₁⟩ := h.uncons head room
    obtain ⟨text₂, rest₂, rfl, body₂, behind₂⟩ := k.uncons head' room
    obtain rfl := decode_raw body₁
    obtain rfl := decode_raw body₂
    obtain rfl := (behind₁.of_differsWithin differs within).unique behind₂
    exact ⟨_, (differs.extract begun within).append _⟩
  | @later start stop length first last compressed head room behind ih =>
    -- this whole chunk is in front of the changed bytes
    have bounds := behind.bounds
    have head' := head
    rw [← differs.extract_eq (.inr (by omega))] at head'
    obtain ⟨text₁, rest₁, rfl, body₁, behind₁⟩ := h.uncons head room
    obtain ⟨text₂, rest₂, rfl, body₂, behind₂⟩ := k.uncons head' room
    rw [differs.extract_eq (.inr (by omega))] at body₂
    obtain rfl := Except.ok.inj (body₁.symm.trans body₂)
    obtain ⟨i, differs'⟩ := ih begun within behind₁ behind₂
    exact ⟨_, differs'.prepend _⟩

/-- The payload of an uncompressed chunk is part of what is spelled out. -/
theorem le_size (raw : RawChunk log start stop first last) (inside : stop ≤ log.size)
    (h : Spells none database path log start stop bytes) : last ≤ first + bytes.size := by
  induction raw generalizing bytes with
  | @here start stop length head room =>
    obtain ⟨text, rest, rfl, body, -⟩ := h.uncons head room
    obtain rfl := decode_raw body
    rw [ByteArray.size_append, ByteArray.size_extract]
    omega
  | later head room _ ih =>
    obtain ⟨text, rest, rfl, -, behind⟩ := h.uncons head room
    have le := ih inside behind
    rw [ByteArray.size_append]
    omega

end Spells

/-- The chunks of a run spell out its records. -/
theorem Chunks.spells {ρ : Type} [Storable ρ] {hook : Option Protector} {database : Option String}
    {log : ByteArray} {start stop : Nat} {groups : List (List ρ)}
    (h : Chunks hook database log start stop groups) (path : Path) :
    Spells hook database path log start stop (encodeRecords groups.flatten) := by
  induction h with
  | nil => exact .nil
  | @cons start stop head payload group groups holds stands rest ih =>
    obtain ⟨compressed, hread, hdecode⟩ := holds.read
    have readHead := stands.left.extract_eq
    have readBody := stands.right.extract_eq
    rw [holds.size_header] at readHead readBody
    rw [List.flatten_cons, encodeRecords_append]
    refine .cons (by rw [readHead, hread]) rest.le (by rw [readBody, hdecode]) ih

theorem RunWriter.RunAt.spells {ρ : Type} [Storable ρ] {hook : Option Protector}
    {database : Option String} {log : ByteArray} {start stop : Nat} {checksum : UInt32} {xs : List ρ}
    (h : RunAt hook database log start stop checksum xs) (path : Path) :
    Spells hook database path log start stop (encodeRecords xs) := by
  obtain ⟨⟨groups, rfl, chunks⟩, -⟩ := h
  exact chunks.spells path

/-! ## Reading what is spelled out -/

namespace Store

variable {s : Store} {ref : FileRef} {log : ByteArray}

/-- What is on disk is read, whatever it is. -/
theorem Ready.read_leads (ready : s.Ready ref log) {offset length : Nat}
    (inside : offset + length ≤ log.size) :
    Leads (onFile ref (SpillFile.read offset length)) s
      (fun found s' => found = log.extract offset (offset + length) ∧ s'.Ready ref log)
      (fun _ _ => False) := by
  have stands := StandsAt.of_extract (Nat.le_add_right offset length) inside
  have leads := Store.read_leads ready.carries stands
  have size : (log.extract offset (offset + length)).size = length := by
    rw [ByteArray.size_extract]
    omega
  rw [size] at leads
  exact leads.mono (fun _ _ h => ⟨h.1, h.2.1⟩) fun _ _ h => h.2.some ready.flushed.pending

end Store

variable {ρ : Type}

namespace RunReader

variable {r r' : RunReader ρ} {s s' : Store} {ref : FileRef} {log : ByteArray} {path : Path}
  {bytes : ByteArray}

/-- A reader without a hook, of an extent within a log that is on disk. -/
structure Within (ref : FileRef) (log : ByteArray) (path : Path) (r : RunReader ρ) (s : Store) :
    Prop where
  file : r.file = ref
  path : r.path = path
  plain : r.protector = none
  ready : s.Ready ref log
  inside : r.stop ≤ log.size
  isOpen : r.closed = false
  loaded : r.loaded = true → r.readOffset = r.stop

/-- What a reader has before it: the rest of its chunk, and what the log spells out behind that. -/
def Ahead (log : ByteArray) (r : RunReader ρ) (bytes : ByteArray) : Prop :=
  ∃ rest, Spells r.protector r.database r.path log r.readOffset r.stop rest ∧
    bytes = r.buffer.extract r.position r.buffer.size ++ rest

theorem extract_of_drained (drained : r.drained = true) :
    r.buffer.extract r.position r.buffer.size = .empty := by
  have used : r.buffer.size ≤ r.position := by simpa [RunReader.drained] using drained
  refine ByteArray.size_eq_zero_iff.mp ?_
  rw [ByteArray.size_extract]
  omega

/-- Damage at a path. -/
def IsDamage (path : Path) (e : SortError) : Prop := ∃ d, e = .corruptData path d

theorem decode_damage {database : Option String} {compressed : Bool} {payload : ByteArray}
    {e : SortError} (h : Chunk.decode none database path compressed payload = .error e) :
    IsDamage path e := by
  cases compressed with
  | false => cases h
  | true =>
    simp only [Chunk.decode, Chunk.unprotect, bind, Except.bind, if_true] at h
    split at h
    · cases h
    · exact ⟨_, (Except.error.inj h).symm⟩

/-- A chunk is loaded that the log spells out, or there is damage. -/
theorem loadChunk_within (within : Within ref log path r s) (drained : r.drained = true)
    (open_ : r.loaded = false) :
    Leads (r.loadChunk open_) s
      (fun r' s' => Within ref log path r'.1 s' ∧ ∀ bytes, Ahead log r'.1 bytes → Ahead log r bytes)
      (fun e _ => IsDamage path e) := by
  obtain ⟨rfl, rfl, plain, ready, inside, isOpen, -⟩ := within
  apply loadChunk_of open_ (P := fun r' s' => Within r.file log r.path r' s' ∧
    ∀ bytes, Ahead log r' bytes → Ahead log r bytes)
  · exact fun _ => ⟨_, rfl⟩
  · -- the extent is at its end; what is ahead stays the same
    refine fun atEnd => ⟨⟨rfl, rfl, plain, ready, inside, isOpen, fun _ => atEnd⟩, ?_⟩
    rintro bytes ⟨rest, spells, rfl⟩
    exact ⟨rest, spells, by rw [extract_of_drained drained]; rfl⟩
  · exact fun _ _ => ⟨_, rfl⟩
  · intro reach
    refine (ready.read_leads (Nat.le_trans reach inside)).mono ?_ fun _ _ h => h.elim
    rintro _ t ⟨rfl, ready'⟩ compressed length head
    refine ⟨fun _ => ⟨_, rfl⟩, fun room => ?_⟩
    refine (ready'.read_leads (Nat.le_trans room inside)).mono ?_ fun _ _ h => h.elim
    rintro _ u ⟨rfl, ready''⟩
    refine ⟨fun text body => ⟨⟨rfl, rfl, plain, ready'', inside, isOpen, fun h => ?_⟩, ?_⟩,
      fun e failed => ?_⟩
    · exact Bool.noConfusion (open_.symm.trans h)
    · rintro bytes ⟨rest, spells, rfl⟩
      refine ⟨text ++ rest, .cons head room body spells, ?_⟩
      rw [extract_of_drained drained, ByteArray.empty_append]
      exact congrArg (· ++ rest) ByteArray.extract_zero_size
    · rw [plain] at failed
      exact decode_damage failed

theorem ensureChunk_within (within : Within ref log path r s) :
    Leads r.ensureChunk s
      (fun r' s' => Within ref log path r' s' ∧ (∀ bytes, Ahead log r' bytes → Ahead log r bytes) ∧
        (r'.drained = true → r'.loaded = true) ∧ (r' = r ∨ r'.unread < r.unread))
      (fun e _ => IsDamage path e) := by
  apply (ensureChunk_keeps (P := fun r' t => Within ref log path r' t ∧
    (∀ bytes, Ahead log r' bytes → Ahead log r bytes) ∧ (r' = r ∨ r'.unread < r.unread))
    ?_ ⟨within, fun _ h => h, .inl rfl⟩).mono
  · rintro r' t ⟨⟨within', back, less⟩, loaded⟩
    exact ⟨within', back, loaded, less⟩
  · exact fun _ _ h => h
  · rintro r₁ t open_ drained ⟨within₁, back, less⟩
    apply (loadChunk_within within₁ drained open_).mono _ fun _ _ h => h
    rintro ⟨r₂, less₂⟩ u ⟨within₂, back₂⟩
    refine ⟨within₂, fun bytes h => back bytes (back₂ bytes h), .inr ?_⟩
    rcases less with rfl | less
    · exact less₂
    · exact Nat.lt_trans less₂ less

variable [Storable ρ] [CanonicalStorable ρ]

/-- What is left to read, for the order in which it gets less. -/
def left (r : RunReader ρ) : Nat × Nat := (r.unread, r.buffer.size - r.position)

omit [CanonicalStorable ρ] in
/-- Moving over what stands at the position leaves it behind. -/
theorem ahead_advance {x : ρ} {checksum : Crc32} {advanced : RunReader ρ}
    (stands : StandsAt (encode x) r.buffer r.position)
    (same : advanced = { r with position := r.position + (encode x).size, checksum })
    (ahead : Ahead log advanced bytes) : Ahead log r (encode x ++ bytes) := by
  subst same
  obtain ⟨rest, spells, rfl⟩ := ahead
  have le := stands.le_size
  have whole : encode x ++ r.buffer.extract (r.position + (encode x).size) r.buffer.size =
      r.buffer.extract r.position r.buffer.size := by
    conv => lhs; lhs; rw [← stands.extract_eq]
    rw [ByteArray.extract_append_extract, Nat.min_eq_left (Nat.le_add_right _ _),
      Nat.max_eq_right le]
  exact ⟨rest, spells, by rw [← ByteArray.append_assoc]; exact congrArg (· ++ rest) whole⟩

/-- A record is decoded from what is ahead. -/
theorem decodeRecord_within {x : ρ} (within : Within ref log path r s) (full : r.drained = false)
    (h : r.decodeRecord = (.ok x, r')) :
    Within ref log path r' s ∧ ∀ bytes, Ahead log r' bytes → Ahead log r (encode x ++ bytes) := by
  obtain ⟨stands, rfl⟩ := decodeRecord_ok full h
  obtain ⟨file, path, plain, ready, inside, isOpen, loaded⟩ := within
  exact ⟨⟨file, path, plain, ready, inside, isOpen, loaded⟩, fun _ => ahead_advance stands rfl⟩

omit [CanonicalStorable ρ] in
theorem decodeRecord_damage {e : SortError} (h : r.decodeRecord = (.error e, r')) :
    IsDamage r.path e := by
  rw [decodeRecord] at h
  rcases hrun : Reader.runOn (decode : Reader ρ) ⟨r.buffer, r.position, r.position⟩ with
    ⟨fault | y, c⟩ <;> simp only [hrun] at h <;> cases h
  exact ⟨_, rfl⟩

omit [Storable ρ] [CanonicalStorable ρ] in
theorem close_damage {e : SortError} (h : r.close = (.error e, r')) : IsDamage r.path e := by
  rw [close] at h
  split at h
  · cases h
  · dsimp only at h
    split at h
    · cases h
      exact ⟨_, rfl⟩
    · cases h

/-- A reader gives records that are ahead, one by one. -/
theorem next_within {x : ρ} (within : Within ref log path r s)
    (h : (next r).run s = ((some (.ok x), r'), s')) :
    Within ref log path r' s' ∧ ∀ bytes, Ahead log r' bytes → Ahead log r (encode x ++ bytes) := by
  cases went_of_next within.isOpen h with
  | decoded ensured full decodes =>
    obtain ⟨within₁, back, -, -⟩ := (ensureChunk_within within).of_ok ensured
    obtain ⟨within', advance⟩ := decodeRecord_within within₁ full decodes
    exact ⟨within', fun bytes ahead => back _ (advance bytes ahead)⟩

omit [CanonicalStorable ρ] in
/-- A reader ends where nothing is ahead. -/
theorem ahead_of_next_none (within : Within ref log path r s)
    (h : (next r).run s = ((none, r'), s')) : Ahead log r .empty := by
  cases went_of_next within.isOpen h with
  | @ended r₁ r' s' ensured drained closes =>
    obtain ⟨within₁, back, loaded, -⟩ := (ensureChunk_within within).of_ok ensured
    refine back _ ⟨.empty, ?_, ?_⟩
    · rw [within₁.loaded (loaded drained)]
      exact .nil
    · rw [extract_of_drained drained]
      rfl

omit [CanonicalStorable ρ] in
/-- Whatever a reader without a hook finds wrong is damage. -/
theorem damage_of_next {e : SortError} (within : Within ref log path r s)
    (h : (next r).run s = ((some (.error e), r'), s')) : IsDamage path e := by
  have ensured_ := ensureChunk_within within
  cases went_of_next within.isOpen h with
  | failed ensured => exact ensured_.of_error ensured
  | refused ensured drained closes =>
    rw [← (ensured_.of_ok ensured).1.path]
    exact close_damage closes
  | decoded ensured full decodes =>
    rw [← (ensured_.of_ok ensured).1.path]
    exact decodeRecord_damage decodes

/-- A record leaves less to read. -/
theorem left_of_next [TakesSpace ρ] {x : ρ} (within : Within ref log path r s)
    (h : (next r).run s = ((some (.ok x), r'), s')) :
    Prod.Lex (· < ·) (· < ·) r'.left r.left := by
  cases went_of_next within.isOpen h with
  | @decoded _ r₁ r' s' ensured full decodes =>
    obtain ⟨-, -, -, less⟩ := (ensureChunk_within within).of_ok ensured
    obtain ⟨stands, rfl⟩ := decodeRecord_ok full decodes
    -- either a chunk was loaded, or the position moves on in the one there was
    rcases less with rfl | less
    · refine .right _ ?_
      have le := stands.le_size
      have pos := TakesSpace.size_encode_pos x
      dsimp only
      omega
    · exact .left _ _ less

/-! ## Reading to the end -/

open SortedSource (drain Accounts)

/-- Reading gives what is spelled out. -/
theorem accounts_ahead :
    Accounts (Within (ρ := ρ) ref log path) fun r xs => Ahead log r (encodeRecords xs) where
  record within h :=
    have ⟨within', advance⟩ := next_within within h
    ⟨within', fun xs => advance (encodeRecords xs)⟩
  finish within h := ahead_of_next_none within h

/-- Reading ends with damage, or with what is spelled out, if that has the recorded checksum. -/
theorem drain_within [TakesSpace ρ] (within : Within ref log path r s) :
    ∃ enough, ∀ count, enough ≤ count → ∃ out ending r' s',
      (drain count r : StoreM _).run s = (((out, ending), r'), s') ∧
        ((∃ d, ending = .failed (.corruptData path d)) ∨
          ending = .finished ∧ Ahead log r (encodeRecords out) ∧ Expects r out) := by
  obtain ⟨enough, ends⟩ := SortedSource.drainOnto_ends within
    (Prod.lex Nat.lt_wfRel Nat.lt_wfRel).wf left
    (fun within h => ⟨(next_within within h).1, left_of_next within h⟩)
    fun within h => damage_of_next within h
  refine ⟨enough, fun count more => ?_⟩
  obtain ⟨out, ending, r', s', hdrain, how⟩ := ends count more []
  refine ⟨out, ending, r', s', hdrain, ?_⟩
  rcases how with rfl | ⟨e, rfl, d, rfl⟩
  · exact .inr ⟨rfl, (accounts_ahead.drain hdrain within).2,
      (accounts.drain hdrain within.isOpen).2⟩
  · exact .inl ⟨d, rfl⟩

/-- When neighbouring bytes of a run were changed, reading ends with damage, or with records that
    have the recorded checksum; never so if these are at most four bytes in the payload of an
    uncompressed chunk. -/
theorem drain_of_differsWithin [TakesSpace ρ] {database : Option String} {log' : ByteArray}
    {p n : Nat} {extent : Extent} {xs : List ρ}
    (runAt : RunWriter.RunAt none database log extent.start.toNat extent.stop.toNat extent.checksum xs)
    (differs : DiffersWithin p n log log') (ready : s.Ready ref log') :
    ∃ enough, ∀ count, enough ≤ count → ∃ out ending r' s',
      (drain count (ofExtent ref path extent none database : RunReader ρ) : StoreM _).run s =
          (((out, ending), r'), s') ∧
        ((∃ d, ending = .failed (.corruptData path d)) ∨
          ending = .finished ∧ extent.Checks out ∧ ∀ first last,
            RawChunk log extent.start.toNat extent.stop.toNat first last → first ≤ p →
              p + n ≤ last → 4 < n) := by
  have within : Within ref log' path (ofExtent ref path extent none database : RunReader ρ) s := by
    refine ⟨rfl, rfl, rfl, ready, ?_, rfl, fun h => Bool.noConfusion h⟩
    rw [differs.size]
    exact runAt.le_size
  obtain ⟨enough, ends⟩ := drain_within within
  refine ⟨enough, fun count more => ?_⟩
  obtain ⟨out, ending, r', s', hdrain, damage | ⟨finished, ahead, expects⟩⟩ := ends count more
  · exact ⟨out, ending, r', s', hdrain, .inl damage⟩
  · have checks : extent.Checks out := Begins.checks ⟨rfl, rfl, rfl⟩ expects
    refine ⟨out, ending, r', s', hdrain, .inr ⟨finished, checks, fun first last raw begun inside =>
      Nat.lt_of_not_le fun few => ?_⟩⟩
    obtain ⟨rest, spells, whole⟩ := ahead
    have found : encodeRecords out = rest := by
      rw [whole]
      exact ByteArray.empty_append
    rw [← found] at spells
    -- some bytes of what is spelled out differ, and both would have the same checksum
    obtain ⟨i, differs'⟩ := Spells.differsWithin raw differs begun inside (runAt.spells path) spells
    exact Crc32.ofBytes_ne_of_differsWithin few differs' (runAt.checksum.trans checks.symm)

/-- When one byte of a run was changed, reading ends with damage, or with records that have the
    recorded checksum; never so if the byte is in the payload of an uncompressed chunk. -/
theorem drain_of_differsAt [TakesSpace ρ] {database : Option String} {log' : ByteArray} {p : Nat}
    {extent : Extent} {xs : List ρ}
    (runAt : RunWriter.RunAt none database log extent.start.toNat extent.stop.toNat extent.checksum xs)
    (differs : DiffersAt p log log') (ready : s.Ready ref log') :
    ∃ enough, ∀ count, enough ≤ count → ∃ out ending r' s',
      (drain count (ofExtent ref path extent none database : RunReader ρ) : StoreM _).run s =
          (((out, ending), r'), s') ∧
        ((∃ d, ending = .failed (.corruptData path d)) ∨
          ending = .finished ∧ extent.Checks out ∧
            ¬ InRaw log extent.start.toNat extent.stop.toNat p) := by
  obtain ⟨enough, ends⟩ := drain_of_differsWithin runAt differs.differsWithin ready
  refine ⟨enough, fun count more => ?_⟩
  obtain ⟨out, ending, r', s', hdrain, damage | ⟨finished, checks, none⟩⟩ := ends count more
  · exact ⟨out, ending, r', s', hdrain, .inl damage⟩
  · refine ⟨out, ending, r', s', hdrain, .inr ⟨finished, checks, fun raw => ?_⟩⟩
    obtain ⟨first, last, chunk, begun, within⟩ := raw.rawChunk
    exact absurd (none first last chunk begun within) (by decide)

end RunReader
end ExternalSort
