/-
  ExternalSort.Proofs.Run.Blank

  Reading records that take no space.

  A record of two empty values has no bytes, so a reader that has some text in
  its buffer gives such records for ever: none of them uses anything up. No
  writer makes a chunk with text for them, but a foreign or damaged file may have
  one. Whether there is one decides how reading ends: if there is none before the
  first thing that is wrong, no record comes out at all.
-/

import ExternalSort.Proofs.Merge.Interleaving
import ExternalSort.Proofs.Run.Foreign
import ExternalSort.Sorter.Backing

namespace ExternalSort

open SortedSource (drain)

/-- Some chunk has text, and the file holds it and the chunks before it, which have none. -/
inductive Bottomless (hook : Option Protector) (database : Option String) (path : Path)
    (content : ByteArray) : (start stop : Nat) → Prop
  | here {start stop length : Nat} {compressed : Bool} {text : ByteArray}
      (stands : Chunk.Stands content start stop compressed length)
      (body : Chunk.decode hook database path compressed (Chunk.payloadAt content start length) =
        .ok text)
      (some : 0 < text.size) : Bottomless hook database path content start stop
  | later {start stop length : Nat} {compressed : Bool}
      (stands : Chunk.Stands content start stop compressed length)
      (body : Chunk.decode hook database path compressed (Chunk.payloadAt content start length) =
        .ok .empty)
      (rest : Bottomless hook database path content (start + Chunk.headerSize + length) stop) :
      Bottomless hook database path content start stop

namespace Bottomless

variable {hook : Option Protector} {database : Option String} {path : Path} {content : ByteArray}
  {start stop : Nat}

theorem lt (h : Bottomless hook database path content start stop) : start < stop := by
  cases h with
  | here stands =>
    have room := stands.room
    simp only [Chunk.headerSize] at room
    omega
  | later stands =>
    have room := stands.room
    simp only [Chunk.headerSize] at room
    omega

/-- Behind a chunk without text nothing changes. -/
theorem iff_of_stands {compressed : Bool} {length : Nat} {text : ByteArray}
    (stands : Chunk.Stands content start stop compressed length)
    (body : Chunk.decode hook database path compressed (Chunk.payloadAt content start length) =
      .ok text) :
    Bottomless hook database path content start stop ↔ 0 < text.size ∨
      Bottomless hook database path content (start + Chunk.headerSize + length) stop := by
  constructor
  · intro h
    cases h with
    | here stands' body' some =>
      obtain ⟨rfl, rfl⟩ := stands.unique stands'
      obtain rfl := Except.ok.inj (body.symm.trans body')
      exact .inl some
    | later stands' body' rest =>
      obtain ⟨rfl, rfl⟩ := stands.unique stands'
      exact .inr rest
  · rintro (some | rest)
    · exact .here stands body some
    · by_cases some : 0 < text.size
      · exact .here stands body some
      · obtain rfl : text = .empty := ByteArray.size_eq_zero_iff.mp (by omega)
        exact .later stands body rest

/-- Where no chunk can be loaded there is none with text. -/
theorem not_of_lacks {e : SortError}
    (lacks : Chunk.Lacks hook database path content start stop e) :
    ¬ Bottomless hook database path content start stop := by
  intro h
  cases h with
  | here stands body => cases body.symm.trans (lacks.of_stands stands)
  | later stands body => cases body.symm.trans (lacks.of_stands stands)

end Bottomless

namespace RunReader

variable {ρ : Type} {r r' : RunReader ρ} {content : ByteArray}
  {result : Except SortError (RunReader ρ)}

/-- A reader at the beginning of a chunk. -/
structure Fresh (r : RunReader ρ) : Prop where
  drained : r.drained = true
  unloaded : r.loaded = false

/-- Loading chunks finds text where there is some. -/
theorem Fetches.full_iff (fetches : Fetches content r result) (fresh : Fresh r) :
    (∃ r', result = .ok r' ∧ r'.drained = false) ↔
      Bottomless r.protector r.database r.path content r.readOffset r.stop := by
  induction fetches with
  | full full => exact Bool.noConfusion (full.symm.trans fresh.drained)
  | noted _ loaded => exact Bool.noConfusion (fresh.unloaded.symm.trans loaded)
  | failed _ _ loads =>
    cases loads with
    | lacking lacks =>
      refine iff_of_false ?_ (Bottomless.not_of_lacks lacks)
      rintro ⟨_, eq, -⟩
      cases eq
  | @more r r' result _ _ loads rest ih =>
    cases loads with
    | ended ended =>
      -- the end was noted, and nothing is loaded behind it
      refine iff_of_false ?_ fun bottomless => absurd bottomless.lt (by omega)
      rintro ⟨r', rfl, full⟩
      cases rest with
      | full full' => exact Bool.noConfusion (full'.symm.trans (drained_atEnd r))
      | noted => exact Bool.noConfusion (full.symm.trans (drained_atEnd r))
      | more _ unloaded => cases unloaded
    | @chunk compressed length text stands body =>
      rw [Bottomless.iff_of_stands stands body]
      by_cases some : 0 < text.size
      · have full : (r.holding length text).drained = false :=
          decide_eq_false (Nat.not_le_of_lt some)
        exact iff_of_true ⟨_, rest.eq_of_full full, full⟩ (.inl some)
      · have fresh' : Fresh (r.holding length text) :=
          ⟨decide_eq_true (Nat.le_of_not_lt some), fresh.unloaded⟩
        rw [ih fresh', or_iff_right some]
        rfl

/-! ## Reading records without bytes -/

variable {s s' : Store} {e : Extent} {path : Path}

/-- A record without bytes. -/
abbrev Blank := Record .null .null

/-- A record without bytes is decoded from any text, and leaves all of it. -/
theorem decodeRecord_blank {r : RunReader Blank} (full : r.drained = false) :
    r.decodeRecord = (.ok ((), ()), { r with
      position := r.position + 0
      checksum := r.checksum.update .empty }) := by
  have ahead : r.position < r.buffer.size := by simpa [RunReader.drained] using full
  exact decodeRecord_of_stands (x := (((), ()) : Blank)) (StandsAt.nothing (Nat.le_of_lt ahead))
    (by decide)

/-- A reader with some text in its buffer, or in front of some. -/
structure Pours (content : ByteArray) (r : RunReader Blank) (s : Store) : Prop where
  isOpen : r.closed = false
  shown : s.Shows r.file r.path content
  placed : Placed r
  source : r.drained = false ∨
    Fresh r ∧ Bottomless r.protector r.database r.path content r.readOffset r.stop

/-- It gives a record, and has that text again. -/
theorem Pours.record {r : RunReader Blank} (pours : Pours content r s) :
    ∃ r' s', (next r).run s = ((some (.ok ((), ())), r'), s') ∧ Pours content r' s' := by
  obtain ⟨isOpen, shown, placed, source⟩ := pours
  rcases h : (next r).run s with ⟨⟨step, r'⟩, s'⟩
  obtain ⟨answers, shown'⟩ := next_answers shown placed isOpen h
  have onward := answers.onward
  -- either there is text at hand, or there is a chunk with text ahead
  have fills {result : Except SortError (RunReader Blank)} (fetches : Fetches content r result) :
      ∃ r₁, result = .ok r₁ ∧ r₁.drained = false := by
    obtain full | ⟨fresh, bottomless⟩ := source
    · exact ⟨r, fetches.eq_of_full full, full⟩
    · exact (fetches.full_iff fresh).mpr bottomless
  cases answers with
  | failed fetches =>
    obtain ⟨_, eq, -⟩ := fills fetches
    cases eq
  | ended fetches drained =>
    obtain ⟨_, eq, full⟩ := fills fetches
    cases eq
    exact Bool.noConfusion (full.symm.trans drained)
  | refused fetches drained =>
    obtain ⟨_, eq, full⟩ := fills fetches
    cases eq
    exact Bool.noConfusion (full.symm.trans drained)
  | decoded fetches full decodes =>
    rw [decodeRecord_blank full] at decodes
    obtain ⟨rfl, rfl⟩ := Prod.mk.inj decodes
    exact ⟨_, s', rfl, fetches.onward.2.trans isOpen, onward.shown shown', onward.placed placed,
      .inl full⟩

/-- Where no chunk has text, there is nothing or an error instead of a record. -/
theorem Fresh.last_of_next {r : RunReader Blank} (fresh : Fresh r) (isOpen : r.closed = false)
    (shown : s.Shows r.file r.path content) (placed : Placed r)
    (dry : ¬ Bottomless r.protector r.database r.path content r.readOffset r.stop)
    {step : Step Blank} {r' : RunReader Blank} (h : (next r).run s = ((step, r'), s')) :
    ∀ x, step ≠ some (.ok x) := by
  obtain ⟨answers, -⟩ := next_answers shown placed isOpen h
  rintro x rfl
  cases answers with
  | decoded fetches full => exact dry ((fetches.full_iff fresh).mp ⟨_, rfl, full⟩)

theorem fresh_ofExtent (file : FileRef) (path : Path) (e : Extent) (hook : Option Protector)
    (database : Option String) : Fresh (ofExtent file path e hook database : RunReader ρ) :=
  ⟨rfl, rfl⟩

end RunReader

/-- Whatever a file holds, a run of records without bytes is read for ever if one of its chunks has
    text, and else it ends without a record. Through a sorter it always ends, since a merge counts
    the records that it gives. -/
theorem RunReader.pours_or_ends {s : Store} {file : FileRef} {path : Path} {content : ByteArray}
    (shown : s.Shows file path content) {extent : Extent} (ordered : extent.start ≤ extent.stop)
    (limit : extent.stop.toNat < 2 ^ 63) (hook : Option Protector) (database : Option String) :
    (Bottomless hook database path content extent.start.toNat extent.stop.toNat →
      ∀ count, ∃ r s',
        (drain count (ofExtent file path extent hook database : RunReader (Record .null .null)) :
          StoreM _).run s = (((List.replicate count ((), ()), .enough), r), s')) ∧
    (¬ Bottomless hook database path content extent.start.toNat extent.stop.toNat →
      ∃ ending r s', (ending = .finished ∨ ∃ e, ending = .failed e) ∧ Over r ∧
        ∀ count, 0 < count →
          (drain count (ofExtent file path extent hook database : RunReader (Record .null .null)) :
            StoreM _).run s = ((([], ending), r), s')) ∧
    ∀ (sorted : Sorted (Record .null .null)) (t : Store), ∃ enough, ∀ count, enough ≤ count →
      ∃ out ending sorted' t',
        (drain count sorted : StoreM _).run t = (((out, ending), sorted'), t') ∧
        (ending = .finished ∨ ∃ e, ending = .failed e) := by
  have placed : Placed (ofExtent file path extent hook database : RunReader Blank) :=
    ⟨UInt64.le_iff_toNat_le.mp ordered, limit⟩
  have fresh := fresh_ofExtent (ρ := Blank) file path extent hook database
  refine ⟨fun bottomless count => ?_, fun dry => ?_, fun sorted t => ?_⟩
  · exact SortedSource.drainOnto_endless (fun pours => pours.record)
      (⟨rfl, shown, placed, .inr ⟨fresh, bottomless⟩⟩ : Pours content _ s) count []
  · rcases h : (next (ofExtent file path extent hook database : RunReader Blank)).run s with
      ⟨⟨step, r⟩, s'⟩
    have last := fresh.last_of_next rfl shown placed dry h
    have stays := over_of_closed (closed_of_next h last)
    obtain _ | e | x := step
    · exact ⟨.finished, r, s', .inl rfl, stays, fun count => SortedSource.drain_of_none h⟩
    · exact ⟨.failed e, r, s', .inr ⟨e, rfl⟩, stays, fun count => SortedSource.drain_of_error h⟩
    · exact absurd rfl (last x)
  · exact ⟨Merge.atMost sorted + 1, fun count many => Merge.drainOnto_ends sorted t count many []⟩

/-- An uncompressed chunk with one byte of text. -/
def oneByte : ByteArray := ⟨#[1, 0, 0, 0, 0]⟩

theorem bottomless_oneByte (path : Path) : Bottomless none none path oneByte 0 5 :=
  have stands : Chunk.Stands oneByte 0 5 false 1 := ⟨by decide, by decide, by decide⟩
  .here stands rfl (by decide)

/-- A store with a file of that chunk. -/
def oneByteStore : Store := .ofContent ⟨"/tmp/runs"⟩ oneByte (by decide)

/-- A reader of that chunk, or of the bytes before `stop`. -/
def oneByteReader (stop : UInt64 := 5) : RunReader (Record .null .null) :=
  .ofExtent ⟨0⟩ ⟨"/tmp/runs"⟩ ⟨0, stop, 0⟩ none none

/-- An extent that ends with the header has no room for the byte. -/
theorem not_bottomless_header (path : Path) : ¬ Bottomless none none path oneByte 0 4 :=
  have lacks : Chunk.Lacks none none path oneByte 0 4 _ :=
    .roomForPayload (by decide : Chunk.readHeader (oneByte.extract 0 4) = (false, 1)) (by decide)
  Bottomless.not_of_lacks lacks

theorem RunReader.pours_or_ends_oneByte :
    (∀ count, ∃ r s', (drain count oneByteReader : StoreM _).run oneByteStore =
      (((List.replicate count ((), ()), .enough), r), s')) ∧
    (∃ ending r s', (ending = .finished ∨ ∃ e, ending = .failed e) ∧ Over r ∧
      ∀ count, 0 < count →
        (drain count (oneByteReader 4) : StoreM _).run oneByteStore = ((([], ending), r), s')) ∧
    ∀ (sorted : Sorted (Record .null .null)) (t : Store), ∃ enough, ∀ count, enough ≤ count →
      ∃ out ending sorted' t',
        (drain count sorted : StoreM _).run t = (((out, ending), sorted'), t') ∧
        (ending = .finished ∨ ∃ e, ending = .failed e) := by
  have shown : oneByteStore.Shows ⟨0⟩ ⟨"/tmp/runs"⟩ oneByte := Store.shows_ofContent _ (by decide)
  have whole : (⟨0, 5, 0⟩ : Extent).start ≤ (⟨0, 5, 0⟩ : Extent).stop := by decide
  have header : (⟨0, 4, 0⟩ : Extent).start ≤ (⟨0, 4, 0⟩ : Extent).stop := by decide
  obtain ⟨pours, -, ends⟩ := RunReader.pours_or_ends shown whole (by decide) none none
  obtain ⟨-, dry, -⟩ := RunReader.pours_or_ends shown header (by decide) none none
  exact ⟨pours (bottomless_oneByte _), dry (not_bottomless_header _), ends⟩

/-- One byte of text is enough for any number of records. -/
theorem RunReader.pours_of_oneByte :
    oneByteStore.Shows ⟨0⟩ ⟨"/tmp/runs"⟩ oneByte ∧ ∀ count, ∃ r s',
      (drain count oneByteReader : StoreM _).run oneByteStore =
        (((List.replicate count ((), ()), .enough), r), s') := by
  have shown : oneByteStore.Shows ⟨0⟩ ⟨"/tmp/runs"⟩ oneByte := Store.shows_ofContent _ (by decide)
  have placed : Placed oneByteReader := ⟨by decide, by decide⟩
  have fresh : Fresh oneByteReader := fresh_ofExtent _ _ _ _ _
  have pours : Pours oneByte oneByteReader oneByteStore :=
    ⟨rfl, shown, placed, .inr ⟨fresh, bottomless_oneByte _⟩⟩
  exact ⟨shown, fun count =>
    SortedSource.drainOnto_endless (fun pours => pours.record) pours count []⟩

end ExternalSort
