/-
  ExternalSort.Proofs.Run.Foreign

  Reading an extent of any bytes at all.

  Without a hook, and if records take space, reading ends whatever the file
  holds: every record leaves less to read, either in the buffer or in the extent.
  It ends with nothing more or with one error, which is damage at the path of the
  file, and then nothing comes any more. All the time the place of the reader is
  inside the extent, so that no check of the watched reader ever fails.
-/

import ExternalSort.Proofs.Run.Watching

namespace ExternalSort

open SortedSource (drain)

namespace RunReader

variable {ρ : Type} [Storable ρ] {r r' : RunReader ρ} {s s' : Store} {step : Step ρ}

/-- A reader without a hook inside an extent of a file with a content. -/
structure Inside (e : Extent) (path : Path) (content : ByteArray) (r : RunReader ρ) (s : Store) :
    Prop where
  shown : s.Shows r.file r.path content
  path : r.path = path
  extent : r.extent = e
  plain : r.protector = none
  begun : e.start.toNat ≤ r.readOffset
  placed : Placed r

variable {e : Extent} {path : Path} {content : ByteArray}

omit [Storable ρ] in
theorem inside_ofExtent {file : FileRef} (shown : s.Shows file path content)
    (ordered : e.start ≤ e.stop) (limit : e.stop.toNat < Disk.offsetLimit)
    (database : Option String) :
    Inside e path content (ofExtent file path e none database : RunReader ρ) s :=
  ⟨shown, rfl, rfl, rfl, Nat.le_refl _, UInt64.le_iff_toNat_le.mp ordered, limit⟩

omit [Storable ρ] in
theorem Inside.of_onward (inside : Inside e path content r s) (onward : Onward r r')
    (shown : s'.Shows r.file r.path content) : Inside e path content r' s' := by
  obtain ⟨-, rfl, rfl, plain, begun, placed⟩ := inside
  exact ⟨onward.shown shown, onward.path, onward.extent, onward.protector.trans plain,
    Nat.le_trans begun onward.on, onward.placed placed⟩

/-- Every answer leaves the reader inside its extent. -/
theorem Inside.next (inside : Inside e path content r s)
    (h : (next r).run s = ((step, r'), s')) : Inside e path content r' s' := by
  cases isOpen : r.closed with
  | true =>
    rw [RunReader.next, if_pos isOpen] at h
    cases h
    exact inside
  | false =>
    obtain ⟨answers, shown⟩ := next_answers inside.shown inside.placed isOpen h
    exact inside.of_onward answers.onward shown

/-- A reader inside an extent that was not closed. -/
structure Reading (e : Extent) (path : Path) (content : ByteArray) (r : RunReader ρ) (s : Store) :
    Prop extends Inside e path content r s where
  isOpen : r.closed = false

theorem Reading.record {x : ρ} (reading : Reading e path content r s)
    (h : (next r).run s = ((some (.ok x), r'), s')) :
    Reading e path content r' s' ∧ Answers content r (some (.ok x)) r' := by
  obtain ⟨answers, shown⟩ := next_answers reading.shown reading.placed reading.isOpen h
  exact ⟨⟨reading.of_onward answers.onward shown, answers.isOpen reading.isOpen⟩, answers⟩

theorem Reading.error {e' : SortError} (reading : Reading e path content r s)
    (h : (next r).run s = ((some (.error e'), r'), s')) : IsDamageInside path e' := by
  obtain ⟨answers, -⟩ := next_answers reading.shown reading.placed reading.isOpen h
  rw [← reading.path]
  exact answers.damage reading.plain

/-- Reading an extent of any bytes ends, with damage if not well. -/
theorem Reading.drain_ends [CanonicalStorable ρ] [TakesSpace ρ]
    (reading : Reading e path content r s) :
    ∃ enough, ∀ count, enough ≤ count → ∃ out ending r' s',
      (drain count r : StoreM _).run s = (((out, ending), r'), s') ∧
        (ending = .finished ∨ ∃ error, ending = .failed error ∧ IsDamageInside path error) := by
  obtain ⟨enough, ends⟩ := SortedSource.drainOnto_ends reading
    (Prod.lex Nat.lt_wfRel Nat.lt_wfRel).wf left
    (fun reading h => ⟨(reading.record h).1, (reading.record h).2.left⟩)
    fun reading h => reading.error h
  exact ⟨enough, fun count more => ends count more []⟩

end RunReader

/-- Whatever a file holds, a run without a hook whose records take space is read in finitely many
    steps. It ends with nothing more or with one error, which is damage at the path of the file and
    not a place past the end, and nothing comes after that. After any number of records the place of
    the reader is inside the extent, and it goes on as the reader does whose every request, difference
    and sum of offsets is watched. -/
theorem RunReader.ends_inside_extent {key value : Kind} (kinds : ¬ (key = .null ∧ value = .null))
    {s : Store} {file : FileRef} {path : Path} {content : ByteArray}
    (shown : s.Shows file path content) {extent : Extent} (ordered : extent.start ≤ extent.stop)
    (limit : extent.stop.toNat < 2 ^ 63) (database : Option String) :
    (∃ enough, ∀ count, enough ≤ count → ∃ out ending r s',
      (drain count (ofExtent file path extent none database : RunReader (Record key value)) :
        StoreM _).run s = (((out, ending), r), s') ∧ Over r ∧
      (ending = .finished ∨ ∃ d, ending = .failed (.corruptData path d) ∧
        ∀ offset, d ≠ .pastEnd offset)) ∧
    ∀ count out ending r s',
      (drain count (ofExtent file path extent none database : RunReader (Record key value)) :
        StoreM _).run s = (((out, ending), r), s') →
      extent.start.toNat ≤ r.readOffset ∧ r.readOffset ≤ extent.stop.toNat ∧
      ∀ alarm, (nextWatched alarm r).run s' = (next r).run s' := by
  have space := Record.takesSpace kinds
  have inside := inside_ofExtent (ρ := Record key value) shown ordered limit database
  constructor
  · obtain ⟨enough, ends⟩ := Reading.drain_ends ⟨inside, rfl⟩
    refine ⟨enough, fun count more => ?_⟩
    obtain ⟨out, ending, r, s', hdrain, how⟩ := ends count more
    have stays : Over r := by
      obtain rfl | closed := SortedSource.drainOnto_stops closed_of_next hdrain
      · obtain h | ⟨_, h, -⟩ := how <;> cases h
      · exact over_of_closed closed
    obtain rfl | ⟨error, rfl, d, rfl, other⟩ := how
    · exact ⟨out, _, r, s', hdrain, stays, .inl rfl⟩
    · exact ⟨out, _, r, s', hdrain, stays, .inr ⟨d, rfl, other⟩⟩
  · intro count out ending r s' hdrain
    have inside' : Inside extent path content r s' :=
      SortedSource.drainOnto_invariant (fun inside h => inside.next h) hdrain inside
    have before := inside'.placed.before
    rw [stop, inside'.extent] at before
    refine ⟨inside'.begun, before, fun alarm => ?_⟩
    apply nextWatched_eq _ inside'.placed inside'.shown
    rw [inside'.extent]
    exact inside'.begun

/-- A header that claims the longest compressed payload, with one byte behind it. -/
def garbage : ByteArray := ⟨#[0, 0, 0, 128, 7]⟩

/-- A store with a file of these bytes. -/
def garbageStore : Store := .ofContent ⟨"/tmp/runs"⟩ garbage (by decide)

/-- A reader of all of them. -/
def garbageReader : RunReader (Record .int32 .null) :=
  .ofExtent ⟨0⟩ ⟨"/tmp/runs"⟩ ⟨0, 5, 0⟩ none none

theorem RunReader.ends_inside_extent_garbage :
    garbageStore.Shows ⟨0⟩ ⟨"/tmp/runs"⟩ garbage ∧
    (∃ enough, ∀ count, enough ≤ count → ∃ out ending r s',
      (drain count garbageReader : StoreM _).run garbageStore = (((out, ending), r), s') ∧ Over r ∧
      (ending = .finished ∨ ∃ d, ending = .failed (.corruptData ⟨"/tmp/runs"⟩ d) ∧
        ∀ offset, d ≠ .pastEnd offset)) ∧
    ∀ count out ending r s',
      (drain count garbageReader : StoreM _).run garbageStore = (((out, ending), r), s') →
      0 ≤ r.readOffset ∧ r.readOffset ≤ 5 ∧
      ∀ alarm, (nextWatched alarm r).run s' = (next r).run s' := by
  have shown : garbageStore.Shows ⟨0⟩ ⟨"/tmp/runs"⟩ garbage := Store.shows_ofContent _ (by decide)
  exact ⟨shown, RunReader.ends_inside_extent (by decide) shown (by decide) (by decide) none⟩

end ExternalSort
