/-
  ExternalSort.Proofs.Run.Verification

  Reading a run from any bytes at all.

  Whatever stands in the file, a reader feeds its checksum with the byte forms of
  exactly the records that it gives, and it ends only where the checksum is the
  recorded one.
-/

import ExternalSort.Proofs.Record.Canonical
import ExternalSort.Proofs.Run.Reader

namespace ExternalSort

open Storable (encode decode)

variable {ρ : Type} [Storable ρ]

/-- Records that have, back to back, the checksum of an extent. -/
def Extent.Checks (e : Extent) (xs : List ρ) : Prop :=
  Crc32.ofBytes (encodeRecords xs) = e.checksum

namespace RunReader

variable {r r' : RunReader ρ} {s s' : Store}

/-- The recorded checksum is that of what was read, followed by the given records. -/
def Expects (r : RunReader ρ) (xs : List ρ) : Prop :=
  (r.checksum.update (encodeRecords xs)).value = r.extent.checksum

/-- What loading chunks leaves alone. -/
structure SameRun (r r' : RunReader ρ) : Prop where
  path : r'.path = r.path
  extent : r'.extent = r.extent
  checksum : r'.checksum = r.checksum
  closed : r'.closed = r.closed

omit [Storable ρ] in
theorem SameRun.refl (r : RunReader ρ) : SameRun r r := ⟨rfl, rfl, rfl, rfl⟩

omit [Storable ρ] in
theorem SameRun.trans {r'' : RunReader ρ} (h : SameRun r r') (k : SameRun r' r'') :
    SameRun r r'' :=
  ⟨k.path.trans h.path, k.extent.trans h.extent, k.checksum.trans h.checksum,
    k.closed.trans h.closed⟩

theorem SameRun.expects (h : SameRun r r') {xs : List ρ} (k : Expects r' xs) : Expects r xs := by
  rw [Expects, h.checksum, h.extent] at k
  exact k

omit [Storable ρ] in
theorem loadChunk_same (open_ : r.loaded = false) :
    Leads (r.loadChunk open_) s
      (fun r' _ => SameRun r r'.1 ∧ (r'.1.loaded = true → r'.1.drained = true))
      fun _ _ => True := by
  apply loadChunk_of open_ (P := fun r' _ => SameRun r r' ∧ (r'.loaded = true → r'.drained = true))
  · exact fun _ => trivial
  · exact fun _ => ⟨⟨rfl, rfl, rfl, rfl⟩, fun _ => rfl⟩
  · exact fun _ _ => trivial
  · -- whatever the two requests give
    refine fun _ => Leads.of_forall (fun header t compressed length _ => ?_) fun _ _ => trivial
    refine ⟨fun _ => trivial, fun _ => Leads.of_forall (fun payload u => ?_) fun _ _ => trivial⟩
    exact ⟨fun _ _ => ⟨⟨rfl, rfl, rfl, rfl⟩,
      fun loaded => Bool.noConfusion (open_.symm.trans loaded)⟩, fun _ _ => trivial⟩

omit [Storable ρ] in
/-- A reader looks for the end only when it has no records left. -/
theorem ensureChunk_same :
    Leads r.ensureChunk s
      (fun r' _ => SameRun r r' ∧ (r'.drained = true → r'.loaded = true) ∧
        ((r.loaded = true → r.drained = true) → r'.loaded = true → r'.drained = true))
      fun _ _ => True := by
  apply (ensureChunk_keeps (P := fun r' _ => SameRun r r' ∧
    ((r.loaded = true → r.drained = true) → r'.loaded = true → r'.drained = true))
    ?_ ⟨.refl r, id⟩).mono
  · rintro r' _ ⟨⟨same, atEnd⟩, loaded⟩
    exact ⟨same, loaded, atEnd⟩
  · exact fun _ _ h => h
  · rintro r₁ t open_ _ ⟨same, -⟩
    exact (loadChunk_same open_).mono
      (fun _ _ h => ⟨same.trans h.1, fun _ => h.2⟩) fun _ _ _ => trivial

variable [CanonicalStorable ρ]

/-- A record that is decoded stands in the buffer. -/
theorem decodeRecord_ok {x : ρ} (full : r.drained = false) (h : r.decodeRecord = (.ok x, r')) :
    StandsAt (encode x) r.buffer r.position ∧
      r' = { r with
        position := r.position + (encode x).size
        checksum := r.checksum.update (encode x) } := by
  have ahead : r.position < r.buffer.size := by simpa [drained] using full
  have reads := CanonicalStorable.reads (α := ρ) r.position (Nat.le_of_lt ahead)
  rw [decodeRecord] at h
  -- what was decoded has one written form, the one that stands in the buffer
  rcases hrun : Reader.runOn (decode : Reader ρ) ⟨r.buffer, r.position, r.position⟩ with
    ⟨fault | y, c⟩
  · simp [hrun] at h
  · obtain ⟨stands, rfl⟩ := reads.of_ok hrun
    simp only [hrun] at h
    obtain ⟨hy, rfl⟩ := Prod.mk.inj h
    obtain rfl := Except.ok.inj hy
    exact ⟨stands, by rw [stands.extract_eq]⟩

/-- A reader gives the records that it feeds its checksum with. -/
theorem next_ok {x : ρ} (open_ : r.closed = false)
    (h : (next r).run s = ((some (.ok x), r'), s')) :
    r'.closed = false ∧ ∀ xs, Expects r' xs → Expects r (x :: xs) := by
  cases went_of_next open_ h with
  | decoded ensured full decodes =>
    obtain ⟨same, -⟩ := ensureChunk_same.of_ok ensured
    obtain ⟨-, rfl⟩ := decodeRecord_ok full decodes
    refine ⟨same.closed.trans open_, fun xs expects => same.expects ?_⟩
    rw [Expects, encodeRecords, Crc32.update_append]
    exact expects

omit [CanonicalStorable ρ] in
/-- A reader ends where its checksum is the recorded one. -/
theorem next_none (open_ : r.closed = false) (h : (next r).run s = ((none, r'), s')) :
    Expects r [] := by
  cases went_of_next open_ h with
  | @ended r₁ r' s' ensured drained closes =>
    obtain ⟨same, loaded, -⟩ := ensureChunk_same.of_ok ensured
    refine same.expects ?_
    rw [Expects, encodeRecords, Crc32.update_empty]
    -- closing has compared the checksums, since everything was loaded and used
    refine Decidable.byContradiction fun differs => ?_
    have exhausted : ((r₁.loaded && r₁.drained) && r₁.checksum.value != r₁.extent.checksum)
        = true := by
      simpa [loaded drained, drained] using differs
    have open₁ : ¬ r₁.closed = true := by rw [same.closed, open_]; simp
    rw [close, if_neg open₁] at closes
    simp only [exhausted, if_true] at closes
    cases closes

/-- Runs account for their records by the recorded checksum. -/
theorem accounts :
    SortedSource.Accounts (fun (r : RunReader ρ) (_ : Store) => r.closed = false) Expects where
  record isOpen h := next_ok isOpen h
  finish isOpen h := next_none isOpen h

/-- A reader at the beginning of an extent. -/
structure Begins (r : RunReader ρ) (e : Extent) : Prop where
  extent : r.extent = e
  checksum : r.checksum = .start
  isOpen : r.closed = false

omit [CanonicalStorable ρ] in
theorem Begins.checks {e : Extent} {xs : List ρ} (h : Begins r e)
    (expects : Expects r xs) : e.Checks xs := by
  rw [Expects, h.checksum, h.extent] at expects
  exact expects

end RunReader
end ExternalSort
