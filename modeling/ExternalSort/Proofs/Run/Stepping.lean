/-
  ExternalSort.Proofs.Run.Stepping

  What asking a reader for a record comes to, whatever is in the file.

  A chunk is loaded in two requests (`loadChunk_of`). A reader loads chunks until
  one has records left, and what loading one chunk keeps, loading chunks keeps
  (`ensureChunk_keeps`). A reader that is open then decodes a record, or closes
  because there is none (`Went`).
-/

import ExternalSort.Proofs.Failing
import ExternalSort.Run.Reader

namespace ExternalSort
namespace RunReader

variable {ρ : Type} {r r' : RunReader ρ} {s s' : Store}

/-- The reader after it has noted that its extent is at its end. -/
def atEnd (r : RunReader ρ) : RunReader ρ :=
  { r with loaded := true, buffer := .empty, position := 0 }

theorem drained_atEnd (r : RunReader ρ) : r.atEnd.drained = true := rfl

/-- That the end was reached is one thing less to find out. -/
theorem unread_atEnd (open_ : r.loaded = false) : r.atEnd.unread < r.unread := by
  simp only [unread, atEnd, open_, stop, Bool.false_eq_true, if_true, if_false]
  omega

/-- The reader with the text of the next chunk in its buffer. -/
def holding (r : RunReader ρ) (length : Nat) (text : ByteArray) : RunReader ρ :=
  { r with readOffset := r.readOffset + Chunk.headerSize + length, buffer := text, position := 0 }

theorem unread_holding (open_ : r.loaded = false)
    (inside : r.readOffset < r.stop) (length : Nat) (text : ByteArray) :
    (r.holding length text).unread < r.unread := by
  simp only [unread, holding, open_, stop, Chunk.headerSize] at inside ⊢
  omega

/-- A chunk is read in two requests, one for its header and one for its payload, if the extent has
    room for both. -/
theorem loadChunk_of (open_ : r.loaded = false) {P : RunReader ρ → Store → Prop}
    {err : SortError → Store → Prop}
    (past : r.stop < r.readOffset → err (r.damage (.pastEnd r.readOffset)) s)
    (ended : r.readOffset = r.stop → P r.atEnd s)
    (tight : r.readOffset < r.stop → r.stop < r.readOffset + Chunk.headerSize →
      err (r.damage (.truncatedHeader r.readOffset r.stop)) s)
    (reads : r.readOffset + Chunk.headerSize ≤ r.stop →
      Leads (Store.onFile r.file (SpillFile.read r.readOffset Chunk.headerSize)) s
        (fun header t => ∀ compressed length, Chunk.readHeader header = (compressed, length) →
          (r.stop < r.readOffset + Chunk.headerSize + length →
            err (r.damage (.overrun length (r.readOffset + Chunk.headerSize) r.stop)) t) ∧
          (r.readOffset + Chunk.headerSize + length ≤ r.stop →
            Leads (Store.onFile r.file (SpillFile.read (r.readOffset + Chunk.headerSize) length)) t
              (fun payload u =>
                (∀ text, Chunk.decode r.protector r.database r.path compressed payload = .ok text →
                  P (r.holding length text) u) ∧
                ∀ e, Chunk.decode r.protector r.database r.path compressed payload = .error e →
                  err e u)
              err))
        err) :
    Leads (r.loadChunk open_) s (fun r' => P r'.1) err := by
  rw [loadChunk]
  split
  case isTrue behind => exact Leads.of_throw (past behind)
  split
  case isTrue used => exact Leads.of_pure (ended used)
  split
  case isTrue short => exact Leads.of_throw (tight (by omega) (by omega))
  refine Leads.bind ((reads (by omega)).mono ?_ fun _ _ failed => failed)
  intro header t found
  rcases head : Chunk.readHeader header with ⟨compressed, length⟩
  obtain ⟨overruns, fits⟩ := found compressed length head
  dsimp only
  split
  case isTrue long => exact Leads.bind (Leads.of_throw (overruns (by omega)))
  refine Leads.bind ((fits (by omega)).mono ?_ fun _ _ failed => failed)
  rintro payload u ⟨holds, damaged⟩
  exact Leads.bind (Leads.of_lift (fun text decoded => Leads.of_pure (holds text decoded)) damaged)

/-- Loading chunks stops at one that has records left, or when all are loaded. -/
theorem ensureChunk_keeps {P : RunReader ρ → Store → Prop} {err : SortError → Store → Prop}
    (step : ∀ r s (open_ : r.loaded = false), r.drained = true → P r s →
      Leads (r.loadChunk open_) s (fun r' s' => P r'.1 s') err) (holds : P r s) :
    Leads r.ensureChunk s (fun r' s' => P r' s' ∧ (r'.drained = true → r'.loaded = true)) err := by
  -- by induction along the loading, where every chunk leaves less unread
  induction r using ensureChunk.induct generalizing s with
  | case1 r drained open_ ih =>
    rw [ensureChunk, if_pos drained, dif_pos open_]
    exact (step r s open_ drained holds).seq (fun r' t holds' => ih r'.1 r'.2 holds') fun _ _ h => h
  | case2 r drained loaded =>
    rw [ensureChunk, if_pos drained, dif_neg loaded]
    exact Leads.of_pure ⟨holds, fun _ => Bool.not_eq_false _ ▸ loaded⟩
  | case3 r full =>
    rw [ensureChunk, if_neg full]
    exact Leads.of_pure ⟨holds, fun drained => absurd drained full⟩

/-- How asking an open reader for a record can go: it loads chunks, and then it decodes a record, or
    closes because there is none. -/
inductive Went [Storable ρ] (r : RunReader ρ) (s : Store) : Step ρ → RunReader ρ → Store → Prop
  | failed {e : SortError} {s' : Store} (ensured : Failing.runOn r.ensureChunk s = (.error e, s')) :
      Went r s (some (.error e)) r.fail s'
  | ended {r₁ r' : RunReader ρ} {s' : Store}
      (ensured : Failing.runOn r.ensureChunk s = (.ok r₁, s')) (drained : r₁.drained = true)
      (closes : r₁.close = (.ok (), r')) : Went r s none r' s'
  | refused {e : SortError} {r₁ r' : RunReader ρ} {s' : Store}
      (ensured : Failing.runOn r.ensureChunk s = (.ok r₁, s')) (drained : r₁.drained = true)
      (closes : r₁.close = (.error e, r')) : Went r s (some (.error e)) r'.fail s'
  | decoded {result : Except SortError ρ} {r₁ r' : RunReader ρ} {s' : Store}
      (ensured : Failing.runOn r.ensureChunk s = (.ok r₁, s')) (full : r₁.drained = false)
      (decodes : r₁.decodeRecord = (result, r')) : Went r s (some result) r' s'

variable [Storable ρ] {step : Step ρ}

theorem next_of_closed (closed : r.closed = true) : (next r).run s = ((none, r), s) := by
  rw [next, if_pos closed]
  rfl

theorem went_of_next (open_ : r.closed = false) (h : (next r).run s = ((step, r'), s')) :
    Went r s step r' s' := by
  have ready : ¬ r.closed = true := by rw [open_]; simp
  rw [next, if_neg ready, StateT.run_bind] at h
  rcases hrun : Failing.runOn r.ensureChunk s with ⟨e | r₁, s₁⟩
  · rw [show r.ensureChunk.run.run s = (.error e, s₁) from hrun] at h
    cases h
    exact .failed hrun
  · rw [show r.ensureChunk.run.run s = (.ok r₁, s₁) from hrun] at h
    cases hdrained : r₁.drained with
    | true =>
      rcases hclose : r₁.close with ⟨_ | _, r₂⟩ <;>
        simp only [bind, hdrained, if_true, hclose] at h <;> cases h
      · exact .refused hrun hdrained hclose
      · exact .ended hrun hdrained hclose
    | false =>
      simp only [bind, hdrained, Bool.false_eq_true, if_false] at h
      cases h
      exact .decoded hrun hdrained rfl

theorem Went.next_eq (went : Went r s step r' s') (open_ : r.closed = false) :
    (next r).run s = ((step, r'), s') := by
  have ready : ¬ r.closed = true := by rw [open_]; simp
  rw [next, if_neg ready, StateT.run_bind]
  cases went with
  | @failed e _ ensured =>
    rw [show r.ensureChunk.run.run s = (.error e, s') from ensured]
    rfl
  | @ended r₁ _ _ ensured drained closes =>
    rw [show r.ensureChunk.run.run s = (.ok r₁, s') from ensured]
    show (if r₁.drained then _ else _ : StoreM _).run s' = _
    rw [if_pos drained, closes]
    rfl
  | @refused e r₁ _ _ ensured drained closes =>
    rw [show r.ensureChunk.run.run s = (.ok r₁, s') from ensured]
    show (if r₁.drained then _ else _ : StoreM _).run s' = _
    rw [if_pos drained, closes]
    rfl
  | @decoded _ r₁ _ _ ensured full decodes =>
    have left : ¬ r₁.drained = true := by rw [full]; simp
    rw [show r.ensureChunk.run.run s = (.ok r₁, s') from ensured]
    show (if r₁.drained then _ else _ : StoreM _).run s' = _
    rw [if_neg left, decodes]
    rfl

end RunReader
end ExternalSort
