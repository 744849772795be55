/-
  ExternalSort.Proofs.Run.Polling

  When a run is verified.

  A reader notes that its extent is used up only when it is asked for a record
  that is not there. This request compares the checksum of what was read with the
  recorded one, and it closes the reader. Closing a reader that has not been
  asked for more than its records compares nothing, not even behind the last of
  them. A closed reader has nothing more to tell.
-/

import ExternalSort.Proofs.Run.Verification

namespace ExternalSort

open Storable (encode)
open SortedSource (drain)

namespace RunReader

variable {ρ : Type} [Storable ρ] {r r' : RunReader ρ} {s s' : Store} {e : Extent} {path : Path}
  {xs : List ρ}

/-- Every byte of the extent has been loaded and decoded. -/
def Consumed (r : RunReader ρ) : Prop := r.readOffset = r.stop ∧ r.drained = true

instance (r : RunReader ρ) : Decidable (Consumed r) :=
  inferInstanceAs (Decidable (_ ∧ _))

/-- Asking for more gives nothing, closing tells nothing, and neither changes anything. -/
def Over (r : RunReader ρ) : Prop :=
  (∀ s, (next r).run s = ((none, r), s)) ∧ r.close = (.ok (), r)

theorem over_of_closed (h : r.closed = true) : Over r := by
  constructor
  · intro s
    rw [next, if_pos h]
    rfl
  · rw [close, if_pos h]

/-- What asking for more tells behind the last record. -/
def verdict (e : Extent) (path : Path) (xs : List ρ) : Step ρ :=
  let found := Crc32.ofBytes (encodeRecords xs)
  if found = e.checksum then none
  else some (.error (.corruptData path (.checksum found e.checksum)))

/-- A reader of an extent that gave the given records, and was not asked for more. -/
structure Gave (e : Extent) (path : Path) (xs : List ρ) (r : RunReader ρ) : Prop where
  extent : r.extent = e
  path : r.path = path
  checksum : r.checksum = Crc32.start.update (encodeRecords xs)
  isOpen : r.closed = false
  loaded : r.loaded = false

theorem gave_ofExtent (file : FileRef) (path : Path) (e : Extent) (hook : Option Protector)
    (database : Option String) :
    Gave e path [] (ofExtent file path e hook database : RunReader ρ) :=
  ⟨rfl, rfl, rfl, rfl, rfl⟩

/-- A record is given without looking for the end. -/
theorem gave_next [CanonicalStorable ρ] (gave : Gave e path xs r) {x : ρ}
    (h : (next r).run s = ((some (.ok x), r'), s')) : Gave e path (xs ++ [x]) r' := by
  obtain ⟨rfl, rfl, checksum, isOpen, loaded⟩ := gave
  cases went_of_next isOpen h with
  | @decoded _ r₁ r' s' ensured full decodes =>
    obtain ⟨same, -, atEnd⟩ := ensureChunk_same.of_ok ensured
    obtain ⟨-, rfl⟩ := decodeRecord_ok full decodes
    refine ⟨same.extent, same.path, ?_, same.closed.trans isOpen, ?_⟩
    · dsimp only
      rw [same.checksum, checksum, encodeRecords_concat, Crc32.update_append]
    · -- a reader that had noted the end would have had no record left
      apply Bool.eq_false_iff.mpr
      intro noted
      have drained := atEnd (fun h => Bool.noConfusion (loaded.symm.trans h)) noted
      exact Bool.noConfusion (full.symm.trans drained)

omit [Storable ρ] in
theorem ensureChunk_of_consumed (consumed : Consumed r) (open_ : r.loaded = false) :
    Failing.runOn r.ensureChunk s = (.ok r.atEnd, s) := by
  obtain ⟨ended, used⟩ := consumed
  -- there is no chunk to load, so the end is noted; then nothing is left to do
  rw [ensureChunk, if_pos used, dif_pos open_, loadChunk, dif_neg (by omega), dif_pos ended]
  show Failing.runOn r.atEnd.ensureChunk s = _
  rw [ensureChunk, if_pos (drained_atEnd r), dif_neg (by simp [atEnd])]
  rfl

omit [Storable ρ] in
/-- Closing a reader that has noted the end compares the checksums. -/
theorem close_atEnd (isOpen : r.closed = false) :
    r.atEnd.close = (if r.checksum.value = r.extent.checksum then .ok ()
      else .error (.corruptData r.path (.checksum r.checksum.value r.extent.checksum)),
      { r.atEnd with closed := true }) := by
  have ready : ¬ r.atEnd.closed = true := by rw [show r.atEnd.closed = false from isOpen]; simp
  rw [close, if_neg ready, drained_atEnd]
  by_cases same : r.checksum.value = r.extent.checksum
  · rw [if_pos same]
    simp [atEnd, same]
  · rw [if_neg same]
    simp [atEnd, same, damage]

/-- Behind the last record, asking for more compares the checksums. -/
theorem next_of_consumed (gave : Gave e path xs r) (consumed : Consumed r) (s : Store) :
    ∃ r', (next r).run s = ((verdict e path xs, r'), s) ∧ Over r' := by
  obtain ⟨rfl, rfl, checksum, isOpen, loaded⟩ := gave
  have ready : ¬ r.closed = true := by rw [isOpen]; simp
  have value : r.checksum.value = Crc32.ofBytes (encodeRecords xs) := congrArg Crc32.value checksum
  -- the end is noted first, so the reader closes itself as one that has noted it
  rw [next, if_neg ready, StateT.run_bind,
    show r.ensureChunk.run.run s = _ from ensureChunk_of_consumed consumed loaded]
  simp only [bind, drained_atEnd, if_true, close_atEnd isOpen, value]
  by_cases same : Crc32.ofBytes (encodeRecords xs) = r.extent.checksum
  · rw [verdict, if_pos same, if_pos same]
    exact ⟨_, rfl, over_of_closed rfl⟩
  · rw [verdict, if_neg same, if_neg same]
    exact ⟨_, rfl, over_of_closed rfl⟩

/-- Closing before that compares nothing. -/
theorem close_of_gave (gave : Gave e path xs r) : ∃ r', r.close = (.ok (), r') ∧ Over r' := by
  refine ⟨{ r with closed := true, buffer := .empty, position := 0 }, ?_, over_of_closed rfl⟩
  rw [close, if_neg (by rw [gave.isOpen]; exact Bool.false_ne_true), gave.loaded]
  rfl

end RunReader

/-! ## A run with any recorded checksum -/

/-- After any number of records, whatever the file holds and whatever checksum was recorded, closing
    a reader compares nothing. If the extent was used up, asking for more compares the checksums.
    Either way, nothing is told after that. -/
theorem RunReader.verifies_when_asked {key value : Kind} {file : FileRef} {path : Path}
    {extent : Extent} {hook : Option Protector} {database : Option String} {count : Nat}
    {out : List (Record key value)} {r : RunReader (Record key value)} {s s' : Store}
    (h : (drain count (ofExtent file path extent hook database : RunReader (Record key value)) :
      StoreM _).run s = (((out, .enough), r), s')) :
    (∃ r', r.close = (.ok (), r') ∧ Over r') ∧
      (Consumed r → ∀ t, ∃ r', (next r).run t = ((verdict extent path out, r'), t) ∧ Over r') := by
  have gave : Gave extent path out r :=
    SortedSource.drainOnto_keeps (P := fun xs r _ => Gave extent path xs r)
      (fun gave h => gave_next gave h) h (gave_ofExtent file path extent hook database)
  exact ⟨close_of_gave gave, next_of_consumed gave⟩

/-- A file with one chunk of one record, the number seven. -/
def sevenFile : FileRef × Store :=
  (do
    let file ← Store.register ⟨"/tmp/runs"⟩
    let _ ← (Store.onFile file (SpillFile.write ⟨#[4, 0, 0, 0, 7, 0, 0, 0]⟩)).run
    return file : StoreM FileRef).run {}

/-- The extent of that chunk, with a checksum that the record does not have. -/
def misreported : Extent := ⟨0, 8, 0⟩

/-- A reader of that extent. -/
def sevenReader : RunReader (Record .int32 .null) :=
  .ofExtent sevenFile.1 ⟨"/tmp/runs"⟩ misreported none none

/-- Reading one record uses up the extent. -/
def sevenConsumed : Bool :=
  match (drain 1 sevenReader : StoreM _).run sevenFile.2 with
  | (((out, .enough), r), _) => decide (out = [((7 : Int32), ())] ∧ r.Consumed)
  | _ => false

theorem RunReader.verifies_when_asked_seven :
    ∃ r s', (drain 1 sevenReader : StoreM _).run sevenFile.2 =
        ((([((7 : Int32), ())], .enough), r), s') ∧ r.Consumed ∧
      (∃ r', r.close = (.ok (), r') ∧ Over r') ∧
      (Consumed r → ∀ t, ∃ r', (next r).run t =
        ((verdict misreported ⟨"/tmp/runs"⟩ [((7 : Int32), ())], r'), t) ∧ Over r') := by
  have stands : sevenConsumed = true := by decide +kernel
  unfold sevenConsumed at stands
  split at stands
  · rename_i out r s' h
    obtain ⟨rfl, consumed⟩ := of_decide_eq_true stands
    exact ⟨r, s', h, consumed, RunReader.verifies_when_asked h⟩
  · exact Bool.noConfusion stands

/-- Reading one record uses up the extent, the record does not have the recorded checksum, and
    closing does not tell. -/
def sevenUntold : Bool :=
  match (drain 1 sevenReader : StoreM _).run sevenFile.2 with
  | (((out, .enough), r), _) => decide (out = [((7 : Int32), ())] ∧ r.Consumed ∧
      Crc32.ofBytes (encodeRecords out) ≠ misreported.checksum) &&
    match r.close with
    | (.ok (), _) => true
    | (.error _, _) => false
  | _ => false

/-- A wrong checksum is not found when a reader is closed right behind the last record. -/
theorem RunReader.untold_of_seven :
    ∃ r s', (drain 1 sevenReader : StoreM _).run sevenFile.2 =
        ((([((7 : Int32), ())], .enough), r), s') ∧ r.Consumed ∧
      ¬ misreported.Checks [((7 : Int32), ())] ∧ r.close.1 = .ok () := by
  have stands : sevenUntold = true := by decide +kernel
  unfold sevenUntold at stands
  split at stands
  · rename_i out r s' h
    obtain ⟨before, after⟩ := Bool.and_eq_true_iff.mp stands
    obtain ⟨rfl, consumed, differs⟩ := of_decide_eq_true before
    refine ⟨r, s', h, consumed, differs, ?_⟩
    split at after
    · rename_i closes
      rw [closes]
    · exact Bool.noConfusion after
  · exact Bool.noConfusion stands

end ExternalSort
