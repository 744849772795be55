/-
  ExternalSort.Proofs.Run.Placement

  Where a run lies in its file.

  A run begins where the file ends and ends where the file ends when the run is
  finished. A hook may make anything of the records in a chunk, but every chunk
  has a header, so a run of records that take space is not empty.
-/

import ExternalSort.Proofs.Run.Writer

namespace ExternalSort
namespace RunWriter

open Storable (encode)

variable {ρ : Type} [Storable ρ] {w : RunWriter} {s : Store} {base size : Nat}

/-- A run in the making, which begins at `base` in a file that ends at `size`. -/
structure Lies (base : Nat) (w : RunWriter) (s : Store) (size : Nat) : Prop where
  known : s.Known w.file
  isOpen : ∃ h log, (s.file w.file).IsOpen s.disk h log ∧ log.size = size
  calm : (s.file w.file).pending.size < SpillFile.bufferLimit
  start : w.start = base
  le : base ≤ size

/-- Some bytes of the run are in the file, or will be. -/
def Begun (base : Nat) (w : RunWriter) (size : Nat) : Prop := base < size ∨ 0 < w.buffer.size

/-- The end of a file whose buffer is not full can be told as an offset. -/
theorem Lies.size_lt (lies : Lies base w s size) : size < UInt64.size := by
  obtain ⟨h, log, isOpen, rfl⟩ := lies.isOpen
  calc log.size
    _ < Disk.offsetLimit + (s.file w.file).pending.size := isOpen.size_lt
    _ ≤ Disk.offsetLimit + SpillFile.bufferLimit := Nat.add_le_add_left (Nat.le_of_lt lies.calm) _
    _ ≤ UInt64.size := by decide

/-- What a writer goes through: its run gets longer at the end of the file. -/
structure Goes (base : Nat) (w : RunWriter) (s : Store) (size : Nat) (w' : RunWriter) (s' : Store)
    (size' : Nat) : Prop where
  same : ∃ buffer checksum, w' = { w with buffer, checksum }
  lies : Lies base w' s' size'
  le : size ≤ size'
  begun : Begun base w size → Begun base w' size'
  beside : s.Beside w.file s'

theorem Goes.refl (lies : Lies base w s size) : Goes base w s size w s size :=
  ⟨⟨_, _, rfl⟩, lies, Nat.le_refl _, id, .refl _ _⟩

theorem Goes.trans {w' w'' : RunWriter} {s' s'' : Store} {size' size'' : Nat}
    (h : Goes base w s size w' s' size') (k : Goes base w' s' size' w'' s'' size'') :
    Goes base w s size w'' s'' size'' := by
  obtain ⟨⟨buffer, checksum, rfl⟩, -, le, begun, beside⟩ := h
  obtain ⟨⟨buffer', checksum', rfl⟩, lies, le', begun', beside'⟩ := k
  exact ⟨⟨_, _, rfl⟩, lies, Nat.le_trans le le', begun' ∘ begun, beside.trans beside'⟩

/-! ## Writing -/

theorem write_lies (lies : Lies base w s size) (data : ByteArray) :
    Leads (Store.onFile w.file (SpillFile.write data)) s
      (fun _ t => Lies base w t (size + data.size) ∧ s.Beside w.file t) (fun _ _ => True) := by
  obtain ⟨known, ⟨h, log, isOpen, rfl⟩, calm, start, le⟩ := lies
  have written := (SpillFile.write_leads isOpen data).and (SpillFile.write_calm _ _ data)
  apply (Store.onFile_leads known written).mono
  · rintro _ t ⟨⟨⟨isOpen', -, -, frame⟩, calm'⟩, around⟩
    exact ⟨⟨around.known known, ⟨h, _, isOpen', ByteArray.size_append⟩, calm', start,
      Nat.le_add_right_of_le le⟩, around, frame⟩
  · exact fun _ _ _ => trivial

/-- Cutting a chunk writes its header at least, if anything is buffered. -/
theorem cutChunk_goes (lies : Lies base w s size) :
    Leads cutChunk (w, s)
      (fun _ p => p.1.buffer = .empty ∧ ∃ size', Goes base w s size p.1 p.2 size')
      (fun _ _ => True) := by
  apply cutChunk_of
  · exact fun none => ⟨none, size, .refl lies⟩
  · exact fun _ _ => trivial
  · intro head payload encoded
    have header : head.size = 4 := Chunk.size_head_encode encoded
    apply (write_lies lies head).mono _ fun _ _ _ => trivial
    rintro _ t ⟨lies₁, beside₁⟩
    apply (write_lies lies₁ payload).mono _ fun _ _ _ => trivial
    rintro _ u ⟨lies₂, beside₂⟩
    -- the header has four bytes, even if nothing is behind it
    have longer : size < size + head.size + payload.size := by omega
    refine ⟨rfl, size + head.size + payload.size, ⟨_, _, rfl⟩, ?_, Nat.le_of_lt longer,
      fun _ => .inl (Nat.lt_of_le_of_lt lies.le longer), beside₁.trans beside₂⟩
    exact ⟨lies₂.known, lies₂.isOpen, lies₂.calm, lies₂.start, lies₂.le⟩

/-- After a record that takes space, some bytes of the run are in the file or in the buffer. -/
theorem add_goes (lies : Lies base w s size) (x : ρ) :
    Leads (add x) (w, s)
      (fun _ p => ∃ size', Goes base w s size p.1 p.2 size' ∧
        (0 < (encode x).size → Begun base p.1 size'))
      (fun _ _ => True) := by
  have grown : (w.take x).buffer.size = w.buffer.size + (encode x).size := ByteArray.size_append
  have taken : Goes base w s size (w.take x) s size := by
    refine ⟨⟨_, _, rfl⟩, ⟨lies.known, lies.isOpen, lies.calm, lies.start, lies.le⟩, Nat.le_refl _,
      fun begun => begun.imp id fun some => ?_, .refl _ _⟩
    omega
  have begun : 0 < (encode x).size → Begun base (w.take x) size := by
    intro some
    right
    omega
  apply add_of
  · exact fun _ => ⟨size, taken, begun⟩
  · intro _
    apply (cutChunk_goes taken.lies).mono
    · rintro _ p ⟨-, size', goes⟩
      exact ⟨size', taken.trans goes, fun some => goes.begun (begun some)⟩
    · exact fun _ _ h => h

theorem addAll_goes (lies : Lies base w s size) (xs : List ρ) :
    Leads (addAll xs) (w, s)
      (fun _ p => ∃ size', Goes base w s size p.1 p.2 size' ∧
        (∀ x ∈ xs, 0 < (encode x).size → Begun base p.1 size'))
      (fun _ _ => True) := by
  apply addAll_keeps (P := fun before p => ∃ size', Goes base w s size p.1 p.2 size' ∧
    (∀ x ∈ before, 0 < (encode x).size → Begun base p.1 size'))
  · rintro before x ⟨w', t⟩ ⟨size', goes, begun⟩
    apply (add_goes goes.lies x).mono _ fun _ _ h => h
    rintro _ p ⟨size'', goes', begun'⟩
    refine ⟨size'', goes.trans goes', fun y mem some => ?_⟩
    rcases List.mem_append.mp mem with earlier | last
    · exact goes'.begun (begun y earlier some)
    · rw [List.mem_singleton.mp last] at some
      exact begun' some
  · exact ⟨size, .refl lies, by simp⟩

/-! ## Whole runs -/

/-- A run begins where the file ends. -/
theorem begin_lies {options : Options} {file : FileRef} (known : s.Known file)
    (usable : (s.file file).Usable s.disk)
    (calm : (s.file file).pending.size < SpillFile.bufferLimit) :
    Leads (begin options file) s
      (fun w s' => w.file = file ∧ (∃ base, Lies base w s' base ∧
        ∀ n, (s.file file).EndsAt s.disk n → base = n) ∧ s.Beside file s')
      (fun _ _ => True) := by
  have asked := (SpillFile.currentOffset_leads usable).and (SpillFile.currentOffset_calm _ _)
  apply begin_of
  · exact fun _ _ => trivial
  · exact fun _ => trivial
  · apply (Store.onFile_leads known asked).mono _ fun _ _ _ => trivial
    rintro _ t ⟨⟨⟨⟨h, log, isOpen, rfl, -, size⟩, frame⟩, pending⟩, around⟩ u rfl
    -- one more holder changes neither the file nor the disk
    have view := Store.view_retain file file t
    have around' := around.trans (Store.around_retain file t)
    obtain ⟨file_eq, disk_eq⟩ := Prod.mk.inj view
    refine ⟨rfl, ⟨log.size, ⟨around'.known known, ⟨h, log, ?_, rfl⟩, ?_, rfl, Nat.le_refl _⟩, size⟩,
      around', ?_⟩
    · show (((Store.retain file).run t).2.file file).IsOpen ((Store.retain file).run t).2.disk h log
      rw [file_eq, disk_eq]
      exact isOpen
    · show (((Store.retain file).run t).2.file file).pending.size < SpillFile.bufferLimit
      rw [file_eq, show (t.file file).pending = _ from pending]
      exact calm
    · rw [view]
      exact frame

/-- What a finished run leaves: an extent up to where the file ends. -/
structure Placed (file : FileRef) (base : Nat) (r : RunReader ρ) (s : Store) (size : Nat) :
    Prop where
  sameFile : r.file = file
  start : r.extent.start.toNat = base
  stop : r.extent.stop.toNat = size
  le : base ≤ size
  ends : (s.file file).EndsAt s.disk size
  usable : (s.file file).Usable s.disk
  calm : (s.file file).pending.size < SpillFile.bufferLimit

/-- Ending a run tells where it begins and where the file ends. -/
theorem finishExtent_goes (lies : Lies base w s size) :
    Leads finishExtent (w, s)
      (fun extent p => p.1.buffer = .empty ∧ ∃ size', Goes base w s size p.1 p.2 size' ∧
        extent.start.toNat = base ∧ extent.stop.toNat = size')
      (fun _ _ => True) := by
  apply finishExtent_of
  apply (cutChunk_goes lies).mono _ fun _ _ _ => trivial
  rintro _ ⟨w', t⟩ ⟨none, size', goes⟩
  have lies' := goes.lies
  obtain ⟨known, ⟨h, log, isOpen, rfl⟩, -, start, le⟩ := lies'
  -- asking an open file for its end changes nothing
  have alone : Leads SpillFile.currentOffset (t.view w'.file)
      (fun stop p => stop = log.size ∧ p = t.view w'.file) (fun _ _ => False) :=
    Leads.of_runOn_ok (SpillFile.currentOffset_of_isOpen isOpen) ⟨rfl, rfl⟩
  apply (Store.onFile_leads known alone).mono _ fun _ _ _ => trivial
  rintro _ u ⟨⟨rfl, same⟩, around⟩
  obtain ⟨file_eq, disk_eq⟩ := Prod.mk.inj same
  have small : log.size < UInt64.size := goes.lies.size_lt
  refine ⟨none, log.size, goes.trans ⟨⟨_, _, rfl⟩, ⟨around.known known, ⟨h, log, ?_, rfl⟩, ?_,
    start, le⟩, Nat.le_refl _, id, around, ?_⟩, ?_, ?_⟩
  · rw [file_eq, disk_eq]
    exact isOpen
  · rw [file_eq]
    exact goes.lies.calm
  · rw [same]
    exact .refl _
  · show (UInt64.ofNat w'.start).toNat = base
    rw [start]
    exact UInt64.toNat_ofNat_of_lt' (Nat.lt_of_le_of_lt le small)
  · exact UInt64.toNat_ofNat_of_lt' small

omit [Storable ρ] in
/-- A finished run lies between the place where it began and the end of the file, and it is not
    empty if some bytes of it were to come. -/
theorem finish_places (lies : Lies base w s size) :
    Leads (finish w : SpillM (RunReader ρ)) s
      (fun r s' => ∃ size', Placed w.file base r s' size' ∧ (Begun base w size → base < size') ∧
        s.Beside w.file s')
      (fun _ _ => True) := by
  apply finish_of
  apply (finishExtent_goes lies).mono _ fun _ _ _ => trivial
  rintro extent ⟨w', t⟩ ⟨none, size', goes, start, stop⟩
  obtain ⟨⟨buffer, checksum, rfl⟩, lies', -, begun, beside⟩ := goes
  obtain ⟨known, ⟨h, log, isOpen, rfl⟩, calm, -, le⟩ := lies'
  refine ⟨log.size, ⟨rfl, start, stop, le, .opened isOpen rfl, .inr ⟨h, log, isOpen⟩, calm⟩,
    fun some => ?_, beside⟩
  -- nothing is left in the buffer, so it is in the file
  apply (begun some).resolve_right
  rw [none]
  exact Nat.lt_irrefl 0

end RunWriter
end ExternalSort
