/-
  ExternalSort.Proofs.Run.Hindrance

  What keeps a run from being written.

  A run is a matter of bytes, so nothing about the records or their order can be
  in the way: it is the disk, the process, the hook, or a chunk that its header
  cannot describe.
-/

import ExternalSort.Proofs.Run.Writer

namespace ExternalSort

/-- Errors that keep a run from being written, with a protection hook or without. -/
inductive Hindrance (hook : Option Protector) : SortError → Prop
  | disk {e : SortError} (failure : e.IsDiskFailure) : Hindrance hook e
  | forbidden : Hindrance hook (.configuration .externalForbidden)
  | noDirectory : Hindrance hook (.configuration .noSpillDirectory)
  | refused {p : Protector} {reason : String} (active : hook = some p) :
      Hindrance hook (.dataProtection .protect reason)
  | incompressible {path : Path} {records : ByteArray} (long : Snappy.tooLong records = true) :
      Hindrance hook (.io .compressing path (Chunk.tooLongToCompress records.size))
  | chunkTooLong {length : Nat} (long : Chunk.payloadLimit ≤ length) :
      Hindrance hook (.configuration (.chunkTooLong length))

namespace Hindrance

variable {hook : Option Protector} {e : SortError}

theorem of_checkPermitted {options : Options} {forbidden : Bool}
    (h : options.checkPermitted forbidden = .error e) : Hindrance hook e := by
  rw [Options.checkPermitted] at h
  split at h
  · cases h
    exact .forbidden
  · cases h

theorem of_protect {database : Option String} {payload : ByteArray}
    (h : Chunk.protect hook database payload = .error e) : Hindrance hook e := by
  rw [Chunk.protect.eq_def] at h
  split at h
  · cases h
  · split at h
    · cases h
    · cases h
      exact .refused rfl

theorem of_encode {database : Option String} {path : Path} {records : ByteArray}
    (h : Chunk.encode hook database path records = .error e) : Hindrance hook e := by
  rcases Chunk.encode_cases hook database path records with
    ⟨long, fails⟩ | ⟨e', refused, fails⟩ | ⟨payload, -, ⟨long, fails⟩ | ⟨-, -, succeeds⟩⟩
  · obtain rfl := Except.error.inj (fails.symm.trans h)
    exact .incompressible long
  · obtain rfl := Except.error.inj (fails.symm.trans h)
    exact of_protect refused
  · obtain rfl := Except.error.inj (fails.symm.trans h)
    exact .chunkTooLong long
  · cases succeeds.symm.trans h

end Hindrance

/-- Where only the disk fails, nothing else is in the way. -/
theorem Store.onFile_hindered {α : Type} {action : SpillFile.Action α} (hook : Option Protector)
    {ok : SpillFile → Disk → α → SpillFile × Disk → Prop}
    (h : ∀ f d, Leads action (f, d) (ok f d) fun e _ => e.IsDiskFailure) (ref : FileRef)
    (s : Store) : Leads (onFile ref action) s (fun _ _ => True) fun e _ => Hindrance hook e :=
  onFile_fails (fun p => (h p.1 p.2).mono (fun _ _ _ => trivial) fun _ _ => .disk) ref s

namespace RunWriter

variable {ρ : Type} [Storable ρ] {w : RunWriter} {s : Store}

theorem cutChunk_hindered (w : RunWriter) (s : Store) :
    Leads cutChunk (w, s) (fun _ p => p.1.protector = w.protector)
      (fun e _ => Hindrance w.protector e) := by
  have writes (data : ByteArray) (t : Store) :=
    Store.onFile_hindered w.protector (fun f d => SpillFile.write_calm f d data) w.file t
  apply cutChunk_of
  · exact fun _ => rfl
  · exact fun _ => .of_encode
  · intro head payload _
    exact (writes head s).mono
      (fun _ t _ => (writes payload t).mono (fun _ _ _ => rfl) fun _ _ h => h) fun _ _ h => h

theorem add_hindered (x : ρ) (w : RunWriter) (s : Store) :
    Leads (add x) (w, s) (fun _ p => p.1.protector = w.protector)
      (fun e _ => Hindrance w.protector e) := by
  apply add_of
  · exact fun _ => rfl
  · exact fun _ => cutChunk_hindered (w.take x) s

theorem addAll_hindered (xs : List ρ) (w : RunWriter) (s : Store) :
    Leads (addAll xs) (w, s) (fun _ p => p.1.protector = w.protector)
      (fun e _ => Hindrance w.protector e) := by
  refine addAll_keeps (P := fun _ p => p.1.protector = w.protector) ?_ xs rfl
  rintro _ x ⟨w', t⟩ same
  dsimp only at same
  rw [← same]
  exact add_hindered x w' t

omit [Storable ρ] in
theorem finish_hindered (w : RunWriter) (s : Store) :
    Leads (finish w : SpillM (RunReader ρ)) s (fun _ _ => True)
      (fun e _ => Hindrance w.protector e) := by
  apply finish_of
  apply finishExtent_of
  refine (cutChunk_hindered w s).mono ?_ fun _ _ h => h
  intro _ p _
  exact Store.onFile_hindered w.protector SpillFile.currentOffset_calm p.1.file p.2

theorem begin_hindered (options : Options) (file : FileRef) (s : Store) :
    Leads (begin options file) s (fun w _ => w.protector = options.activeProtector)
      (fun e _ => Hindrance options.activeProtector e) := by
  apply begin_of
  · exact fun _ => .of_checkPermitted
  · exact fun _ => .noDirectory
  · exact (Store.onFile_hindered _ SpillFile.currentOffset_calm file s).mono
      (fun _ _ _ _ _ => rfl) fun _ _ h => h

end RunWriter
end ExternalSort
