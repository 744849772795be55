/-
  ExternalSort.Proofs.Run.Discreet

  Writing and reading runs tells of no violation.

  Nothing here compares records, so whatever fails is the disk, the data, the
  options or the hook.
-/

import ExternalSort.Proofs.Agreeing
import ExternalSort.Proofs.Run.Hindrance

namespace ExternalSort

open Telling (Tells)

theorem SortError.IsDiskFailure.not_tells {e : SortError} (h : e.IsDiskFailure) : ¬ Tells e := by
  obtain ⟨o, cause⟩ := h
  cases e with
  | comparatorInvariantViolation v => cases cause
  | _ => exact id

theorem Hindrance.not_tells {hook : Option Protector} {e : SortError} (h : Hindrance hook e) :
    ¬ Tells e := by
  cases h with
  | disk failure => exact failure.not_tells
  | _ => exact id

/-! ## Files -/

namespace SpillFile

variable {α : Type} {x : Action α}

/-- Where only the disk fails, no violation is told. -/
theorem discreet_of_calm {ok : SpillFile → Disk → α → SpillFile × Disk → Prop}
    (h : ∀ f d, Leads x (f, d) (ok f d) fun e _ => e.IsDiskFailure) : Discreet x :=
  fun p => (h p.1 p.2).mono (fun _ _ _ => trivial) fun _ _ failure => failure.not_tells

theorem fetch_discreet (handle : Handle) (offset length : Nat) :
    Discreet (fetch handle offset length) := by
  rw [fetch]
  apply Discreet.ite
  · exact fun _ => .of_pure _
  · intro _ p
    refine Leads.bind (Leads.of_disk ?_)
    split
    · exact Leads.of_pure trivial
    · exact Leads.bind (Leads.of_get₂ (Leads.of_throw₂ id))

theorem read_discreet (offset length : Nat) : Discreet (read offset length) := by
  rintro ⟨f, d⟩
  apply read_of
  refine (discreet_of_calm ensureOpen_calm (f, d)).mono ?_ fun _ _ quiet => quiet
  intro handle p _
  refine (discreet_of_calm flush_calm p).mono ?_ fun _ _ quiet => quiet
  intro _ q _
  refine (fetch_discreet handle offset length q).mono ?_ fun _ _ quiet => quiet
  exact fun _ _ _ => ⟨fun _ => id, fun _ => trivial⟩

theorem keep_discreet : Discreet keep := .of_modify₂ _

end SpillFile

namespace Store

theorem onFile_discreet {α : Type} {action : SpillFile.Action α} (h : Discreet action)
    (ref : FileRef) : Discreet (onFile ref action) := onFile_fails h ref

end Store

/-! ## Options -/

namespace Options

theorem checkPermitted_discreet (options : Options) (forbidden : Bool) :
    Discreet (options.checkPermitted forbidden) :=
  .ite (fun _ => .of_error id) fun _ => .of_ok _

theorem validate_discreet (options : Options) (forbidden : Bool) :
    Discreet (options.validate forbidden) := by
  rw [validate]
  apply Discreet.ite
  · exact fun _ => .of_error id
  · intro _
    apply Discreet.ite
    · exact fun _ => .of_error id
    · exact fun _ => checkPermitted_discreet _ _

end Options

/-! ## Chunks -/

namespace Chunk

variable (hook : Option Protector) (database : Option String)

theorem unprotect_discreet (payload : ByteArray) : Discreet (unprotect hook database payload) := by
  rw [unprotect.eq_def]
  split
  · exact .of_ok _
  · split
    · exact .of_ok _
    · exact .of_error id

theorem decode_discreet (path : Path) (compressed : Bool) (payload : ByteArray) :
    Discreet (decode hook database path compressed payload) := by
  rw [decode]
  apply (unprotect_discreet hook database payload).seq
  intro data
  apply Discreet.ite
  · intro _
    split
    · exact .of_ok _
    · exact .of_error id
  · exact fun _ => .of_ok _

end Chunk

/-! ## Reading -/

namespace RunReader

variable {ρ : Type}

theorem loadChunk_discreet (r : RunReader ρ) (open_ : r.loaded = false) :
    Discreet (r.loadChunk open_) := by
  have read (offset length : Nat) :
      Discreet (Store.onFile r.file (SpillFile.read offset length)) :=
    Store.onFile_discreet (SpillFile.read_discreet offset length) _
  intro s
  apply loadChunk_of open_ (P := fun _ _ => True)
  · exact fun _ => id
  · exact fun _ => trivial
  · exact fun _ _ => id
  · refine fun _ => (read _ _ s).mono ?_ fun _ _ quiet => quiet
    refine fun header t _ compressed length _ => ⟨fun _ => id, fun _ => ?_⟩
    refine (read _ _ t).mono ?_ fun _ _ quiet => quiet
    exact fun payload u _ => ⟨fun _ _ => trivial,
      fun e failed => (Chunk.decode_discreet _ _ _ _ _).not_tells failed⟩

theorem ensureChunk_discreet (r : RunReader ρ) : Discreet r.ensureChunk := by
  intro s
  apply (ensureChunk_keeps (P := fun _ _ => True) ?_ trivial).mono
  · exact fun _ _ _ => trivial
  · exact fun _ _ h => h
  · exact fun r t open_ _ _ => loadChunk_discreet r open_ t

theorem close_silent (r : RunReader ρ) : ¬ Tells r.close.1 := by
  rw [close]
  split
  · exact id
  · dsimp only
    split
    · exact id
    · exact id

variable [Storable ρ]

theorem decodeRecord_silent (r : RunReader ρ) : ¬ Tells r.decodeRecord.1 := by
  rw [decodeRecord]
  dsimp only
  split
  · exact id
  · exact id

/-- Runs are read without a violation. -/
theorem silent (ρ : Type) [Storable ρ] : SortedSource.Silent Store (RunReader ρ) where
  next r s := by
    show ¬ Tells ((next r).run s).1.1
    cases open_ : r.closed with
    | true =>
      rw [next_of_closed open_]
      exact id
    | false =>
      rcases h : (next r).run s with ⟨⟨step, r'⟩, t⟩
      cases went_of_next open_ h with
      | failed ensured => exact (ensureChunk_discreet r s).of_error ensured
      | ended => exact id
      | @refused e r₁ r₂ _ ensured _ closes =>
        have quiet := r₁.close_silent
        rw [closes] at quiet
        exact quiet
      | @decoded _ r₁ _ _ ensured _ decodes =>
        have quiet := r₁.decodeRecord_silent
        rw [decodes] at quiet
        exact quiet
  close r s := r.close_silent

end RunReader
end ExternalSort
