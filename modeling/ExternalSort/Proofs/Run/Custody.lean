/-
  ExternalSort.Proofs.Run.Custody

  Who holds a spill file while runs are written to it and read from it.

  A writer holds its file from its beginning on. When it is finished its reader
  holds the file instead, and when that fails no one does in its place. Nothing is
  assumed about the records, the hook, or what the file has in it.
-/

import ExternalSort.Proofs.Run.Writer
import ExternalSort.Proofs.Spill.Custody

namespace ExternalSort

open Store (Held Lasts)

variable {ρ : Type} {c : Custody} {ends : List Nat} {n : Nat} {s : Store}

/-! ## Writing -/

namespace RunWriter

/-- A writer of the file in custody, which is among those who hold it. -/
structure Writes (c : Custody) (ends : List Nat) (n : Nat) (p : RunWriter × Store) : Prop where
  file : p.1.file = c.ref
  held : Held c ends n p.2

/-- A writer holds the file if it comes to be. -/
theorem begin_held (options : Options) (held : Held c ends n s) :
    Leads (begin options c.ref) s (fun w s' => Writes c ends (n + 1) (w, s'))
      (fun _ s' => Held c ends n s') := by
  apply begin_of
  · exact fun _ _ => held
  · exact fun _ => held
  · refine (held.onFile_lasts (SpillFile.currentOffset_lasts held.lasts)).mono ?_ fun _ _ h => h
    rintro start t began u rfl
    exact ⟨rfl, began.forget.retain⟩

variable {w : RunWriter}

theorem cutChunk_writes (writes : Writes c ends n (w, s)) :
    Leads cutChunk (w, s) (fun _ p => Writes c ends n p) (fun _ p => Writes c ends n p) := by
  obtain ⟨file, held⟩ := writes
  dsimp only at file held
  apply cutChunk_of
  · exact fun _ => ⟨file, held⟩
  · exact fun _ _ => ⟨file, held⟩
  · intro head payload _
    rw [file]
    refine (held.onFile_lasts (SpillFile.write_lasts head held.lasts)).mono ?_ ?_
    · intro _ t held'
      refine (held'.onFile_lasts (SpillFile.write_lasts payload held'.lasts)).mono ?_ ?_
      · exact fun _ _ held'' => ⟨rfl, held''⟩
      · exact fun _ _ held'' => ⟨file, held''⟩
    · exact fun _ _ held' => ⟨file, held'⟩

theorem addAll_writes [Storable ρ] (records : List ρ) (writes : Writes c ends n (w, s)) :
    Leads (addAll records) (w, s) (fun _ p => Writes c ends n p) (fun _ p => Writes c ends n p) := by
  refine addAll_keeps (P := fun _ p => Writes c ends n p) ?_ records writes
  rintro _ x ⟨w', t⟩ ⟨file, held⟩
  apply add_of
  · exact fun _ => ⟨file, held⟩
  · exact fun _ => cutChunk_writes ⟨file, held⟩

/-- Letting go of the file. -/
theorem Writes.release (writes : Writes c ends (n + 1) (w, s)) :
    Lasts c ends n (w.release.run s).2 := by
  rw [RunWriter.release, writes.file]
  exact writes.held.release

/-- The reader of a run takes the place of its writer. The run ends in the file. -/
theorem finish_held (writes : Writes c ends (n + 1) (w, s)) :
    Leads (finish w : SpillM (RunReader ρ)) s
      (fun r s' => r.file = c.ref ∧ Held c (r.stop :: ends) (n + 1) s')
      (fun _ s' => Lasts c ends n s') := by
  apply finish_of
  apply finishExtent_of
  refine (cutChunk_writes writes).mono ?_ fun _ _ writes' => writes'.release
  rintro _ ⟨w', t⟩ ⟨file, held⟩
  dsimp only at file held ⊢
  rw [file]
  refine (held.onFile_lasts (SpillFile.currentOffset_lasts held.lasts)).mono ?_ ?_
  · intro stop u held'
    refine ⟨rfl, held'.mono fun told mem => ?_⟩
    -- an extent does not tell more than there is, even if its end is too large to tell
    rcases List.mem_cons.mp mem with rfl | mem
    · refine ⟨stop, List.mem_cons_self, ?_⟩
      show (UInt64.ofNat stop).toNat ≤ stop
      rw [UInt64.toNat_ofNat']
      exact Nat.mod_le _ _
    · exact ⟨told, List.mem_cons_of_mem _ mem, Nat.le_refl told⟩
  · exact fun _ u held' => Writes.release ⟨file, held'⟩

end RunWriter

/-! ## Reading -/

/-- Running an operation that cannot fail leads to a result and a state. -/
def Runs {S α : Type} (x : StateM S α) (s : S) (post : α → S → Prop) : Prop :=
  post (x.run s).1 (x.run s).2

namespace Runs

variable {S α β : Type} {x : StateM S α} {f : α → StateM S β} {s : S} {post : α → S → Prop}

theorem of_pure {a : α} (h : post a s) : Runs (pure a) s post := h

theorem seq {next : β → S → Prop} (h : Runs x s post)
    (k : ∀ a s', post a s' → Runs (f a) s' next) : Runs (x >>= f) s next :=
  k _ _ h

/-- What an operation leads to, from two sides. -/
theorem and {post' : α → S → Prop} (h : Runs x s post) (k : Runs x s post') :
    Runs x s fun a s' => post a s' ∧ post' a s' := ⟨h, k⟩

theorem leads {ε : Type} {x : ExceptT ε (StateM S) α} {post : Except ε α → S → Prop}
    (h : Runs x.run s post) : Leads x s (fun a => post (.ok a)) fun e => post (.error e) := by
  rw [Runs] at h
  rcases hrun : x.run.run s with ⟨e | a, s'⟩ <;> rw [hrun] at h
  · exact Leads.of_runOn_error hrun h
  · exact Leads.of_runOn_ok hrun h

end Runs

namespace RunReader

variable {r : RunReader ρ}

theorem loadChunk_held (file : r.file = c.ref) (held : Held c ends n s) (open_ : r.loaded = false) :
    Leads (r.loadChunk open_) s (fun r' s' => r'.1.file = c.ref ∧ Held c ends n s')
      (fun _ s' => Held c ends n s') := by
  have read {t : Store} (offset length : Nat) (held : Held c ends n t) :
      Leads (Store.onFile r.file (SpillFile.read offset length)) t
        (fun _ s' => Held c ends n s') (fun _ s' => Held c ends n s') := by
    rw [file]
    exact held.onFile_lasts (SpillFile.read_lasts offset length held.lasts)
  apply loadChunk_of open_ (P := fun r' s' => r'.file = c.ref ∧ Held c ends n s')
  · exact fun _ => held
  · exact fun _ => ⟨file, held⟩
  · exact fun _ _ => held
  · refine fun _ => (read _ _ held).mono ?_ fun _ _ post => post
    refine fun header t held compressed length _ => ⟨fun _ => held, fun _ => ?_⟩
    refine (read _ _ held).mono ?_ fun _ _ post => post
    exact fun payload u held => ⟨fun _ _ => ⟨file, held⟩, fun _ _ => held⟩

theorem ensureChunk_held (file : r.file = c.ref) (held : Held c ends n s) :
    Leads r.ensureChunk s (fun r' s' => r'.file = c.ref ∧ Held c ends n s')
      (fun _ s' => Held c ends n s') := by
  apply (ensureChunk_keeps (P := fun r' t => r'.file = c.ref ∧ Held c ends n t)
    ?_ ⟨file, held⟩).mono
  · exact fun _ _ h => h.1
  · exact fun _ _ h => h
  · exact fun _ _ open_ _ h => loadChunk_held h.1 h.2 open_

theorem close_file (r : RunReader ρ) : r.close.2.file = r.file := by
  rw [close]
  split <;> rfl

variable [Storable ρ]

theorem decodeRecord_file (r : RunReader ρ) : r.decodeRecord.2.file = r.file := by
  rw [decodeRecord]
  dsimp only
  split <;> rfl

/-- A reader goes on holding its file, whatever it finds. -/
theorem next_held (file : r.file = c.ref) (held : Held c ends n s) :
    Runs r.next s fun p s' => p.2.file = c.ref ∧ Held c ends n s' := by
  rw [Runs]
  cases open_ : r.closed with
  | true =>
    rw [next_of_closed open_]
    exact ⟨file, held⟩
  | false =>
    have ensured_ := ensureChunk_held file held
    rcases h : r.next.run s with ⟨⟨step, r'⟩, s'⟩
    cases went_of_next open_ h with
    | failed ensured => exact ⟨file, ensured_.of_error ensured⟩
    | @ended r₁ _ _ ensured _ closes =>
      obtain ⟨file₁, held₁⟩ := ensured_.of_ok ensured
      have same := close_file r₁
      rw [closes] at same
      exact ⟨same.trans file₁, held₁⟩
    | @refused e r₁ r₂ _ ensured _ closes =>
      obtain ⟨file₁, held₁⟩ := ensured_.of_ok ensured
      have same : r₂.file = r₁.file := by
        rw [← close_file r₁, closes]
      exact ⟨same.trans file₁, held₁⟩
    | @decoded _ r₁ _ _ ensured _ decodes =>
      obtain ⟨file₁, held₁⟩ := ensured_.of_ok ensured
      have same := decodeRecord_file r₁
      rw [decodes] at same
      exact ⟨same.trans file₁, held₁⟩

end RunReader
end ExternalSort
