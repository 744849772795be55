/-
  ExternalSort.Proofs.Spill.Store

  Spill files in a store.

  An operation on a file does to it and to the disk what it does to them alone,
  and leaves the rest of the store as it was. Letting go of a file that is
  entirely on disk leaves its content readable, whoever lets go last.
-/

import ExternalSort.Proofs.Spill.File
import ExternalSort.Spill.Store

namespace ExternalSort
namespace Store

/-- A file by its reference, with the disk. -/
def view (s : Store) (ref : FileRef) : SpillFile × Disk := (s.file ref, s.disk)

/-- A reference to a file of the store. -/
def Known (s : Store) (ref : FileRef) : Prop := ref.index < s.files.size

/-- What an operation on one file leaves alone. -/
structure Around (s s' : Store) : Prop where
  size : s'.files.size = s.files.size
  names : s'.names = s.names
  forbidden : s'.spillForbidden = s.spillForbidden

theorem Around.refl (s : Store) : Around s s := ⟨rfl, rfl, rfl⟩

theorem Around.trans {s t u : Store} (h : Around s t) (k : Around t u) : Around s u :=
  ⟨k.size.trans h.size, k.names.trans h.names, k.forbidden.trans h.forbidden⟩

theorem Around.known {ref : FileRef} {s s' : Store} (h : Around s s') (known : s.Known ref) :
    s'.Known ref := by
  rw [Known, h.size]
  exact known

variable {ref : FileRef} {s : Store} {α : Type}

/-- An operation on a file does what it does to the file and the disk alone. -/
theorem runOn_onFile (ref : FileRef) (action : SpillFile.Action α) (s : Store) :
    Failing.runOn (onFile ref action) s =
      ((Failing.runOn action (s.view ref)).1,
        { s with
          disk := (Failing.runOn action (s.view ref)).2.2
          files := s.files.setIfInBounds ref.index
            { s.files.getD ref.index default with
              file := (Failing.runOn action (s.view ref)).2.1 } }) := rfl

theorem onFile_leads {action : SpillFile.Action α} {ok : α → SpillFile × Disk → Prop}
    {err : SortError → SpillFile × Disk → Prop} (known : s.Known ref)
    (h : Leads action (s.view ref) ok err) :
    Leads (onFile ref action) s
      (fun a s' => ok a (s'.view ref) ∧ Around s s')
      (fun e s' => err e (s'.view ref) ∧ Around s s') := by
  rw [Leads, runOn_onFile]
  rcases hop : Failing.runOn action (s.view ref) with ⟨r, file, disk⟩
  let held : HeldFile := { s.files.getD ref.index default with file := file }
  let s' : Store := { s with disk := disk, files := s.files.setIfInBounds ref.index held }
  have held_eq : s'.files.getD ref.index default = held := by
    have : ref.index < s.files.size := known
    simp [s', Array.getD, this]
  have view : s'.view ref = (file, disk) := by
    rw [Store.view, Store.file, held_eq]
  have around : Around s s' := ⟨by simp [s'], rfl, rfl⟩
  rw [← view] at hop
  cases r with
  | ok a => exact ⟨h.of_ok hop, around⟩
  | error e => exact ⟨h.of_error hop, around⟩

/-- An operation on a file fails only as it does on the file alone. -/
theorem onFile_fails {action : SpillFile.Action α} {P : SortError → Prop}
    (h : ∀ p, Leads action p (fun _ _ => True) fun e _ => P e) (ref : FileRef) (s : Store) :
    Leads (onFile ref action) s (fun _ _ => True) fun e _ => P e := by
  rcases (h (s.view ref)).outcome with ⟨a, p, hop, -⟩ | ⟨e, p, hop, fails⟩ <;>
    rw [Leads, runOn_onFile, hop]
  · trivial
  · exact fails

/-! ## Holders -/

/-- A new file was not opened. -/
theorem register_run (path : Path) (s : Store) :
    ((register path).run s).2.Known ((register path).run s).1 ∧
      ((register path).run s).2.file ((register path).run s).1 = { path := path } := by
  refine ⟨?_, ?_⟩
  · show s.files.size < (s.files.push ⟨{ path := path }, 1⟩).size
    rw [Array.size_push]
    exact Nat.lt_succ_self _
  · show ((s.files.push ⟨{ path := path }, 1⟩).getD s.files.size default).file = { path := path }
    simp

theorem view_retain (ref there : FileRef) (s : Store) :
    ((retain there).run s).2.view ref = s.view ref := by
  have files : ((s.files.modify there.index fun held =>
      { held with holders := held.holders + 1 }).getD ref.index default).file
      = (s.files.getD ref.index default).file := by
    by_cases h : ref.index < s.files.size
    · simp only [Array.getD_eq_getD_getElem?, Array.getElem?_modify]
      split <;> simp [h]
    · simp [Array.getD_eq_getD_getElem?, h]
  exact congrArg (·, s.disk) files

theorem around_retain (ref : FileRef) (s : Store) : Around s ((retain ref).run s).2 :=
  ⟨Array.size_modify, rfl, rfl⟩

/-- After one holder less, the file may have been closed. -/
theorem release_run (known : s.Known ref) :
    ∃ t : Store, t.view ref = s.view ref ∧ Around s t ∧
      (((release ref).run s).2 = t ∨
        ((release ref).run s).2 = { t with disk := ((s.file ref).close.run s.disk).2 }) := by
  have inside : ref.index < s.files.size := known
  have found : s.files[ref.index]? = some s.files[ref.index] :=
    getElem?_pos s.files ref.index inside
  have held : s.files.getD ref.index default = s.files[ref.index] := by
    simp [Array.getD, inside]
  let left : HeldFile := { s.files[ref.index] with holders := s.files[ref.index].holders - 1 }
  have after : (s.files.setIfInBounds ref.index left).getD ref.index default = left := by
    simp [Array.getD, inside]
  refine ⟨{ s with files := s.files.setIfInBounds ref.index left }, ?_, ⟨?_, rfl, rfl⟩, ?_⟩
  · rw [view, view, file, file, held, after]
  · simp
  · simp only [release, StateT.run_bind, StateT.run_get, pure_bind, found, StateT.run_set, file,
      held]
    split
    · exact .inr rfl
    · exact .inl rfl

theorem around_release (known : s.Known ref) : Around s ((release ref).run s).2 := by
  obtain ⟨t, -, around, run⟩ := release_run known
  rcases run with run | run <;> rw [run]
  · exact around
  · exact ⟨around.size, around.names, around.forbidden⟩

/-- A file that is entirely on disk stays readable when it is let go. -/
theorem flushed_release {log : ByteArray} (known : s.Known ref)
    (flushed : (s.file ref).Flushed s.disk log) :
    ((release ref).run s).2.Known ref ∧
      (((release ref).run s).2.file ref).Flushed ((release ref).run s).2.disk log := by
  obtain ⟨t, same, around, run⟩ := release_run known
  obtain ⟨file, disk⟩ := Prod.mk.inj same
  rcases run with run | run <;> rw [run]
  · exact ⟨around.known known, by rw [file, disk]; exact flushed⟩
  · refine ⟨around.known known, ?_⟩
    show (t.file ref).Flushed _ log
    rw [file]
    exact flushed.of_contents (SpillFile.close_contents flushed.pending s.disk)

/-- A file that does not stay keeps its content for those who still use it. -/
theorem release_of_not_kept (known : s.Known ref) (gone : (s.file ref).kept = false) :
    ((release ref).run s).2.file ref = s.file ref ∧
      ((release ref).run s).2.disk.contents = s.disk.contents := by
  obtain ⟨t, same, -, run⟩ := release_run known
  obtain ⟨file, disk⟩ := Prod.mk.inj same
  rcases run with run | run <;> rw [run]
  · exact ⟨file, by rw [disk]⟩
  · exact ⟨file, SpillFile.close_of_not_kept gone s.disk⟩

/-- Letting go of a settled file changes neither the file nor the disk. -/
theorem release_of_settled (known : s.Known ref) (settled : (s.file ref).Settled) :
    ((release ref).run s).2.view ref = s.view ref := by
  obtain ⟨t, same, -, run⟩ := release_run known
  obtain ⟨file, disk⟩ := Prod.mk.inj same
  rcases run with run | run <;> rw [run]
  · exact same
  · exact Prod.ext file (settled.close_eq s.disk)

end Store
end ExternalSort
