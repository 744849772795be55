/-
  ExternalSort.Proofs.Merge.Custody

  Who holds a spill file while runs in it are merged.

  Every stream of a merge holds the file once. A stream that leaves the heap is
  released, whether its run ended, failed, or was cut off by the limit, and if the
  merge cannot be made, all runs that were handed over are. Nothing is assumed
  about the comparator.
-/

import ExternalSort.Proofs.Merge.Stepping
import ExternalSort.Proofs.Run.Custody

namespace ExternalSort

open Store (Held Lasts)

variable {ρ : Type} [Storable ρ] {c : Custody} {ends : List Nat} {k n : Nat} {s : Store}

/-! ## Runs -/

namespace RunReader

variable {r : RunReader ρ}

theorem release_lasts (file : r.file = c.ref) (lasts : Lasts c ends (n + 1) s) :
    Runs (SortedSource.release r : StoreM Unit) s fun _ s' => Lasts c ends n s' := by
  show Lasts c ends n ((Store.release r.file).run s).2
  rw [file]
  exact (lasts.toHeld (Nat.succ_pos n)).release

theorem releaseAll_lasts {runs : List (RunReader ρ)} (files : ∀ r ∈ runs, r.file = c.ref)
    (lasts : Lasts c ends (k + runs.length) s) :
    Runs (SortedSource.releaseAll runs : StoreM Unit) s fun _ s' => Lasts c ends k s' := by
  induction runs generalizing s with
  | nil => exact Runs.of_pure lasts
  | cons r rest ih =>
    obtain ⟨file, files⟩ := List.forall_mem_cons.mp files
    exact (release_lasts file lasts).seq fun _ _ lasts' => ih files lasts'

theorem close_held (file : r.file = c.ref) (held : Held c ends n s) :
    Runs (SortedSource.close r : StoreM _) s fun p s' => p.2.file = c.ref ∧ Held c ends n s' :=
  ⟨r.close_file.trans file, held⟩

end RunReader

/-! ## Streams -/

namespace Merge

open RunReader (release_lasts releaseAll_lasts close_held next_held)

/-- The streams hold the file in custody, beside `k` others. -/
structure Owns (c : Custody) (ends : List Nat) (k : Nat)
    (streams : List (MergeStream (RunReader ρ) ρ)) (s : Store) : Prop where
  files : ∀ t ∈ streams, t.source.file = c.ref
  lasts : Lasts c ends (k + streams.length) s

variable {streams streams' : List (MergeStream (RunReader ρ) ρ)}

omit [Storable ρ] in
theorem Owns.perm (owns : Owns c ends k streams s) (perm : streams.Perm streams') :
    Owns c ends k streams' s :=
  ⟨fun t mem => owns.files t (perm.mem_iff.mpr mem), perm.length_eq ▸ owns.lasts⟩

theorem releaseStreams_lasts (owns : Owns c ends k streams s) :
    Runs (releaseStreams streams : StoreM Unit) s fun _ s' => Lasts c ends k s' := by
  apply releaseAll_lasts
  · exact List.forall_mem_map.mpr owns.files
  · rw [List.length_map]
    exact owns.lasts

/-- Whatever closing finds, every stream is released. -/
theorem closeStreams_lasts (owns : Owns c ends k streams s) :
    Runs (closeStreams streams : StoreM _) s fun _ s' => Lasts c ends k s' := by
  induction streams generalizing s with
  | nil => exact Runs.of_pure owns.lasts
  | cons t rest ih =>
    obtain ⟨file, files⟩ := List.forall_mem_cons.mp owns.files
    refine (close_held file (owns.lasts.toHeld (Nat.succ_pos _))).seq ?_
    rintro ⟨result, source⟩ s₁ ⟨file', held⟩
    refine (release_lasts file' (n := k + rest.length) (.held held)).seq ?_
    intro _ s₂ lasts
    refine (ih ⟨files, lasts⟩).seq fun others s₃ closed => ?_
    cases result <;> exact Runs.of_pure closed

theorem closeAll_owns {q : Merge (RunReader ρ) ρ} (owns : Owns c ends k q.heap.toList s) :
    Runs (closeAll q : StoreM _) s fun p s' => Owns c ends k p.2.heap.toList s' :=
  (closeStreams_lasts owns).seq fun _ _ lasts => Runs.of_pure ⟨by simp, lasts⟩

theorem release_lasts_merge {q : Merge (RunReader ρ) ρ} (owns : Owns c ends k q.heap.toList s) :
    Runs (release q : StoreM Unit) s fun _ s' => Lasts c ends k s' :=
  (closeStreams_lasts owns).seq fun _ _ lasts => Runs.of_pure lasts

/-! ## Making a merge -/

/-- The streams of a merge take over what the runs held. If there is no merge, no one does. -/
def TakesOver (c : Custody) (ends : List Nat) (k : Nat) :
    Except SortError (List (MergeStream (RunReader ρ) ρ)) → Store → Prop
  | .ok streams, s => Owns c ends k streams s
  | .error _, s => Lasts c ends k s

theorem collect_takesOver {runs : List (RunReader ρ)} (files : ∀ r ∈ runs, r.file = c.ref)
    (index : Nat) (heap : Array (MergeStream (RunReader ρ) ρ))
    (owns : Owns c ends (k + runs.length) heap.toList s) :
    Runs (collect index runs heap : StoreM _) s fun result s' =>
      TakesOver c ends k (result.map Array.toList) s' := by
  induction runs generalizing index heap s with
  | nil => exact Runs.of_pure owns
  | cons r rest ih =>
    obtain ⟨file, files⟩ := List.forall_mem_cons.mp files
    have held : Held c ends (k + rest.length + heap.toList.length + 1) s :=
      (owns.lasts.of_eq (by rw [List.length_cons]; omega)).toHeld (Nat.succ_pos _)
    -- the runs that were not asked and those in the heap are released together
    have failed {t : Store} {e : SortError}
        (lasts : Lasts c ends (k + rest.length + heap.toList.length) t) :
        Runs (do
            SortedSource.releaseAll rest
            releaseStreams heap.toList
            return .error e : StoreM (Except SortError (Array (MergeStream (RunReader ρ) ρ)))) t
          fun result s' => TakesOver c ends k (result.map Array.toList) s' := by
      refine (releaseAll_lasts files (lasts.of_eq (Nat.add_right_comm _ _ _))).seq fun _ _ lasts => ?_
      refine (releaseStreams_lasts ⟨owns.files, lasts⟩).seq fun _ _ lasts => ?_
      exact Runs.of_pure lasts
    refine (next_held file held).seq ?_
    rintro ⟨_ | e | first, source⟩ s₁ ⟨file', held⟩
    · refine (close_held file' held).seq ?_
      rintro ⟨result, source'⟩ s₂ ⟨file'', held⟩
      refine (release_lasts file'' (.held held)).seq fun _ s₃ lasts => ?_
      cases result with
      | ok => exact ih files (index + 1) heap ⟨owns.files, lasts⟩
      | error e => exact failed lasts
    · exact (release_lasts file' (.held held)).seq fun _ _ lasts => failed lasts
    · refine ih files (index + 1) (heap.push ⟨index, first, source⟩) ⟨?_, ?_⟩
      · rw [Array.toList_push]
        exact List.forall_mem_append.mpr ⟨owns.files, List.forall_mem_singleton.mpr file'⟩
      · rw [Array.toList_push, List.length_append, List.length_singleton]
        exact .held held

/-- A merge takes over the runs that it is made of, or releases them. -/
theorem ofSources_takesOver {runs : List (RunReader ρ)} (files : ∀ r ∈ runs, r.file = c.ref)
    (limit : UInt64) (order : Comparator ρ) (verify : Bool)
    (lasts : Lasts c ends (k + runs.length) s) :
    Runs (ofSources runs limit order verify : StoreM _) s fun result s' =>
      TakesOver c ends k (result.map (·.heap.toList)) s' := by
  refine (collect_takesOver files 0 #[] ⟨by simp, lasts⟩).seq fun result s₁ takes => ?_
  cases result with
  | error e => exact Runs.of_pure takes
  | ok streams =>
    have perm := arrange_run order verify streams
    dsimp only
    rcases harrange : (arrange order verify streams).runFresh with ⟨heap, _ | violation⟩ <;>
      rw [harrange] at perm
    · exact Runs.of_pure (takes.perm perm.symm)
    · exact (releaseStreams_lasts (takes.perm perm.symm)).seq fun _ _ lasts => Runs.of_pure lasts

/-! ## Giving out records -/

variable {q : Merge (RunReader ρ) ρ}

theorem deliver_owns (record : ρ) (violation : Option Violation)
    (owns : Owns c ends k q.heap.toList s) :
    Runs (deliver q record violation : StoreM _) s fun p s' => Owns c ends k p.2.heap.toList s' := by
  rw [deliver.eq_def]
  cases violation with
  | some v => exact Runs.of_pure owns
  | none =>
    dsimp only
    split
    · refine (closeAll_owns owns).seq ?_
      rintro ⟨result, q'⟩ s₁ closed
      cases result <;> exact Runs.of_pure closed
    · exact Runs.of_pure owns

/-- The stream that gives a record goes back into the heap, or it is released. -/
theorem next_owns (owns : Owns c ends k q.heap.toList s) :
    Runs (next q : StoreM _) s fun p s' => Owns c ends k p.2.heap.toList s' := by
  obtain spent | ⟨t, others, violation, takes⟩ := next_cases q
  · rw [next_of_spent spent]
    exact Runs.of_pure owns
  obtain ⟨files, lasts⟩ := owns.perm takes.perm
  obtain ⟨file, files⟩ := List.forall_mem_cons.mp files
  rw [takes.next_eq]
  refine (next_held file (lasts.toHeld (Nat.succ_pos _))).seq ?_
  rintro ⟨_ | e | x, source⟩ s₁ ⟨file', held⟩
  · refine (close_held file' held).seq ?_
    rintro ⟨result, source'⟩ s₂ ⟨file'', held⟩
    refine (release_lasts file'' (n := k + others.toList.length) (.held held)).seq ?_
    intro _ s₃ lasts
    -- closing the run may fail, but the stream has left the heap all the same
    cases result with
    | error e => exact Runs.of_pure ⟨files, lasts⟩
    | ok => exact deliver_owns _ _ ⟨files, lasts⟩
  · refine (release_lasts file' (n := k + others.toList.length) (.held held)).seq ?_
    exact fun _ _ lasts => Runs.of_pure ⟨files, lasts⟩
  · obtain ⟨heap, v, back, perm⟩ :=
      putBack_run (q.without others) { t with current := x, source } violation
    have again : Owns c ends k ({ t with current := x, source } :: others.toList) s₁ :=
      ⟨List.forall_mem_cons.mpr ⟨file', files⟩, .held held⟩
    rw [settle, back]
    exact deliver_owns _ _ (again.perm perm.symm)

theorem close_owns (owns : Owns c ends k q.heap.toList s) :
    Runs (close q : StoreM _) s fun p s' => Owns c ends k p.2.heap.toList s' :=
  closeAll_owns (q := { q with remaining := 0 }) owns

end Merge
end ExternalSort
