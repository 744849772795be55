/-
  ExternalSort.Proofs.Merge.Checking

  What checking the comparator changes about a merge.

  A merge that checks and one that does not ask their sources for the same, so
  they give out the same, until the one that checks tells of a violation. Their
  heaps are arranged alike whatever was found; what was found is looked at only
  after the source was advanced and the stream put back.
-/

import ExternalSort.Proofs.Agreeing
import ExternalSort.Proofs.Merge.Closing
import ExternalSort.Proofs.Order.Checking

namespace ExternalSort

open Telling (Tells)

namespace Merge

variable {S σ ρ : Type}

/-- The same merge, without checks. -/
def unverified (q : Merge σ ρ) : Merge σ ρ := { q with verify := false }

/-- The order of the merge never contradicts itself. -/
def Sound (q : Merge σ ρ) : Prop := Std.OrientedCmp q.order

/-- Checks are taken away from merges. -/
def erasure (σ ρ : Type) : Erasure (Merge σ ρ) (Merge σ ρ) := ⟨unverified, Sound⟩

/-! ## The heap -/

theorem comesAfter_echoes (order : Comparator ρ) (verify : Bool) (a b : MergeStream σ ρ) :
    Echoes (Std.OrientedCmp order) id (comesAfter order verify a b) (comesAfter order false a b) :=
  (checkedCompare_echoes order verify _ _).ask fun _ => .of_pure id _

theorem arrange_echoes (order : Comparator ρ) (verify : Bool) (heap : Array (MergeStream σ ρ)) :
    Echoes (Std.OrientedCmp order) id (arrange order verify heap) (arrange order false heap) :=
  Heap.onArray_echoes (fun v => Heap.make_echoes (comesAfter_echoes order verify) v) heap

theorem takeTop_echoes (q : Merge σ ρ) :
    Echoes q.Sound ((erasure σ ρ).beside _).erase (takeTop q) (takeTop q.unverified) :=
  (Heap.onArray_echoes (fun v => Heap.pop_echoes (comesAfter_echoes q.order q.verify) v) _).ask
    fun heap => .of_pure ((erasure σ ρ).beside _).erase (heap.back?, { q with heap := heap.pop })

theorem putBack_echoes (q : Merge σ ρ) (stream : MergeStream σ ρ) :
    Echoes q.Sound unverified (putBack q stream) (putBack q.unverified stream) :=
  (Heap.onArray_echoes (fun v => Heap.push_echoes (comesAfter_echoes q.order q.verify) v) _).ask
    fun heap => .of_pure unverified { q with heap := heap }

/-! ## Giving out records -/

section Sources

variable [SortedSource (StateM S) σ ρ] {silent : Prop} {q : Merge σ ρ}

theorem closeStreams_silent (h : SortedSource.Silent S σ) (streams : List (MergeStream σ ρ)) (s : S) :
    ¬ Tells ((closeStreams streams : StateM S _).run s).1 := by
  induction streams generalizing s with
  | nil => exact id
  | cons stream rest ih =>
    have first := h.close stream.source s
    rcases hclose : (SortedSource.close stream.source : StateM S _).run s with ⟨⟨_ | _, source⟩, t⟩ <;>
      rw [hclose] at first <;> rw [closeStreams, run_bind_of_run hclose]
    · exact first
    · exact ih ((SortedSource.release source : StateM S Unit).run t).2

theorem closeAll_conforms (h : silent → SortedSource.Silent S σ) (q : Merge σ ρ) :
    Conforms q.Sound silent (Tells ·.1) ((erasure σ ρ).beside _)
      (closeAll q : StateM S _) (closeAll q.unverified) :=
  .ask fun s => .of_pure (fun holds => closeStreams_silent (h holds) _ s) id

/-- The comparisons for a record may have found something, unless the order is sound. -/
theorem deliver_conforms (h : silent → SortedSource.Silent S σ) (q : Merge σ ρ) (record : ρ)
    {violation : Option Violation} (found : q.Sound → violation = none) :
    Conforms q.Sound silent (Tells ·.1) ((erasure σ ρ).beside _)
      (deliver q record violation : StateM S _) (deliver q.unverified record none) := by
  rw [deliver.eq_def, deliver.eq_def]
  cases violation with
  | some v =>
    apply Conforms.of_told (a := q.fail (.comparatorInvariantViolation v)) trivial
    exact fun sound => Option.some_ne_none v (found sound)
  | none =>
    apply Conforms.ite
    · intro _
      apply (closeAll_conforms h q).seq
      · rintro ⟨result, q'⟩ - told
        cases result with
        | error e => exact told
        | ok => exact told.elim
      · rintro ⟨result, q'⟩ quiet sound
        cases result with
        | error e => exact .of_pure (a := q'.fail e) quiet sound
        | ok => exact .of_pure (fun _ => id) sound
    · exact fun _ => .of_pure (fun _ => id) id

omit [SortedSource (StateM S) σ ρ] in
/-- Without checks the same stream is taken, and nothing is found. -/
theorem Takes.unverified {t : MergeStream σ ρ} {others : Array (MergeStream σ ρ)}
    {violation : Option Violation} (takes : Takes q t others violation) :
    Takes q.unverified t others none ∧ (q.Sound → violation = none) := by
  obtain ⟨more, taken, perm⟩ := takes
  obtain ⟨alike, found⟩ := (takeTop_echoes { q with remaining := q.remaining - 1 }).run_eq none
  rw [Checked.runFresh] at taken
  rw [taken] at alike found
  exact ⟨⟨more, alike, perm⟩, found⟩

/-- What becomes of a stream is settled alike, by the same answer. -/
theorem settle_conforms (h : silent → SortedSource.Silent S σ) (q : Merge σ ρ)
    (t : MergeStream σ ρ) {violation : Option Violation} (found : q.Sound → violation = none)
    (answer : Step ρ × σ) (quiet : silent → ¬ Tells answer.1) :
    Conforms q.Sound silent (Tells ·.1) ((erasure σ ρ).beside _)
      (settle q t violation answer : StateM S _) (settle q.unverified t none answer) := by
  obtain ⟨_ | e | record, source⟩ := answer
  · apply Conforms.ask
    intro s
    have quiet (holds : silent) := (h holds).close source s
    generalize ((SortedSource.close source : StateM S _).run s).1 = closed at quiet ⊢
    obtain ⟨_ | _, source'⟩ := closed
    · apply Conforms.ask
      exact fun _ => .of_pure (a := q.fail _) quiet id
    · apply Conforms.ask
      exact fun _ => deliver_conforms h q t.current found
  · apply Conforms.ask
    exact fun _ => .of_pure (a := q.fail e) quiet id
  · obtain ⟨heap, v, back, -⟩ := putBack_run q { t with current := record, source } violation
    obtain ⟨alike, found'⟩ :=
      (putBack_echoes q { t with current := record, source }).run_eq violation
    rw [back] at alike found'
    -- what was found is looked at only now that the stream is back
    rw [settle, settle, back, alike]
    exact deliver_conforms h _ t.current fun sound => (found' sound).trans (found sound)

/-- The next record is taken out of the heap and its source advanced alike. -/
theorem next_conforms (h : silent → SortedSource.Silent S σ) (q : Merge σ ρ) :
    Conforms q.Sound silent (Tells ·.1) ((erasure σ ρ).beside _)
      (next q : StateM S _) (next q.unverified) := by
  obtain spent | ⟨t, others, violation, takes⟩ := next_cases q
  · rw [next_of_spent spent, next_of_spent (q := q.unverified) spent]
    exact .of_pure (fun _ => id) id
  · obtain ⟨alike, found⟩ := takes.unverified
    rw [takes.next_eq, alike.next_eq]
    apply Conforms.ask
    intro s
    exact settle_conforms h (q.without others) t found _ fun holds => (h holds).next t.source s

/-! ## Answering requests -/

omit [SortedSource (StateM S) σ ρ] in
instance : Telling (Reply ρ) where
  Tells
    | .step step => Tells step
    | .closed result => Tells result

theorem answer_conforms (h : silent → SortedSource.Silent S σ) (q : Merge σ ρ) (request : Request) :
    Conforms q.Sound silent (Tells ·.1) ((erasure σ ρ).beside _)
      (answer q request : StateM S _) (answer q.unverified request) := by
  cases request with
  | next =>
    exact (next_conforms h q).seq (fun _ _ => id) fun _ quiet sound => .of_pure quiet sound
  | close =>
    exact (closeAll_conforms h { q with remaining := 0 }).seq (fun _ _ => id)
      fun _ quiet sound => .of_pure quiet sound

theorem answerAll_conforms (h : silent → SortedSource.Silent S σ) (requests : List Request)
    (q : Merge σ ρ) :
    Conforms q.Sound silent (fun p => ∃ reply ∈ p.1, Tells reply) ((erasure σ ρ).beside _)
      (answerAll requests q : StateM S _) (answerAll requests q.unverified) := by
  induction requests generalizing q with
  | nil => exact .nil (E := erasure σ ρ) id
  | cons request rest ih =>
    exact (answer_conforms h q request).cons fun q' sound => (ih q').mono sound

/-! ## Making a merge -/

theorem collect_silent (h : SortedSource.Silent S σ) (sources : List σ) (index : Nat)
    (heap : Array (MergeStream σ ρ)) (s : S) :
    ¬ Tells ((collect index sources heap : StateM S _).run s).1 := by
  induction sources generalizing index heap s with
  | nil => exact id
  | cons source rest ih =>
    have first := h.next source s
    rcases hnext : (SortedSource.next source : StateM S _).run s with ⟨⟨_ | e | record, source⟩, t⟩ <;>
      rw [hnext] at first
    · have last := h.close source t
      rcases hclose : (SortedSource.close source : StateM S _).run t with ⟨⟨e | _, source⟩, u⟩ <;>
        rw [hclose] at last
      · obtain ⟨_, failed⟩ := collect_of_close_error hnext hclose
        rw [failed]
        exact last
      · rw [collect_of_end hnext hclose]
        exact ih _ _ _
    · obtain ⟨_, failed⟩ := collect_of_error hnext
      rw [failed]
      exact first
    · rw [collect_of_record hnext]
      exact ih _ _ _

theorem ofSources_conforms (h : silent → SortedSource.Silent S σ) (sources : List σ) (limit : UInt64)
    (order : Comparator ρ) (verify : Bool) :
    Conforms (Std.OrientedCmp order) silent Tells ((erasure σ ρ).result _)
      (ofSources sources limit order verify : StateM S _) (ofSources sources limit order false) := by
  apply Conforms.ask
  intro s
  have quiet (holds : silent) := collect_silent (h holds) sources 0 #[] s
  generalize ((collect 0 sources #[] : StateM S _).run s).1 = collected at quiet ⊢
  cases collected with
  | error e =>
    exact .of_pure (F := (erasure σ ρ).result _) (a := Except.error e) quiet fun _ =>
      (erasure σ ρ).sound_error e
  | ok streams =>
    obtain ⟨alike, found⟩ := (arrange_echoes order verify streams).run_eq none
    dsimp only [Checked.runFresh]
    rw [alike]
    rcases hrun : (arrange order verify streams).run none with ⟨heap, _ | v⟩
    · exact .of_pure (F := (erasure σ ρ).result _) (a := .ok { heap, remaining := _, order, verify })
        (fun _ => id) fun sound q made => Except.ok.inj made ▸ sound
    · rw [hrun] at found
      exact fun _ => .inl ⟨trivial, fun sound => Option.some_ne_none v (found sound)⟩

/-- A merge could not be made, or it told of a violation. -/
def Told : Except SortError (List (Reply ρ)) → Prop
  | .error e => Tells e
  | .ok replies => ∃ reply ∈ replies, Tells reply

theorem lifetime_conforms (h : silent → SortedSource.Silent S σ) (sources : List σ) (limit : UInt64)
    (order : Comparator ρ) (verify : Bool) (requests : List Request) :
    Conforms (Std.OrientedCmp order) silent Told (.same True)
      (lifetime sources limit order verify requests : StateM S _)
      (lifetime sources limit order false requests) := by
  apply (ofSources_conforms h sources limit order verify).seq
  · intro made _ told
    cases made with
    | error e => exact told
    | ok q => exact told.elim
  · intro made quiet sound
    cases made with
    | error e => exact .of_pure (F := .same True) (a := Except.error e) quiet fun _ => trivial
    | ok q =>
      apply ((answerAll_conforms h requests q).mono (sound · q rfl)).seq
      · exact fun _ _ => id
      · rintro ⟨replies, q'⟩ quiet' -
        apply Conforms.ask
        exact fun _ => .of_pure (F := .same True) (a := Except.ok replies) quiet' fun _ => trivial

end Sources
end Merge
end ExternalSort
