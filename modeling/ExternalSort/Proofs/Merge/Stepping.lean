/-
  ExternalSort.Proofs.Merge.Stepping

  What asking a merge for a record comes to, whatever its comparator says.

  As long as something may come out, a merge takes one stream out of its heap and
  asks the source of that stream; what becomes of the stream is settled by the
  answer. There are no other cases (`next_cases`), so what a merge keeps is
  proved from these and not from the program. With sources that have a state of
  their own, a request gives nothing, fails and leaves nothing to come, or gives
  out the record of one stream (`next_run`). The sources that a merge is made of
  are asked one by one in the same way.
-/

import ExternalSort.Merge
import ExternalSort.Proofs.Order.Rearranging
import ExternalSort.Proofs.Source

namespace ExternalSort
namespace Merge

variable {S σ ρ : Type}

/-! ## The heap with any comparator -/

/-- One stream leaves the heap, if there is one. -/
theorem takeTop_run (q : Merge σ ρ) (v : Option Violation) :
    ∃ (heap : Array (MergeStream σ ρ)) (v' : Option Violation),
      (takeTop q).run v = ((heap.back?, { q with heap := heap.pop }), v') ∧
      heap.toList.Perm q.heap.toList := by
  have perm := Heap.onArray_perm (Heap.pop_rearranges (comesAfter q.order q.verify)) q.heap v
  rcases hpop : (Heap.onArray (Heap.pop (comesAfter q.order q.verify)) q.heap : Checked _).run v
    with ⟨heap, v'⟩
  rw [hpop] at perm
  refine ⟨heap, v', ?_, perm⟩
  rw [takeTop, run_bind_of_run hpop]
  rfl

/-- A stream goes into the heap. -/
theorem putBack_run (q : Merge σ ρ) (t : MergeStream σ ρ) (v : Option Violation) :
    ∃ (heap : Array (MergeStream σ ρ)) (v' : Option Violation),
      (putBack q t).run v = ({ q with heap := heap }, v') ∧
      heap.toList.Perm (t :: q.heap.toList) := by
  have perm := Heap.onArray_perm (Heap.push_rearranges (comesAfter q.order q.verify))
    (q.heap.push t) v
  rcases hpush : (Heap.onArray (Heap.push (comesAfter q.order q.verify)) (q.heap.push t) :
    Checked _).run v with ⟨heap, v'⟩
  rw [hpush, Array.toList_push] at perm
  refine ⟨heap, v', ?_, perm.trans (List.perm_append_singleton _ _)⟩
  rw [putBack, run_bind_of_run hpush]
  rfl

theorem arrange_run (order : Comparator ρ) (verify : Bool) (heap : Array (MergeStream σ ρ)) :
    ((arrange order verify heap).runFresh).1.toList.Perm heap.toList :=
  Heap.onArray_perm (Heap.make_rearranges (comesAfter order verify)) heap none

/-! ## One request -/

section Request

variable {m : Type → Type} [Monad m] [SortedSource m σ ρ] {q : Merge σ ρ}

/-- What becomes of a stream that left the heap, by the answer of its source. Its record is given out
    unless the source failed, or ended and could not be closed. -/
def settle (q : Merge σ ρ) (t : MergeStream σ ρ) (violation : Option Violation) :
    Step ρ × σ → m (Step ρ × Merge σ ρ)
  | (some (.ok record), source) =>
    let (q, violation) := (putBack q { t with current := record, source }).run violation
    deliver q t.current violation
  | (some (.error e), source) => do
    SortedSource.release source
    return q.fail e
  | (none, source) => do
    let (result, source) ← SortedSource.close source
    SortedSource.release source
    match result with
    | .error e => return q.fail e
    | .ok () => deliver q t.current violation

/-- A merge that still gives out records takes a stream from its heap and leaves the others. What
    comparing them found is kept until the record is given out. -/
structure Takes (q : Merge σ ρ) (t : MergeStream σ ρ) (others : Array (MergeStream σ ρ))
    (violation : Option Violation) : Prop where
  more : q.remaining ≠ 0
  taken : (takeTop { q with remaining := q.remaining - 1 }).runFresh =
    ((some t, { q with heap := others, remaining := q.remaining - 1 }), violation)
  perm : q.heap.toList.Perm (t :: others.toList)

omit [SortedSource m σ ρ] in
/-- Nothing was found while a stream was taken. -/
theorem Takes.of_pure {t : MergeStream σ ρ} {others : Array (MergeStream σ ρ)}
    (more : q.remaining ≠ 0)
    (taken : takeTop { q with remaining := q.remaining - 1 } =
      pure (some t, { q with heap := others, remaining := q.remaining - 1 }))
    (perm : q.heap.toList.Perm (t :: others.toList)) : Takes q t others none :=
  ⟨more, congrArg Checked.runFresh taken, perm⟩

/-- The merge without the stream that was taken from it. -/
abbrev without (q : Merge σ ρ) (others : Array (MergeStream σ ρ)) : Merge σ ρ :=
  { q with heap := others, remaining := q.remaining - 1 }

theorem next_of_spent (spent : q.remaining = 0 ∨ q.heap = #[]) :
    (next q : m _) = pure (none, q) := by
  rw [next, if_pos]
  rcases spent with zero | empty
  · rw [zero]
    rfl
  · rw [empty]
    exact Bool.or_true _

theorem Takes.next_eq {t : MergeStream σ ρ} {others : Array (MergeStream σ ρ)}
    {violation : Option Violation} (takes : Takes q t others violation) :
    (next q : m _) = SortedSource.next t.source >>= settle (q.without others) t violation := by
  have going : ¬ (q.remaining = 0 || q.heap.isEmpty) = true := by
    intro spent
    rcases Bool.or_eq_true_iff.mp spent with zero | empty
    · exact takes.more (of_decide_eq_true zero)
    · have perm := takes.perm
      rw [Array.isEmpty_iff.mp empty] at perm
      exact List.cons_ne_nil _ _ (List.nil_perm.mp perm)
  rw [next, if_neg going, takes.taken]
  refine congrArg (SortedSource.next t.source >>= ·) (funext fun answer => ?_)
  obtain ⟨_ | _ | _, _⟩ := answer <;> rfl

omit [SortedSource m σ ρ] in
/-- Either nothing comes out of a merge any more, or it takes a stream. -/
theorem next_cases (q : Merge σ ρ) :
    (q.remaining = 0 ∨ q.heap = #[]) ∨ ∃ t others violation, Takes q t others violation := by
  by_cases zero : q.remaining = 0
  · exact .inl (.inl zero)
  obtain ⟨heap, v, taken, perm⟩ := takeTop_run { q with remaining := q.remaining - 1 } none
  cases htop : heap.back? with
  | none =>
    obtain rfl : heap = #[] := Array.back?_eq_none_iff.mp htop
    have empty : q.heap.toList = [] := List.nil_perm.mp perm
    exact .inl (.inr (Array.toList_eq_nil_iff.mp empty))
  | some t =>
    obtain ⟨others, rfl⟩ := Array.back?_eq_some_iff.mp htop
    rw [Array.back?_push, Array.pop_push] at taken
    rw [Array.toList_push] at perm
    exact .inr ⟨t, others, v, zero, taken, perm.symm.trans (List.perm_append_singleton t _)⟩

end Request

/-! ## Sources with a state of their own -/

section Sources

variable [SortedSource (StateM S) σ ρ] {q q' : Merge σ ρ} {t : MergeStream σ ρ}
  {others : Array (MergeStream σ ρ)} {violation violation' : Option Violation}
  {source source' : σ} {s s₁ s₂ : S} {x : ρ} {e : SortError} {answer : Step ρ × Merge σ ρ}

namespace Takes

/-- The source has another record, with which the stream goes back into the heap. -/
theorem run_of_record (takes : Takes q t others violation)
    (hnext : (SortedSource.next t.source : StateM S _).run s = ((some (.ok x), source), s₁))
    (put : (putBack (q.without others) { t with current := x, source }).run violation =
      (q', violation')) :
    (next q : StateM S _).run s = (deliver q' t.current violation' : StateM S _).run s₁ := by
  rw [takes.next_eq, run_bind_of_run hnext, settle, put]

/-- The source is at its end and is closed. -/
theorem run_of_end (takes : Takes q t others violation)
    (hnext : (SortedSource.next t.source : StateM S _).run s = ((none, source), s₁))
    (hclose : (SortedSource.close source : StateM S _).run s₁ = ((.ok (), source'), s₂)) :
    (next q : StateM S _).run s = (deliver (q.without others) t.current violation :
      StateM S _).run ((SortedSource.release source' : StateM S Unit).run s₂).2 := by
  rw [takes.next_eq, run_bind_of_run hnext, settle, run_bind_of_run hclose]
  rfl

/-- The source fails. -/
theorem run_of_error (takes : Takes q t others violation)
    (hnext : (SortedSource.next t.source : StateM S _).run s = ((some (.error e), source), s₁)) :
    (next q : StateM S _).run s =
      ((q.without others).fail e, ((SortedSource.release source : StateM S Unit).run s₁).2) := by
  rw [takes.next_eq, run_bind_of_run hnext]
  rfl

/-- Closing the source fails. -/
theorem run_of_close_error (takes : Takes q t others violation)
    (hnext : (SortedSource.next t.source : StateM S _).run s = ((none, source), s₁))
    (hclose : (SortedSource.close source : StateM S _).run s₁ = ((.error e, source'), s₂)) :
    (next q : StateM S _).run s =
      ((q.without others).fail e, ((SortedSource.release source' : StateM S Unit).run s₂).2) := by
  rw [takes.next_eq, run_bind_of_run hnext, settle, run_bind_of_run hclose]
  rfl

end Takes

/-- The streams after a record was given out, unless it was the last one and all were closed. -/
structure Leaves (q q' : Merge σ ρ) (streams : List (MergeStream σ ρ)) : Prop where
  remaining : q'.remaining = q.remaining
  heap : q'.heap.toList.Perm streams ∨ q'.remaining = 0 ∧ q'.heap = #[]

/-- What giving out a record comes to. -/
inductive Delivered (q : Merge σ ρ) (x : ρ) : Step ρ × Merge σ ρ → Prop
  | error {e : SortError} {q' : Merge σ ρ} (spent : q'.remaining = 0) :
      Delivered q x (some (.error e), q')
  | record {q' : Merge σ ρ} (leaves : Leaves q q' q.heap.toList) : Delivered q x (some (.ok x), q')

theorem delivered (h : (deliver q x violation : StateM S _).run s = (answer, s₁)) :
    Delivered q x answer := by
  rw [deliver.eq_def] at h
  cases violation with
  | some v =>
    cases h
    exact .error rfl
  | none =>
    dsimp only at h
    -- with the last record all streams are closed, which may fail instead
    by_cases zero : q.remaining = 0
    · rw [if_pos zero, StateT.run_bind] at h
      rcases hclose : (closeAll q : StateM S _).run s with ⟨⟨_ | _, q₁⟩, s₂⟩
      · rw [hclose] at h
        cases h
        exact .error rfl
      · obtain rfl : { q with heap := #[] } = q₁ := congrArg (fun p => p.1.2) hclose
        rw [hclose] at h
        cases h
        exact .record ⟨rfl, .inr ⟨zero, rfl⟩⟩
    · rw [if_neg zero] at h
      cases h
      exact .record ⟨rfl, .inl (.refl _)⟩

/-- What asking for the next record of a stream leaves of the streams, if it does not fail. -/
inductive Asked (rest : List (MergeStream σ ρ)) (t : MergeStream σ ρ) (s : S) :
    List (MergeStream σ ρ) → Prop
  | ended {source : σ} {s' : S}
      (next : (SortedSource.next t.source : StateM S _).run s = ((none, source), s')) :
      Asked rest t s rest
  | goesOn {source : σ} {s' : S} {x : ρ}
      (next : (SortedSource.next t.source : StateM S _).run s = ((some (.ok x), source), s')) :
      Asked rest t s ({ t with current := x, source } :: rest)

/-- What a request comes to: nothing, an error that is the last, or the current record of a stream
    whose source was asked for another one. -/
inductive Stepped (q : Merge σ ρ) (s : S) : Step ρ × Merge σ ρ → Prop
  | nothing (spent : q.remaining = 0 ∨ q.heap = #[]) : Stepped q s (none, q)
  | error {e : SortError} {q' : Merge σ ρ} (spent : q'.remaining = 0) :
      Stepped q s (some (.error e), q')
  | record {t : MergeStream σ ρ} {rest streams : List (MergeStream σ ρ)} {q' : Merge σ ρ}
      (more : q.remaining ≠ 0) (perm : q.heap.toList.Perm (t :: rest))
      (asked : Asked rest t s streams)
      (leaves : Leaves { q with remaining := q.remaining - 1 } q' streams) :
      Stepped q s (some (.ok t.current), q')

/-- The record of a stream is given out once the stream was asked. -/
theorem Delivered.stepped {streams : List (MergeStream σ ρ)} {heap : Array (MergeStream σ ρ)}
    (takes : Takes q t others violation) (asked : Asked others.toList t s streams)
    (perm : heap.toList.Perm streams) (h : Delivered (q.without heap) t.current answer) :
    Stepped q s answer := by
  cases h with
  | error spent => exact .error spent
  | record leaves =>
    obtain ⟨remaining, kept⟩ := leaves
    exact .record takes.more takes.perm asked ⟨remaining, kept.imp_left (·.trans perm)⟩

theorem next_run (h : (next q : StateM S _).run s = (answer, s₁)) : Stepped q s answer := by
  obtain spent | ⟨t, others, violation, takes⟩ := next_cases q
  · rw [next_of_spent spent] at h
    cases h
    exact .nothing spent
  rcases hnext : (SortedSource.next t.source : StateM S _).run s with ⟨⟨_ | e | x, source⟩, s₂⟩
  · rcases hclose : (SortedSource.close source : StateM S _).run s₂ with ⟨⟨e | _, source'⟩, s₃⟩
    · rw [takes.run_of_close_error hnext hclose] at h
      cases h
      exact .error rfl
    · rw [takes.run_of_end hnext hclose] at h
      exact (delivered h).stepped takes (.ended hnext) (.refl _)
  · rw [takes.run_of_error hnext] at h
    cases h
    exact .error rfl
  · obtain ⟨heap, v, put, perm⟩ :=
      putBack_run (q.without others) { t with current := x, source } violation
    rw [takes.run_of_record hnext put] at h
    exact (delivered h).stepped takes (.goesOn hnext) perm

/-! ## Making a merge -/

/-- The number of records that a merge with a limit gives out at most. -/
def most (limit : UInt64) : Nat := if limit = 0 then unlimited else limit.toNat

theorem most_le (limit : UInt64) : most limit ≤ unlimited := by
  have bound : limit.toNat < UInt64.size := limit.toNat_lt
  rw [most]
  split
  · exact Nat.le_refl _
  · exact Nat.le_sub_one_of_lt bound

variable {index : Nat} {rest : List σ} {heap : Array (MergeStream σ ρ)}

/-- A source that has a record gets a stream. -/
theorem collect_of_record
    (hnext : (SortedSource.next source : StateM S _).run s = ((some (.ok x), source'), s₁)) :
    (collect index (source :: rest) heap : StateM S _).run s =
      (collect (index + 1) rest (heap.push ⟨index, x, source'⟩) : StateM S _).run s₁ := by
  rw [collect, run_bind_of_run hnext]

/-- A source that has no record is closed and gets none. -/
theorem collect_of_end {source₁ source₂ : σ}
    (hnext : (SortedSource.next source : StateM S _).run s = ((none, source₁), s₁))
    (hclose : (SortedSource.close source₁ : StateM S _).run s₁ = ((.ok (), source₂), s₂)) :
    (collect index (source :: rest) heap : StateM S _).run s =
      (collect (index + 1) rest heap : StateM S _).run
        ((SortedSource.release source₂ : StateM S Unit).run s₂).2 := by
  rw [collect, run_bind_of_run hnext]
  dsimp only
  rw [run_bind_of_run hclose]
  rfl

/-- A source that fails at once keeps a merge from being made. -/
theorem collect_of_error
    (hnext : (SortedSource.next source : StateM S _).run s = ((some (.error e), source'), s₁)) :
    ∃ s', (collect index (source :: rest) heap : StateM S _).run s = (.error e, s') := by
  rw [collect, run_bind_of_run hnext]
  exact ⟨_, rfl⟩

/-- So does a source without a record that cannot be closed. -/
theorem collect_of_close_error {source₁ source₂ : σ}
    (hnext : (SortedSource.next source : StateM S _).run s = ((none, source₁), s₁))
    (hclose : (SortedSource.close source₁ : StateM S _).run s₁ = ((.error e, source₂), s₂)) :
    ∃ s', (collect index (source :: rest) heap : StateM S _).run s = (.error e, s') := by
  rw [collect, run_bind_of_run hnext]
  dsimp only
  rw [run_bind_of_run hclose]
  exact ⟨_, rfl⟩

/-- A merge is made when its sources have their streams and arranging these found nothing. -/
theorem ofSources_of_collect {sources : List σ} {streams : Array (MergeStream σ ρ)}
    {order : Comparator ρ} {verify : Bool} (limit : UInt64)
    (hcollect : (collect 0 sources #[] : StateM S _).run s = (.ok streams, s₁))
    (harrange : arrange order verify streams = pure heap) :
    (ofSources sources limit order verify : StateM S _).run s =
      (.ok ⟨heap, most limit, order, verify⟩, s₁) := by
  have fresh : (arrange order verify streams).runFresh = (heap, none) :=
    congrArg Checked.runFresh harrange
  rw [ofSources, run_bind_of_run hcollect]
  simp only [fresh]
  rfl

/-- Where a source keeps a merge from being made, its error is the answer. -/
theorem ofSources_of_error {sources : List σ} {order : Comparator ρ} {verify : Bool}
    (limit : UInt64) (hcollect : (collect 0 sources #[] : StateM S (Except SortError
      (Array (MergeStream σ ρ)))).run s = (.error e, s₁)) :
    (ofSources sources limit order verify : StateM S _).run s = (.error e, s₁) := by
  rw [ofSources, run_bind_of_run hcollect]
  rfl

end Sources

end Merge
end ExternalSort
