/-
  ExternalSort.Proofs.Merge.Closing

  Which of its sources a merge closes.

  The sources are watched: it is noted when one of them ends, when it fails, and
  when it is closed. A source that a merge was made of is in the heap, or it was
  closed, or it failed, and no step of the merge changes that it is one of these
  once. Giving up the merge empties the heap. If no merge can be made, only the
  sources that ended before that are closed.
-/

import ExternalSort.Proofs.Merge.Stepping
import ExternalSort.Run.Reader

namespace ExternalSort
namespace Merge

/-! ## A merge in use -/

/-- What a merge can be asked for. -/
inductive Request
  | next
  | close

/-- What a merge answers. -/
inductive Reply (ρ : Type)
  | step (step : Step ρ)
  | closed (result : Except SortError Unit)

section Use

variable {m : Type → Type} [Monad m] {σ ρ : Type} [SortedSource m σ ρ]

/-- Does what a merge is asked for. -/
def answer (q : Merge σ ρ) : Request → m (Reply ρ × Merge σ ρ)
  | .next => do
    let (step, q) ← next q
    return (.step step, q)
  | .close => do
    let (result, q) ← close q
    return (.closed result, q)

/-- Answers requests, first to last. -/
def answerAll : List Request → Merge σ ρ → m (List (Reply ρ) × Merge σ ρ)
  | [], q => return ([], q)
  | request :: rest, q => do
    let (reply, q) ← answer q request
    let (replies, q) ← answerAll rest q
    return (reply :: replies, q)

/-- Makes a merge, asks it for something any number of times, and gives it up. -/
def lifetime (sources : List σ) (limit : UInt64) (order : Comparator ρ) (verify : Bool)
    (requests : List Request) : m (Except SortError (List (Reply ρ))) := do
  match ← ofSources sources limit order verify with
  | .error e => return .error e
  | .ok q =>
    let (replies, q) ← answerAll requests q
    release q
    return .ok replies

end Use

/-! ## Watching the sources -/

/-- What happened to the source at a place. -/
inductive Event
  | ended (place : Nat)
  | failed (place : Nat)
  | closed (place : Nat)
deriving DecidableEq

/-- A source with its place among the sources. -/
structure Watched (σ : Type) where
  place : Nat
  source : σ

/-- Sources with their places, the first of which is `place`. -/
def watch {σ : Type} (place : Nat) : List σ → List (Watched σ)
  | [] => []
  | source :: rest => ⟨place, source⟩ :: watch (place + 1) rest

/-- What is noted of a source that was asked for a record. -/
def Event.heard {ρ : Type} (place : Nat) : Step ρ → List Event
  | none => [.ended place]
  | some (.error _) => [.failed place]
  | some (.ok _) => []

section Watching

variable {S σ ρ : Type}

/-- A computation beside the notes. -/
def beside {α : Type} (x : StateM S α) : StateM (S × List Event) α := fun (s, log) =>
  let (a, s) := x.run s
  (a, (s, log))

/-- Notes events. -/
def note (events : List Event) : StateM (S × List Event) Unit :=
  modify fun (s, log) => (s, log ++ events)

instance [SortedSource (StateM S) σ ρ] : SortedSource (StateM (S × List Event)) (Watched σ) ρ where
  next w := do
    let (step, source) ← beside (SortedSource.next w.source : StateM S _)
    note (Event.heard w.place step)
    return (step, { w with source })
  close w := do
    let (result, source) ← beside (SortedSource.close w.source : StateM S _)
    note [.closed w.place]
    return (result, { w with source })
  release w := beside (SortedSource.release w.source : StateM S _)
  extent? w := SortedSource.extent? (StateM S) w.source

/-- What a computation leads to, with the notes before and after it. -/
def Hears {α : Type} (x : StateM (S × List Event) α) (log : List Event)
    (post : α → List Event → Prop) : Prop :=
  ∀ s, post (x.run (s, log)).1 (x.run (s, log)).2.2

namespace Hears

variable {α β : Type} {log : List Event} {x : StateM (S × List Event) α}
  {f : α → StateM (S × List Event) β} {post : α → List Event → Prop}

theorem of_pure {a : α} (h : post a log) : Hears (pure a : StateM (S × List Event) α) log post :=
  fun _ => h

theorem seq {next : β → List Event → Prop} (h : Hears x log post)
    (k : ∀ a log', post a log' → Hears (f a) log' next) : Hears (x >>= f) log next := by
  intro s
  rw [StateT.run_bind]
  exact k _ _ (h s) (x.run (s, log)).2.1

theorem mono {post' : α → List Event → Prop} (h : Hears x log post)
    (k : ∀ a log', post a log' → post' a log') : Hears x log post' :=
  fun s => k _ _ (h s)

end Hears

variable [SortedSource (StateM S) σ ρ] {log : List Event}

theorem next_hears (w : Watched σ) :
    Hears (SortedSource.next w : StateM (S × List Event) _) log fun p log' =>
      p.2.place = w.place ∧ log' = log ++ Event.heard w.place p.1 :=
  fun _ => ⟨rfl, rfl⟩

theorem close_hears (w : Watched σ) :
    Hears (SortedSource.close w : StateM (S × List Event) _) log fun p log' =>
      p.2.place = w.place ∧ log' = log ++ [.closed w.place] :=
  fun _ => ⟨rfl, rfl⟩

theorem release_hears (w : Watched σ) :
    Hears (SortedSource.release w : StateM (S × List Event) Unit) log fun _ log' => log' = log :=
  fun _ => rfl

theorem releaseAll_hears (sources : List (Watched σ)) :
    Hears (SortedSource.releaseAll sources : StateM (S × List Event) Unit) log
      fun _ log' => log' = log := by
  induction sources with
  | nil => exact .of_pure rfl
  | cons w rest ih =>
    refine (release_hears w).seq ?_
    rintro _ _ rfl
    exact ih

/-! ## Closing what is left -/

/-- How often the source at a place was closed or failed. -/
def settled (place : Nat) (log : List Event) : Nat :=
  log.count (.closed place) + log.count (.failed place)

/-- The number of sources at a place. -/
def sourcesAt (place : Nat) (sources : List (Watched σ)) : Nat :=
  sources.countP (·.place == place)

/-- The number of streams whose source is the one at a place. -/
def streamsAt (place : Nat) (streams : List (MergeStream (Watched σ) ρ)) : Nat :=
  streams.countP (·.source.place == place)

/-- Nothing is lost between the heap and the notes. -/
def Balanced (log : List Event) (streams : List (MergeStream (Watched σ) ρ)) (log' : List Event)
    (streams' : List (MergeStream (Watched σ) ρ)) : Prop :=
  ∀ place,
    settled place log' + streamsAt place streams' = settled place log + streamsAt place streams

variable {place : Nat} {log' log'' : List Event}
  {streams streams' streams'' : List (MergeStream (Watched σ) ρ)}

theorem settled_append (log log' : List Event) :
    settled place (log ++ log') = settled place log + settled place log' := by
  simp only [settled, List.count_append]
  omega

/-- How often an event settles the source at a place. -/
def Event.settles (place : Nat) : Event → Nat
  | .ended _ => 0
  | .failed p | .closed p => if p = place then 1 else 0

theorem settled_singleton (event : Event) : settled place [event] = event.settles place := by
  cases event <;> simp [settled, Event.settles, List.count_singleton]

theorem streamsAt_cons (t : MergeStream (Watched σ) ρ) :
    streamsAt place (t :: streams) =
      (if t.source.place = place then 1 else 0) + streamsAt place streams := by
  simp only [streamsAt, List.countP_cons, beq_iff_eq]
  omega

namespace Balanced

theorem refl (log : List Event) (streams : List (MergeStream (Watched σ) ρ)) :
    Balanced log streams log streams :=
  fun _ => rfl

theorem trans (h : Balanced log streams log' streams')
    (k : Balanced log' streams' log'' streams'') : Balanced log streams log'' streams'' :=
  fun place => (k place).trans (h place)

theorem of_perm (h : streams.Perm streams') : Balanced log streams log streams' :=
  fun place => congrArg (settled place log + ·) (h.countP_eq _).symm

/-- A stream that leaves the heap is noted once. -/
theorem of_leave {t : MergeStream (Watched σ) ρ} {event : Event}
    (h : event = .closed t.source.place ∨ event = .failed t.source.place) :
    Balanced log (t :: streams) (log ++ [event]) streams := by
  intro place
  rw [settled_append, settled_singleton, streamsAt_cons]
  rcases h with rfl | rfl <;> simp only [Event.settles] <;> omega

/-- The end of a source settles nothing yet. -/
theorem of_ended (place : Nat) : Balanced log streams (log ++ [.ended place]) streams := by
  intro place
  rw [settled_append, settled_singleton, Event.settles, Nat.add_zero]

/-- A stream that goes on is still the one of its source. -/
theorem of_advance {t t' : MergeStream (Watched σ) ρ} (h : t'.source.place = t.source.place) :
    Balanced log (t :: streams) log (t' :: streams) := by
  intro place
  rw [streamsAt_cons, streamsAt_cons, h]

end Balanced

/-- Closing notes every stream. -/
theorem closeStreams_hears (streams : List (MergeStream (Watched σ) ρ)) :
    Hears (closeStreams streams : StateM (S × List Event) _) log fun _ log' =>
      Balanced log streams log' [] := by
  induction streams generalizing log with
  | nil => exact .of_pure (.refl _ _)
  | cons t rest ih =>
    refine (close_hears t.source).seq ?_
    rintro ⟨result, source⟩ log₁ ⟨-, rfl⟩
    refine (release_hears source).seq ?_
    rintro _ _ rfl
    refine ih.seq fun others log₂ closed => ?_
    have all := (Balanced.of_leave (.inl rfl)).trans closed
    cases result <;> exact .of_pure all

theorem closeAll_hears (q : Merge (Watched σ) ρ) :
    Hears (closeAll q : StateM (S × List Event) _) log fun p log' =>
      Balanced log q.heap.toList log' p.2.heap.toList := by
  refine (closeStreams_hears q.heap.toList).seq fun result log' closed => ?_
  exact .of_pure closed

theorem release_merge_hears (q : Merge (Watched σ) ρ) :
    Hears (release q : StateM (S × List Event) _) log fun _ log' =>
      Balanced log q.heap.toList log' [] := by
  refine (closeStreams_hears q.heap.toList).seq fun result log' closed => ?_
  exact .of_pure closed

/-! ## Giving out records -/

theorem deliver_hears (q : Merge (Watched σ) ρ) (record : ρ) (violation : Option Violation) :
    Hears (deliver q record violation : StateM (S × List Event) _) log fun p log' =>
      Balanced log q.heap.toList log' p.2.heap.toList := by
  rw [deliver.eq_def]
  cases violation with
  | some v => exact .of_pure (.refl _ _)
  | none =>
    dsimp only
    split
    · refine (closeAll_hears q).seq ?_
      rintro ⟨result, q'⟩ log' closed
      cases result <;> exact .of_pure closed
    · exact .of_pure (.refl _ _)

/-- The stream on top goes back into the heap, or it is closed, or it fails. -/
theorem next_merge_hears (q : Merge (Watched σ) ρ) :
    Hears (next q : StateM (S × List Event) _) log fun p log' =>
      Balanced log q.heap.toList log' p.2.heap.toList := by
  obtain spent | ⟨t, others, violation, takes⟩ := next_cases q
  · rw [next_of_spent spent]
    exact .of_pure (.refl _ _)
  have taken : Balanced log q.heap.toList log (t :: others.toList) := .of_perm takes.perm
  rw [takes.next_eq]
  refine (next_hears t.source).seq ?_
  rintro ⟨_ | e | x, source⟩ log' ⟨hplace, rfl⟩
  · -- a source that ended is closed, whatever closing it finds
    refine (close_hears source).seq ?_
    rintro ⟨result, source'⟩ _ ⟨-, rfl⟩
    refine (release_hears source').seq ?_
    rintro _ _ rfl
    have left := (taken.trans (.of_ended t.source.place)).trans (.of_leave (.inl rfl))
    rw [← hplace] at left ⊢
    cases result with
    | error e => exact .of_pure left
    | ok => exact (deliver_hears _ _ _).mono fun _ _ delivered => left.trans delivered
  · refine (release_hears source).seq ?_
    rintro _ _ rfl
    exact .of_pure (taken.trans (.of_leave (.inr rfl)))
  · obtain ⟨heap, v, back, perm⟩ :=
      putBack_run (q.without others) { t with current := x, source } violation
    have kept : Balanced log q.heap.toList log heap.toList :=
      (taken.trans (.of_advance hplace)).trans (.of_perm perm.symm)
    rw [Event.heard, List.append_nil, settle, back]
    exact (deliver_hears _ _ _).mono fun _ _ delivered => kept.trans delivered

/-! ## Answering requests -/

theorem answer_hears (q : Merge (Watched σ) ρ) (request : Request) :
    Hears (answer q request : StateM (S × List Event) _) log fun p log' =>
      Balanced log q.heap.toList log' p.2.heap.toList := by
  cases request with
  | next => exact (next_merge_hears q).seq fun _ _ kept => .of_pure kept
  | close => exact (closeAll_hears _).seq fun _ _ kept => .of_pure kept

theorem answerAll_hears (requests : List Request) (q : Merge (Watched σ) ρ) :
    Hears (answerAll requests q : StateM (S × List Event) _) log fun p log' =>
      Balanced log q.heap.toList log' p.2.heap.toList := by
  induction requests generalizing log q with
  | nil => exact .of_pure (.refl _ _)
  | cons request rest ih =>
    refine (answer_hears q request).seq fun p log₁ kept => ?_
    refine (ih p.2).seq fun p' log₂ kept' => ?_
    exact .of_pure (kept.trans kept')

/-! ## Making a merge -/

/-- What is noted when sources are asked for their first records: a source is closed if it ended, and
    if all could be asked, every source is in the heap or noted. -/
structure Asks (log : List Event) (sources : List (Watched σ))
    (streams : List (MergeStream (Watched σ) ρ)) (log' : List Event)
    (result : Option (List (MergeStream (Watched σ) ρ))) : Prop where
  ended : ∀ place, log'.count (.closed place) + log.count (.ended place) =
    log.count (.closed place) + log'.count (.ended place)
  once : ∀ place, log'.count (.closed place) ≤ log.count (.closed place) + sourcesAt place sources
  made : ∀ streams', result = some streams' → ∀ place,
    settled place log' + streamsAt place streams' =
      settled place log + streamsAt place streams + sourcesAt place sources

theorem sourcesAt_cons (w : Watched σ) (rest : List (Watched σ)) :
    sourcesAt place (w :: rest) = (if w.place = place then 1 else 0) + sourcesAt place rest := by
  simp only [sourcesAt, List.countP_cons, beq_iff_eq]
  omega

namespace Asks

variable {w : Watched σ} {rest : List (Watched σ)}
  {result : Option (List (MergeStream (Watched σ) ρ))}

theorem of_error (log : List Event) (sources : List (Watched σ))
    (streams : List (MergeStream (Watched σ) ρ)) : Asks log sources streams log none :=
  ⟨fun _ => rfl, fun _ => Nat.le_add_right _ _, by rintro _ ⟨⟩⟩

/-- A source whose first record failed is not closed. -/
theorem of_failed (w : Watched σ) (rest : List (Watched σ))
    (streams : List (MergeStream (Watched σ) ρ)) :
    Asks log (w :: rest) streams (log ++ [.failed w.place]) none where
  ended place := by simp [List.count_append]
  once place := by simp [List.count_append]
  made := by rintro _ ⟨⟩

/-- A source that ended was closed. -/
theorem of_ended (h : Asks (log ++ [.ended w.place] ++ [.closed w.place]) rest streams log' result) :
    Asks log (w :: rest) streams log' result := by
  refine ⟨fun place => ?_, fun place => ?_, fun streams' made place => ?_⟩
  · have := h.ended place
    simp only [List.count_append, List.count_singleton, beq_iff_eq, Event.closed.injEq,
      Event.ended.injEq, reduceCtorEq, if_false] at this
    omega
  · have := h.once place
    simp only [List.count_append, List.count_singleton, beq_iff_eq, Event.closed.injEq,
      reduceCtorEq, if_false] at this
    rw [sourcesAt_cons]
    omega
  · have := h.made streams' made place
    rw [settled_append, settled_append, settled_singleton, settled_singleton] at this
    simp only [Event.settles] at this
    rw [sourcesAt_cons]
    omega

/-- A source with a record goes into the heap. -/
theorem of_pushed {t : MergeStream (Watched σ) ρ} (h : Asks log rest (streams ++ [t]) log' result)
    (place : t.source.place = w.place) : Asks log (w :: rest) streams log' result := by
  refine ⟨h.ended, fun p => ?_, fun streams' made p => ?_⟩
  · have := h.once p
    rw [sourcesAt_cons]
    omega
  · have all := h.made streams' made p
    have pushed : streamsAt p (streams ++ [t]) = streamsAt p streams + streamsAt p [t] :=
      List.countP_append
    have none_left : streamsAt p ([] : List (MergeStream (Watched σ) ρ)) = 0 := rfl
    rw [pushed, streamsAt_cons, place, none_left] at all
    rw [sourcesAt_cons]
    omega

end Asks

theorem collect_hears (sources : List (Watched σ)) (index : Nat)
    (heap : Array (MergeStream (Watched σ) ρ)) :
    Hears (collect index sources heap : StateM (S × List Event) _) log fun result log' =>
      Asks log sources heap.toList log' (result.toOption.map Array.toList) := by
  induction sources generalizing index heap log with
  | nil =>
    refine .of_pure ⟨fun _ => rfl, fun _ => Nat.le_refl _, fun streams' made place => ?_⟩
    obtain rfl := Option.some.inj made
    rfl
  | cons w rest ih =>
    refine (next_hears w).seq ?_
    rintro ⟨_ | e | first, source⟩ log' ⟨hplace, rfl⟩
    · refine (close_hears source).seq ?_
      rintro ⟨result, source'⟩ _ ⟨-, rfl⟩
      refine (release_hears source').seq ?_
      rintro _ _ rfl
      rw [hplace]
      cases result with
      | ok => exact (ih (index + 1) heap).mono fun _ _ asks => Asks.of_ended asks
      -- the sources behind it and those in the heap are released, which notes nothing
      | error e =>
        refine (releaseAll_hears rest).seq ?_
        rintro _ _ rfl
        refine (releaseAll_hears _).seq ?_
        rintro _ _ rfl
        exact .of_pure (.of_ended (.of_error _ _ _))
    · refine (release_hears source).seq ?_
      rintro _ _ rfl
      refine (releaseAll_hears rest).seq ?_
      rintro _ _ rfl
      refine (releaseAll_hears _).seq ?_
      rintro _ _ rfl
      exact .of_pure (.of_failed w rest _)
    · refine (ih (index + 1) (heap.push ⟨index, first, source⟩)).mono fun _ _ asks => ?_
      rw [Event.heard, List.append_nil, Array.toList_push] at asks
      exact .of_pushed asks hplace

theorem ofSources_hears (sources : List (Watched σ)) (limit : UInt64) (order : Comparator ρ)
    (verify : Bool) :
    Hears (ofSources sources limit order verify : StateM (S × List Event) _) log fun result log' =>
      Asks log sources ([] : List (MergeStream (Watched σ) ρ)) log'
        (result.toOption.map (·.heap.toList)) := by
  refine (collect_hears sources 0 #[]).seq fun result log' asks => ?_
  cases result with
  | error e => exact .of_pure asks
  | ok streams =>
    have perm := arrange_run order verify streams
    dsimp only
    rcases harrange : (arrange order verify streams).runFresh with ⟨heap, _ | violation⟩ <;>
      rw [harrange] at perm
    · refine .of_pure ⟨asks.ended, asks.once, fun streams' made place => ?_⟩
      obtain rfl := Option.some.inj made
      rw [show streamsAt place heap.toList = streamsAt place streams.toList from perm.countP_eq _]
      exact asks.made _ rfl place
    · refine (releaseAll_hears _).seq ?_
      rintro _ _ rfl
      exact .of_pure ⟨asks.ended, asks.once, by rintro _ ⟨⟩⟩

theorem sourcesAt_watch_of_lt (sources : List σ) {first i : Nat} (hi : i < first) :
    sourcesAt i (watch first sources) = 0 := by
  induction sources generalizing first with
  | nil => rfl
  | cons w rest ih =>
    rw [watch, sourcesAt_cons, ih (by omega), if_neg (by dsimp only; omega)]

theorem sourcesAt_watch (sources : List σ) (first i : Nat) (hi : i < sources.length) :
    sourcesAt (first + i) (watch first sources) = 1 := by
  induction sources generalizing first i with
  | nil => cases hi
  | cons w rest ih =>
    rw [watch, sourcesAt_cons]
    cases i with
    | zero =>
      have others : sourcesAt first (watch (first + 1) rest) = 0 := sourcesAt_watch_of_lt rest (by omega)
      rw [Nat.add_zero, others, if_pos rfl]
    | succ i =>
      rw [if_neg (by dsimp only; omega), Nat.zero_add, show first + (i + 1) = first + 1 + i by omega]
      exact ih (first + 1) i (Nat.lt_of_succ_lt_succ hi)

theorem lifetime_hears (sources : List (Watched σ)) (limit : UInt64) (order : Comparator ρ)
    (verify : Bool) (requests : List Request) :
    Hears (lifetime sources limit order verify requests : StateM (S × List Event) _) []
      fun result log => match result with
        | .ok _ => ∀ place,
          log.count (.closed place) + log.count (.failed place) = sourcesAt place sources
        | .error _ => ∀ place, log.count (.closed place) = log.count (.ended place) ∧
            log.count (.closed place) ≤ sourcesAt place sources := by
  refine (ofSources_hears sources limit order verify).seq fun result log asks => ?_
  cases result with
  | error e =>
    refine .of_pure fun place => ⟨?_, ?_⟩
    · have := asks.ended place
      simpa using this
    · have := asks.once place
      simpa using this
  | ok q =>
    refine (answerAll_hears requests q).seq fun p log₁ answered => ?_
    refine (release_merge_hears p.2).seq fun _ log₂ released => ?_
    refine .of_pure fun place => ?_
    have made := asks.made _ rfl place
    have all := (answered.trans released) place
    simp [settled, streamsAt] at made all
    show log₂.count _ + log₂.count _ = _
    omega

/-! ## Once, unless it failed -/

/-- A merge that was made closes every source once, except that it closes none that failed; a merge
    that could not be made closed the sources that had ended before that, and no other. -/
theorem closes_unless_failed (sources : List σ) (limit : UInt64) (order : Comparator ρ)
    (verify : Bool) (requests : List Request) (s : S) (i : Fin sources.length) :
    match (lifetime (watch 0 sources) limit order verify requests :
      StateM (S × List Event) _).run (s, []) with
    | (.ok _, _, log) => log.count (.closed i) + log.count (.failed i) = 1
    | (.error _, _, log) => log.count (.closed i) = log.count (.ended i) ∧
        log.count (.closed i) ≤ 1 := by
  have noted := lifetime_hears (watch 0 sources) limit order verify requests s
  have one := sourcesAt_watch sources 0 i i.isLt
  rw [Nat.zero_add] at one
  rcases hrun : (lifetime (watch 0 sources) limit order verify requests :
    StateM (S × List Event) _).run (s, []) with ⟨_ | _, _, log⟩ <;> rw [hrun] at noted
  · exact one ▸ noted i
  · exact one ▸ noted i

end Watching

/-- One record in memory, and a run whose extent is upside down. -/
def oneUnreadable : List (InMemory (Int32 × Unit) ⊕ RunReader (Int32 × Unit)) :=
  [.inl ⟨[(1, ())]⟩, .inr (.ofExtent ⟨0⟩ ⟨"runs"⟩ ⟨5, 3, 0⟩ none none)]

/-- No source is closed if the first record of one of them cannot be read. -/
theorem closes_none_of_unreadable :
    ((lifetime (watch 0 oneUnreadable) 0 (fun a b => compare a.1 b.1) true [] :
      StateM (Store × List Event) _).run ({}, [])).2.2 = [.failed 1] := by
  decide +kernel

end Merge
end ExternalSort
