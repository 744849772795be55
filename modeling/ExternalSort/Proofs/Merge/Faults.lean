/-
  ExternalSort.Proofs.Merge.Faults

  Where the fault of a source shows in a merge.

  A source may tell an error behind its records, or when it is closed there. A
  merge asks a source for another record before it gives out the one it has, so
  the last record of such a source never comes out: the error comes in its place.
  Of several faults the first in the merged order counts. To say which record
  that is, the last record of each source carries the fault behind it.

  After an error, whatever caused it, a merge gives out no record any more.
-/

import ExternalSort.Proofs.Merge.Draining

namespace ExternalSort

/-! ## Sources that may fail behind their records -/

/-- Sources that give out the records `Gives` says. Behind them a source ends, and closing it finds
    nothing wrong, or it tells its fault: instead of its end, or when it is closed there. -/
structure SortedSource.Faltering {S σ ρ : Type} [SortedSource (StateM S) σ ρ]
    (Gives : Option SortError → σ → List ρ → Prop) (Calm : S → Prop) : Prop where
  record : ∀ {fault source x xs s}, Gives fault source (x :: xs) → Calm s →
    ∃ source' s', (next source : StateM S _).run s = ((some (.ok x), source'), s') ∧
      Gives fault source' xs ∧ Calm s'
  finish : ∀ {source s}, Gives none source [] → Calm s →
    ∃ source₁ s₁ source₂ s₂, (next source : StateM S _).run s = ((none, source₁), s₁) ∧
      (close source₁ : StateM S _).run s₁ = ((.ok (), source₂), s₂) ∧
      Calm ((release source₂ : StateM S Unit).run s₂).2
  fault : ∀ {e source s}, Gives (some e) source [] → Calm s →
    (∃ source' s', (next source : StateM S _).run s = ((some (.error e), source'), s')) ∨
    ∃ source₁ s₁ source₂ s₂, (next source : StateM S _).run s = ((none, source₁), s₁) ∧
      (close source₁ : StateM S _).run s₁ = ((.error e, source₂), s₂)

/-- Records in memory, and the fault behind them, which is told by asking for more or, if the source
    is `sealed`, by closing it. -/
structure Script (ρ : Type) where
  records : List ρ
  fault : Option SortError
  sealed : Bool

namespace Script

variable {m : Type → Type} [Monad m] {S ρ : Type}

/-- What asking for a record answers. -/
def step (script : Script ρ) : Step ρ :=
  match script.records with
  | x :: _ => some (.ok x)
  | [] => if script.sealed then none else script.fault.map .error

/-- What closing answers. -/
def verdict (script : Script ρ) : Except SortError Unit :=
  match script.records, script.fault with
  | [], some e => if script.sealed then .error e else .ok ()
  | _, _ => .ok ()

instance : SortedSource m (Script ρ) ρ where
  next script := return (script.step, { script with records := script.records.tail })
  close script := return (script.verdict, script)
  release _ := return ()
  extent? _ := none

theorem faltering (Calm : S → Prop) :
    SortedSource.Faltering (S := S)
      (fun fault (script : Script ρ) xs => script.records = xs ∧ script.fault = fault) Calm where
  record {fault script x xs s} gives calm := by
    obtain ⟨records, rfl⟩ := gives
    refine ⟨{ script with records := xs }, s, ?_, ⟨rfl, rfl⟩, calm⟩
    show ((script.step, { script with records := script.records.tail }), s) = _
    rw [step, records]
    rfl
  finish {script s} gives calm := by
    obtain ⟨records, fault⟩ := gives
    have ended : script.step = none := by
      rw [step, records, fault]
      cases script.sealed <;> rfl
    have clean : ({ script with records := script.records.tail } : Script ρ).verdict = .ok () := by
      rw [verdict, records, fault]
      rfl
    exact ⟨_, s, _, s, congrArg (fun step => ((step, _), s)) ended,
      congrArg (fun result => ((result, _), s)) clean, calm⟩
  fault {e script s} gives calm := by
    obtain ⟨records, fault⟩ := gives
    -- a sealed source ends like any other, and the fault is told by closing it
    cases hsealed : script.sealed with
    | false =>
      have failed : script.step = some (.error e) := by
        rw [step, records, fault, hsealed]
        rfl
      exact .inl ⟨_, s, congrArg (fun step => ((step, _), s)) failed⟩
    | true =>
      have ended : script.step = none := by
        rw [step, records, hsealed]
        rfl
      have broken : ({ script with records := script.records.tail } : Script ρ).verdict =
          .error e := by
        rw [verdict, records, fault, hsealed]
        rfl
      exact .inr ⟨_, s, _, s, congrArg (fun step => ((step, _), s)) ended,
        congrArg (fun result => ((result, _), s)) broken⟩

end Script

namespace Merge

open SortedSource (Faltering)

variable {S σ ρ : Type}

/-! ## After an error -/

/-- An error was told. -/
def Reply.IsError : Reply ρ → Prop
  | .step (some (.error _)) => True
  | .closed (.error _) => True
  | _ => False

/-- Nothing was given out, not even an error. -/
def Reply.IsOver : Reply ρ → Prop
  | .step given => given = none
  | .closed _ => True

/-- After an error, nothing is given out. -/
def Latched (replies : List (Reply ρ)) : Prop :=
  replies.Pairwise fun earlier later => earlier.IsError → later.IsOver

section Latch

variable [SortedSource (StateM S) σ ρ] {q q' q'' : Merge σ ρ} {s s' s'' : S}

theorem answer_next {step : Step ρ} (h : (next q : StateM S _).run s = ((step, q'), s')) :
    (answer q .next : StateM S _).run s = ((.step step, q'), s') :=
  run_bind_of_run h

theorem answerAll_cons {request : Request} {requests : List Request} {reply : Reply ρ}
    {replies : List (Reply ρ)} (h : (answer q request : StateM S _).run s = ((reply, q'), s'))
    (rest : (answerAll requests q' : StateM S _).run s' = ((replies, q''), s'')) :
    (answerAll (request :: requests) q : StateM S _).run s = ((reply :: replies, q''), s'') := by
  rw [answerAll, run_bind_of_run h]
  show (answerAll requests q' >>= _ : StateM S _).run s' = _
  rw [run_bind_of_run rest]
  rfl

/-- Closing a merge ends it, whatever it finds. -/
theorem remaining_of_close {result : Except SortError Unit}
    (h : (close q : StateM S _).run s = ((result, q'), s')) : q'.remaining = 0 := by
  rw [close, closeAll, StateT.run_bind] at h
  cases h
  rfl

theorem answer_error {request : Request} {reply : Reply ρ}
    (h : (answer q request : StateM S _).run s = ((reply, q'), s')) (error : reply.IsError) :
    q'.remaining = 0 := by
  cases request with
  | next =>
    rcases hnext : (next q : StateM S _).run s with ⟨⟨step, q₁⟩, s₁⟩
    rw [answer_next hnext] at h
    cases h
    cases next_run hnext with
    | error spent => exact spent
    | nothing _ | record _ _ _ _ => exact absurd error not_false
  | close =>
    rcases hclose : (close q : StateM S _).run s with ⟨⟨result, q₁⟩, s₁⟩
    rw [answer, run_bind_of_run hclose] at h
    cases h
    exact remaining_of_close hclose

/-- A merge that allows no record gives out nothing, and stays so. -/
theorem answer_over {request : Request} {reply : Reply ρ} (spent : q.remaining = 0)
    (h : (answer q request : StateM S _).run s = ((reply, q'), s')) :
    reply.IsOver ∧ q'.remaining = 0 := by
  cases request with
  | next =>
    have none : (next q : StateM S _).run s = ((none, q), s) :=
      congrArg (StateT.run · s) (next_of_spent (.inl spent))
    rw [answer_next none] at h
    cases h
    exact ⟨rfl, spent⟩
  | close =>
    rcases hclose : (close q : StateM S _).run s with ⟨⟨result, q₁⟩, s₁⟩
    rw [answer, run_bind_of_run hclose] at h
    cases h
    exact ⟨trivial, remaining_of_close hclose⟩

theorem answerAll_over {requests : List Request} {replies : List (Reply ρ)}
    (spent : q.remaining = 0)
    (h : (answerAll requests q : StateM S _).run s = ((replies, q'), s')) :
    ∀ reply ∈ replies, reply.IsOver := by
  -- by induction on the requests: a spent merge stays spent
  induction requests generalizing q s replies with
  | nil =>
    cases h
    exact fun reply hreply => absurd hreply List.not_mem_nil
  | cons request rest ih =>
    rcases hanswer : (answer q request : StateM S _).run s with ⟨⟨reply, q₁⟩, s₁⟩
    rcases hrest : (answerAll rest q₁ : StateM S _).run s₁ with ⟨⟨others, q₂⟩, s₂⟩
    rw [answerAll_cons hanswer hrest] at h
    cases h
    obtain ⟨silent, spent₁⟩ := answer_over spent hanswer
    exact List.forall_mem_cons.mpr ⟨silent, ih spent₁ hrest⟩

/-- Whatever a merge is asked for, and whatever went wrong, nothing comes out after an error. -/
theorem answerAll_latched {requests : List Request} {replies : List (Reply ρ)}
    (h : (answerAll requests q : StateM S _).run s = ((replies, q'), s')) : Latched replies := by
  -- by induction on the requests: an error spends the merge, and what is left is silent
  induction requests generalizing q s replies with
  | nil =>
    cases h
    exact List.Pairwise.nil
  | cons request rest ih =>
    rcases hanswer : (answer q request : StateM S _).run s with ⟨⟨reply, q₁⟩, s₁⟩
    rcases hrest : (answerAll rest q₁ : StateM S _).run s₁ with ⟨⟨others, q₂⟩, s₂⟩
    rw [answerAll_cons hanswer hrest] at h
    cases h
    refine List.pairwise_cons.mpr ⟨fun later hlater error => ?_, ih hrest⟩
    exact answerAll_over (answer_error hanswer error) hrest later hlater

end Latch

/-! ## Records with the faults behind them -/

/-- The records of a source, of which the last carries the fault behind it. -/
def marked (fault : Option SortError) : List ρ → List (ρ × Option SortError)
  | [] => []
  | [x] => [(x, fault)]
  | x :: y :: rest => (x, none) :: marked fault (y :: rest)

/-- The order of the records, whatever they carry. -/
def onRecord (order : Comparator ρ) : Comparator (ρ × Option SortError) :=
  fun a b => order a.1 b.1

/-- What sources have to give as a merge has it in the end, each source given by its records and the
    fault behind them. -/
def markedMerge (order : Comparator ρ) (sources : List (List ρ × Option SortError)) :
    List (ρ × Option SortError) :=
  stableSort (onRecord order) (sources.map fun p => marked p.2 p.1).flatten

/-- The records in front of the first one that carries a fault, and this fault. -/
def untilFault : List (ρ × Option SortError) → List ρ × Option SortError
  | [] => ([], none)
  | (x, none) :: rest => (x :: (untilFault rest).1, (untilFault rest).2)
  | (_, some e) :: _ => ([], some e)

/-- The fault that the first of some records carries, if only the last one carries it. -/
def frontMark (fault : Option SortError) (rest : List ρ) : Option SortError :=
  if rest.isEmpty then fault else none

theorem marked_cons (fault : Option SortError) (x : ρ) (rest : List ρ) :
    marked fault (x :: rest) = (x, frontMark fault rest) :: marked fault rest := by
  cases rest <;> rfl

theorem map_fst_marked (fault : Option SortError) (xs : List ρ) :
    (marked fault xs).map (·.1) = xs := by
  induction xs with
  | nil => rfl
  | cons x rest ih => rw [marked_cons, List.map_cons, ih]

theorem mem_marked {fault : SortError} {xs : List ρ} (some_ : xs ≠ []) :
    ∃ x, (x, some fault) ∈ marked (some fault) xs := by
  induction xs with
  | nil => exact absurd rfl some_
  | cons x rest ih =>
    rw [marked_cons]
    cases rest with
    | nil => exact ⟨x, List.mem_cons_self⟩
    | cons y rest =>
      obtain ⟨z, hz⟩ := ih (by simp)
      exact ⟨z, List.mem_cons_of_mem _ hz⟩

theorem exists_fault {xs : List (ρ × Option SortError)} {x : ρ} {e : SortError}
    (h : (x, some e) ∈ xs) : ∃ first, (untilFault xs).2 = some first := by
  induction xs with
  | nil => exact absurd h List.not_mem_nil
  | cons y rest ih =>
    obtain ⟨y, _ | first⟩ := y
    · rcases List.mem_cons.mp h with same | h
      · cases same
      · exact ih h
    · exact ⟨first, rfl⟩

section Valid

variable {order : Comparator ρ} [Std.TransCmp order]

instance : Std.TransCmp (onRecord order) where
  eq_swap {a b} := (Std.OrientedCmp.eq_swap : order a.1 b.1 = _)
  isLE_trans {a b c} := (Std.TransCmp.isLE_trans : (order a.1 b.1).isLE → (order b.1 c.1).isLE → _)

omit [Std.TransCmp order] in
theorem inOrder_marked {fault : Option SortError} {xs : List ρ} (h : InOrder order xs) :
    InOrder (onRecord order) (marked fault xs) := by
  rw [← map_fst_marked fault xs] at h
  exact List.pairwise_map.mp h

/-- Without the faults, what the sources have to give is merged as ever. -/
theorem map_fst_markedMerge (sources : List (List ρ × Option SortError)) :
    (markedMerge order sources).map (·.1) = stableSort order (sources.map (·.1)).flatten := by
  have records : (sources.map fun p => marked p.2 p.1).flatten.map (·.1) =
      (sources.map (·.1)).flatten := by
    rw [List.map_flatten, List.map_map]
    exact congrArg List.flatten (List.map_congr_left fun p _ => map_fst_marked p.2 p.1)
  rw [← records]
  apply eq_stableSort
  · have inOrder : InOrder (onRecord order) (markedMerge order sources) := inOrder_stableSort _
    exact List.pairwise_map.mpr inOrder
  · intro x
    have ties : Ties (onRecord order) (markedMerge order sources) _ := ties_stableSort _
    have same := ties (x, none)
    rw [List.filter_map, List.filter_map]
    exact congrArg (List.map (·.1)) same

end Valid

/-! ## Streams of sources that may fail -/

/-- The streams stand for the lists that are not empty, and each source fails behind its records as
    the list says. -/
structure Falters (Y : Option SortError → σ → List ρ → Prop) (streams : List (MergeStream σ ρ))
    (lists : List (List ρ × Option SortError)) : Prop where
  represents : Represents (fun _ _ => True) streams (lists.map (·.1))
  ends : ∀ t ∈ streams, ∀ rest fault, lists[t.index]? = some (t.current :: rest, fault) →
    Y fault t.source rest

namespace Falters

variable {Y : Option SortError → σ → List ρ → Prop} {t : MergeStream σ ρ}
  {streams streams' : List (MergeStream σ ρ)} {lists : List (List ρ × Option SortError)}
  {rest : List ρ} {fault : Option SortError}

theorem perm (h : Falters Y streams lists) (p : streams'.Perm streams) :
    Falters Y streams' lists where
  represents := h.represents.perm p
  ends t ht := h.ends t (p.mem_iff.mp ht)

/-- The list that a stream stands for. -/
theorem front (h : Falters Y (t :: streams) lists) :
    ∃ rest fault, lists[t.index]? = some (t.current :: rest, fault) ∧ Y fault t.source rest := by
  obtain ⟨rest, hlist, -⟩ := h.represents.each t List.mem_cons_self
  rw [List.getElem?_map, Option.map_eq_some_iff] at hlist
  obtain ⟨⟨xs, fault⟩, hlist, rfl⟩ := hlist
  exact ⟨rest, fault, hlist, h.ends t List.mem_cons_self rest fault hlist⟩

/-- A stream gave out its last record. -/
theorem finish (h : Falters Y (t :: streams) lists) (fault : Option SortError) :
    Falters Y streams (lists.set t.index ([], fault)) where
  represents := by
    rw [List.map_set]
    exact h.represents.finish
  ends u hu rest fault' hlist := by
    have other : t.index ≠ u.index := (h.represents.ne_index hu).symm
    rw [List.getElem?_set_ne other] at hlist
    exact h.ends u (List.mem_cons_of_mem _ hu) rest fault' hlist

/-- A stream gave out a record and has another one. -/
theorem advance (h : Falters Y (t :: streams) lists) {x : ρ} {source : σ}
    (gives : Y fault source rest) :
    Falters Y ({ t with current := x, source } :: streams)
      (lists.set t.index (x :: rest, fault)) where
  represents := by
    rw [List.map_set]
    exact h.represents.advance trivial
  ends u hu rest' fault' hlist := by
    -- only the list of this stream has changed
    rcases List.mem_cons.mp hu with rfl | hu
    · obtain ⟨_, _, here, -⟩ := h.front
      have inside := (List.getElem?_eq_some_iff.mp here).1
      have same : some (x :: rest, fault) = some (x :: rest', fault') :=
        (List.getElem?_set_self inside).symm.trans hlist
      cases same
      exact gives
    · have other : t.index ≠ u.index := (h.represents.ne_index hu).symm
      rw [List.getElem?_set_ne other] at hlist
      exact h.ends u (List.mem_cons_of_mem _ hu) rest' fault' hlist

/-- One more source that has a record. -/
theorem concat (h : Falters Y streams lists) {x : ρ} {source : σ} (gives : Y fault source rest) :
    Falters Y (streams ++ [⟨lists.length, x, source⟩]) (lists ++ [(x :: rest, fault)]) where
  represents := by
    have one := @Represents.concat _ _ _ _ _ h.represents x rest source trivial
    rwa [List.length_map, ← List.map_singleton (f := Prod.fst) (a := (x :: rest, fault)),
      ← List.map_append] at one
  ends u hu rest' fault' hlist := by
    rcases List.mem_append.mp hu with hu | hu
    · obtain ⟨_, inside, -⟩ := h.represents.each u hu
      have bound := (List.getElem?_eq_some_iff.mp inside).1
      rw [List.length_map] at bound
      rw [List.getElem?_append_left bound] at hlist
      exact h.ends u hu rest' fault' hlist
    · obtain rfl := List.mem_singleton.mp hu
      rw [List.getElem?_concat_length] at hlist
      cases hlist
      exact gives

/-- One more source, without a record. -/
theorem concat_nil (h : Falters Y streams lists) (fault : Option SortError) :
    Falters Y streams (lists ++ [([], fault)]) where
  represents := by
    rw [List.map_append]
    exact h.represents.concat_nil
  ends u hu rest' fault' hlist := by
    obtain ⟨_, inside, -⟩ := h.represents.each u hu
    have bound := (List.getElem?_eq_some_iff.mp inside).1
    rw [List.length_map] at bound
    rw [List.getElem?_append_left bound] at hlist
    exact h.ends u hu rest' fault' hlist

/-- A stream whose record carries what its list says. -/
def carrying (lists : List (List ρ × Option SortError)) (t : MergeStream σ ρ) :
    MergeStream σ (ρ × Option SortError) where
  index := t.index
  current := (t.current, (lists[t.index]?).elim none fun p => frontMark p.2 p.1.tail)
  source := t.source

theorem represents_carrying (h : Falters Y streams lists) :
    Represents (fun _ _ => True) (streams.map (carrying lists))
      (lists.map fun p => marked p.2 p.1) where
  distinct := by
    rw [List.map_map]
    exact h.represents.distinct
  each u hu := by
    obtain ⟨t, ht, rfl⟩ := List.mem_map.mp hu
    obtain ⟨rest, hlist, -⟩ := h.represents.each t ht
    rw [List.getElem?_map, Option.map_eq_some_iff] at hlist
    obtain ⟨⟨xs, fault⟩, hlist, rfl⟩ := hlist
    refine ⟨marked fault rest, ?_, trivial⟩
    rw [List.getElem?_map, carrying, hlist, Option.map_some, marked_cons]
    rfl
  whole i ys hi hys := by
    rw [List.getElem?_map, Option.map_eq_some_iff] at hi
    obtain ⟨⟨xs, fault⟩, hlist, rfl⟩ := hi
    have some_ : xs ≠ [] := by
      rintro rfl
      exact hys rfl
    have here : (lists.map (·.1))[i]? = some xs := by rw [List.getElem?_map, hlist]; rfl
    obtain ⟨t, ht, rfl⟩ := h.represents.whole i xs here some_
    exact ⟨carrying lists t, List.mem_map_of_mem ht, rfl⟩

/-- The stream that comes before all the others has the first record of all, with what it carries. -/
theorem markedMerge_eq {order : Comparator ρ} [Std.TransCmp order]
    (h : Falters Y (t :: streams) lists) (inOrder : ∀ p ∈ lists, InOrder order p.1)
    (first : ∀ u ∈ streams, (streamOrder order t u).isLE)
    (hlist : lists[t.index]? = some (t.current :: rest, fault)) :
    markedMerge order lists =
      (t.current, frontMark fault rest) ::
        markedMerge order (lists.set t.index (rest, fault)) := by
  have carried : carrying lists t = ⟨t.index, (t.current, frontMark fault rest), t.source⟩ := by
    rw [carrying, hlist]
    rfl
  have represents := h.represents_carrying
  rw [List.map_cons, carried] at represents
  rw [markedMerge, markedMerge, List.map_set]
  -- marks do not count in the order, so the first of the marked records is found as ever
  refine @Represents.stableSort_eq _ _ (onRecord order) _ _ _ _ _ represents ?_ ?_ _ ?_
  · intro xs hxs
    obtain ⟨p, hp, rfl⟩ := List.mem_map.mp hxs
    exact inOrder_marked (inOrder p hp)
  · intro u hu
    obtain ⟨v, hv, rfl⟩ := List.mem_map.mp hu
    exact first v hv
  · rw [List.getElem?_map, hlist, Option.map_some, marked_cons]

end Falters

/-! ## Giving out records -/

section Sources

variable [SortedSource (StateM S) σ ρ] {Y : Option SortError → σ → List ρ → Prop}
  {Calm : S → Prop} {order : Comparator ρ} {q q' : Merge σ ρ} {s s' : S}
  {lists behind : List (List ρ × Option SortError)}

/-- A merge of sources that may fail behind their records. -/
structure Faulting (Y : Option SortError → σ → List ρ → Prop) (order : Comparator ρ)
    (q : Merge σ ρ) (lists : List (List ρ × Option SortError)) : Prop where
  sameOrder : q.order = order
  heap : IsHeap order q.heap
  falters : Falters Y q.heap.toList lists
  inOrder : ∀ p ∈ lists, InOrder order p.1

/-- The stream that leaves the heap has the first record, and the others are left. -/
structure Popped (Y : Option SortError → σ → List ρ → Prop) (order : Comparator ρ)
    (q : Merge σ ρ) (lists : List (List ρ × Option SortError)) (t : MergeStream σ ρ)
    (streams : Array (MergeStream σ ρ)) (rest : List ρ) (fault : Option SortError) : Prop where
  takes : Takes q t streams none
  heap : IsHeap order streams
  falters : Falters Y (t :: streams.toList) lists
  here : lists[t.index]? = some (t.current :: rest, fault)
  gives : Y fault t.source rest
  inOrder : ∀ p ∈ lists.set t.index (rest, fault), InOrder order p.1
  merged : markedMerge order lists =
    (t.current, frontMark fault rest) :: markedMerge order (lists.set t.index (rest, fault))

omit [SortedSource (StateM S) σ ρ] in
/-- While a record is left that may come out, a stream leaves the heap. -/
theorem Faulting.pop [Std.TransCmp order] (h : Faulting Y order q lists) (more : q.remaining ≠ 0)
    (some_ : markedMerge order lists ≠ []) :
    ∃ t streams rest fault, Popped Y order q lists t streams rest fault := by
  obtain ⟨rfl, heap, falters, inOrder⟩ := h
  have nonempty : q.heap ≠ #[] := by
    intro empty
    have none := falters.represents_carrying
    rw [empty] at none
    apply some_
    rw [markedMerge, none.flatten_eq_nil, stableSort_of_inOrder List.Pairwise.nil]
  obtain ⟨t, streams, taken, perm, isHeap, first⟩ :=
    takeTop_eq (q := { q with remaining := q.remaining - 1 }) heap nonempty
  have falters' := falters.perm perm.symm
  obtain ⟨rest, fault, here, gives⟩ := falters'.front
  have merged := falters'.markedMerge_eq inOrder first here
  have takes : Takes q t streams none := .of_pure more taken perm
  refine ⟨t, streams, rest, fault, takes, isHeap, falters', here, gives, ?_, merged⟩
  intro p hp
  rcases List.mem_or_eq_of_mem_set hp with hp | rfl
  · exact inOrder p hp
  · exact (inOrder _ (List.mem_of_getElem? here)).of_cons

/-- While more may come out, giving out a record closes nothing. -/
theorem deliver_of_room (left : q.remaining ≠ 0) (x : ρ) :
    (deliver q x none : StateM S _) = pure (some (.ok x), q) := by
  rw [deliver, if_neg left]

variable [Std.TransCmp order]

/-- A record that carries no fault comes out, and its stream goes on or ends. -/
theorem next_of_sound (faltering : Faltering Y Calm) (h : Faulting Y order q lists)
    (more : 1 < q.remaining) {x : ρ} {after : List (ρ × Option SortError)}
    (first : markedMerge order lists = (x, none) :: after) (calm : Calm s) :
    ∃ q' s' lists', (next q : StateM S _).run s = ((some (.ok x), q'), s') ∧
      Faulting Y order q' lists' ∧ markedMerge order lists' = after ∧
      q'.remaining = q.remaining - 1 ∧ Calm s' := by
  obtain ⟨t, streams, rest, fault, popped⟩ := h.pop (by omega) (by rw [first]; simp)
  have same := first.symm.trans popped.merged
  rw [List.cons.injEq, Prod.mk.injEq] at same
  obtain ⟨⟨rfl, sound⟩, rfl⟩ := same
  obtain rfl := h.sameOrder
  have left : q.remaining - 1 ≠ 0 := by omega
  cases rest with
  | nil =>
    -- the source ends here, so its fault would be the one of this record
    obtain rfl : none = fault := sound
    obtain ⟨source₁, s₁, source₂, s₂, hnext, hclose, calm'⟩ := faltering.finish popped.gives calm
    have faulting : Faulting Y q.order (q.without streams) (lists.set t.index ([], none)) :=
      ⟨rfl, popped.heap, popped.falters.finish none, popped.inOrder⟩
    refine ⟨_, _, _, ?_, faulting, rfl, rfl, calm'⟩
    rw [popped.takes.run_of_end hnext hclose]
    exact congrArg (StateT.run · _) (deliver_of_room left t.current)
  | cons y rest =>
    obtain ⟨source, s₁, hnext, gives, calm'⟩ := faltering.record popped.gives calm
    obtain ⟨streams', put, perm, isHeap⟩ :=
      putBack_eq (q := q.without streams) popped.heap { t with current := y, source }
    have faulting : Faulting Y q.order (q.without streams') (lists.set t.index (y :: rest, fault)) :=
      ⟨rfl, isHeap, (popped.falters.advance gives).perm perm, popped.inOrder⟩
    refine ⟨_, _, _, ?_, faulting, rfl, rfl, calm'⟩
    have back := congrArg (StateT.run · (none : Option Violation)) put
    rw [popped.takes.run_of_record hnext back]
    exact congrArg (StateT.run · _) (deliver_of_room left t.current)

/-- A record that carries a fault is lost, and the fault comes in its place. -/
theorem next_of_fault (faltering : Faltering Y Calm) (h : Faulting Y order q lists)
    (more : q.remaining ≠ 0) {x : ρ} {e : SortError} {after : List (ρ × Option SortError)}
    (first : markedMerge order lists = (x, some e) :: after) (calm : Calm s) :
    ∃ q' s', (next q : StateM S _).run s = ((some (.error e), q'), s') ∧ q'.remaining = 0 := by
  obtain ⟨t, streams, rest, fault, popped⟩ := h.pop more (by rw [first]; simp)
  have same := first.symm.trans popped.merged
  rw [List.cons.injEq, Prod.mk.injEq] at same
  obtain ⟨⟨-, carried⟩, -⟩ := same
  cases rest with
  | cons y rest => exact absurd carried (by simp [frontMark])
  | nil =>
    obtain rfl : some e = fault := carried
    -- the source fails at once, or it ends and closing it fails
    rcases faltering.fault popped.gives calm with
      ⟨source, s₁, hnext⟩ | ⟨source₁, s₁, source₂, s₂, hnext, hclose⟩
    · exact ⟨_, _, popped.takes.run_of_error hnext, rfl⟩
    · exact ⟨_, _, popped.takes.run_of_close_error hnext hclose, rfl⟩

/-! ## Making a merge -/

omit [Std.TransCmp order] in
/-- If every source has a record or no fault, each source with a record gets a stream. -/
theorem collect_faltering (faltering : Faltering Y Calm)
    {sources : List (σ × List ρ × Option SortError)} (gives : ∀ p ∈ sources, Y p.2.2 p.1 p.2.1)
    (begun : ∀ p ∈ sources, p.2.2.isSome → p.2.1 ≠ []) {heap : Array (MergeStream σ ρ)}
    (falters : Falters Y heap.toList lists) (calm : Calm s) :
    ∃ heap' s', (collect lists.length (sources.map (·.1)) heap : StateM S _).run s =
        (.ok heap', s') ∧
      Falters Y heap'.toList (lists ++ sources.map (·.2)) ∧ Calm s' := by
  induction sources generalizing lists heap s with
  | nil =>
    rw [List.map_nil, List.map_nil, List.append_nil]
    exact ⟨heap, s, rfl, falters, calm⟩
  | cons p sources ih =>
    obtain ⟨first, others⟩ := List.forall_mem_cons.mp gives
    obtain ⟨started, othersBegun⟩ := List.forall_mem_cons.mp begun
    obtain ⟨source, xs, fault⟩ := p
    rw [List.map_cons, List.map_cons]
    cases xs with
    | nil =>
      -- a source without records has no fault here, so it is closed and left out
      obtain rfl : fault = none := by
        cases fault with
        | none => rfl
        | some e => exact absurd rfl (started rfl)
      obtain ⟨source₁, s₁, source₂, s₂, hnext, hclose, calm₁⟩ := faltering.finish first calm
      obtain ⟨heap', s', hcollect, falters', calm'⟩ :=
        ih others othersBegun (falters.concat_nil none) calm₁
      rw [List.length_append, List.length_singleton] at hcollect
      rw [← List.append_cons] at falters'
      exact ⟨heap', s', (collect_of_end hnext hclose).trans hcollect, falters', calm'⟩
    | cons x xs =>
      obtain ⟨source₁, s₁, hnext, gives₁, calm₁⟩ := faltering.record first calm
      have falters₁ := falters.concat (x := x) gives₁
      rw [← Array.toList_push] at falters₁
      obtain ⟨heap', s', hcollect, falters', calm'⟩ := ih others othersBegun falters₁ calm₁
      rw [List.length_append, List.length_singleton] at hcollect
      rw [← List.append_cons] at falters'
      exact ⟨heap', s', (collect_of_record hnext).trans hcollect, falters', calm'⟩

omit [Std.TransCmp order] in
/-- A source that fails before it gave a record keeps a merge from being made. -/
theorem collect_fails (faltering : Faltering Y Calm)
    {sources : List (σ × List ρ × Option SortError)} (gives : ∀ p ∈ sources, Y p.2.2 p.1 p.2.1)
    (unbegun : ∃ p ∈ sources, p.2.1 = [] ∧ p.2.2.isSome) (index : Nat)
    (heap : Array (MergeStream σ ρ)) (calm : Calm s) :
    ∃ e s', (collect index (sources.map (·.1)) heap : StateM S _).run s = (.error e, s') := by
  induction sources generalizing index heap s with
  | nil =>
    obtain ⟨p, hp, -⟩ := unbegun
    exact absurd hp List.not_mem_nil
  | cons p sources ih =>
    obtain ⟨first, others⟩ := List.forall_mem_cons.mp gives
    obtain ⟨p', hp', none, isFault⟩ := unbegun
    have here := List.mem_cons.mp hp'
    obtain ⟨source, xs, fault⟩ := p
    rw [List.map_cons]
    cases xs with
    -- a source that has a record is not the one, so a later one is
    | cons x xs =>
      have later : p' ∈ sources := here.resolve_left fun same => by
        rw [same] at none
        exact List.cons_ne_nil _ _ none
      obtain ⟨source₁, s₁, hnext, -, calm₁⟩ := faltering.record first calm
      rw [collect_of_record hnext]
      exact ih others ⟨p', later, none, isFault⟩ (index + 1) _ calm₁
    | nil =>
      cases fault with
      | none =>
        have later : p' ∈ sources := here.resolve_left fun same => by
          rw [same] at isFault
          exact Bool.noConfusion isFault
        obtain ⟨source₁, s₁, source₂, s₂, hnext, hclose, calm₁⟩ := faltering.finish first calm
        rw [collect_of_end hnext hclose]
        exact ih others ⟨p', later, none, isFault⟩ (index + 1) heap calm₁
      | some e =>
        rcases faltering.fault first calm with
          ⟨source₁, s₁, hnext⟩ | ⟨source₁, s₁, source₂, s₂, hnext, hclose⟩
        · exact ⟨e, collect_of_error hnext⟩
        · exact ⟨e, collect_of_close_error hnext hclose⟩

/-! ## The first fault in the merged order -/

/-- The records in front of the first one with a fault come out, and then this fault. -/
theorem answerAll_until (faltering : Faltering Y Calm) (h : Faulting Y order q lists)
    {merged : List (ρ × Option SortError)} (hmerged : markedMerge order lists = merged)
    {e : SortError} (fault : (untilFault merged).2 = some e)
    (few : (untilFault merged).1.length < q.remaining) (calm : Calm s) (requests : List Request) :
    ∃ replies q' s', (answerAll
        (List.replicate (untilFault merged).1.length .next ++ .next :: requests) q :
          StateM S _).run s =
        (((untilFault merged).1.map (fun x => .step (some (.ok x))) ++
          .step (some (.error e)) :: replies, q'), s') ∧
      ∀ reply ∈ replies, reply.IsOver := by
  -- by induction on what the merge has in the end: each record without a fault is one answer
  induction merged generalizing q s lists with
  | nil => cases fault
  | cons x after ih =>
    obtain ⟨x, _ | first⟩ := x
    · have few : (untilFault after).1.length + 1 < q.remaining := few
      obtain ⟨q₁, s₁, lists₁, hnext, faulting, hafter, remaining, calm₁⟩ :=
        next_of_sound faltering h (by omega) hmerged calm
      obtain ⟨replies, q₂, s₂, hrest, silent⟩ :=
        ih faulting hafter fault (by omega) calm₁
      exact ⟨replies, q₂, s₂, answerAll_cons (answer_next hnext) hrest, silent⟩
    · obtain rfl : first = e := Option.some.inj fault
      obtain ⟨q₁, s₁, hnext, spent⟩ :=
        next_of_fault faltering h (Nat.pos_iff_ne_zero.mp few) hmerged calm
      rcases hrest : (answerAll requests q₁ : StateM S _).run s₁ with ⟨⟨replies, q₂⟩, s₂⟩
      exact ⟨replies, q₂, s₂, answerAll_cons (answer_next hnext) hrest, answerAll_over spent hrest⟩

/-- Without a fault before the first record of a source, a merge is made; with one it is not. A merge
    gives out what it would give out without faults, up to the first record that is the last one of
    a source with a fault. In its place the fault comes out, and then nothing any more, whatever the
    merge is asked for. A limit does not show if it is not reached by then. In any case nothing
    comes out after an error. -/
theorem fails_in_place (faltering : Faltering Y Calm)
    {sources : List (σ × List ρ × Option SortError)} (gives : ∀ p ∈ sources, Y p.2.2 p.1 p.2.1)
    (sorted : ∀ p ∈ sources, InOrder order p.2.1) (limit : UInt64) (verify : Bool) (calm : Calm s) :
    ((∃ p ∈ sources, p.2.1 = [] ∧ p.2.2.isSome) → ∃ e s',
      (ofSources (sources.map (·.1)) limit order verify : StateM S _).run s = (.error e, s')) ∧
    ((∃ p ∈ sources, p.2.2.isSome) → (∀ p ∈ sources, p.2.2.isSome → p.2.1 ≠ []) →
      let merged := markedMerge order (sources.map (·.2))
      merged.map (·.1) = stableSort order (sources.map (·.2.1)).flatten ∧
      ∃ q s' e,
        (ofSources (sources.map (·.1)) limit order verify : StateM S _).run s = (.ok q, s') ∧
        (untilFault merged).2 = some e ∧
        ((untilFault merged).1.length < most limit → ∀ requests, ∃ replies q' s'',
          (answerAll (List.replicate (untilFault merged).1.length .next ++ .next :: requests) q :
            StateM S _).run s' =
            (((untilFault merged).1.map (fun x => .step (some (.ok x))) ++
              .step (some (.error e)) :: replies, q'), s'') ∧
          ∀ reply ∈ replies, reply.IsOver)) ∧
    ∀ (q q' : Merge σ ρ) (s s' : S) requests replies,
      (answerAll requests q : StateM S _).run s = ((replies, q'), s') → Latched replies := by
  refine ⟨fun unbegun => ?_, fun faulty begun => ⟨?_, ?_⟩, fun q q' s s' requests replies => ?_⟩
  · obtain ⟨e, s', hcollect⟩ := collect_fails faltering gives unbegun 0 #[] calm
    refine ⟨e, s', ?_⟩
    rw [ofSources, run_bind_of_run hcollect]
    rfl
  · rw [map_fst_markedMerge, List.map_map]
    rfl
  · have empty : Falters Y (#[] : Array (MergeStream σ ρ)).toList [] :=
      ⟨⟨List.nodup_nil, (by simp), (by simp)⟩, (by simp)⟩
    obtain ⟨heap, s', hcollect, falters, calm'⟩ :=
      collect_faltering faltering gives begun empty calm
    obtain ⟨heap', harrange, perm, isHeap⟩ := arrange_eq order verify heap
    have faulting : Faulting Y order ⟨heap', most limit, order, verify⟩ (sources.map (·.2)) := by
      refine ⟨rfl, isHeap, falters.perm perm, fun p hp => ?_⟩
      obtain ⟨p', hp', rfl⟩ := List.mem_map.mp hp
      exact sorted p' hp'
    obtain ⟨p, hp, hfault⟩ := faulty
    obtain ⟨last, carried⟩ := Option.isSome_iff_exists.mp hfault
    -- there is a source with a fault, so the last of its records is among the merged ones
    obtain ⟨x, hx⟩ : ∃ x, (x, some last) ∈ marked (some last) p.2.1 :=
      mem_marked (begun p hp hfault)
    have among : (x, some last) ∈ markedMerge order (sources.map (·.2)) := by
      rw [markedMerge, (perm_stableSort _).mem_iff, List.map_map]
      refine List.mem_flatten.mpr ⟨_, List.mem_map_of_mem hp, ?_⟩
      show (x, some last) ∈ marked p.2.2 p.2.1
      rw [carried]
      exact hx
    obtain ⟨e, fault⟩ := exists_fault among
    refine ⟨_, s', e, ofSources_of_collect limit hcollect harrange, fault, fun few requests => ?_⟩
    exact answerAll_until faltering faulting rfl fault few calm' requests
  · exact answerAll_latched

/-- Two sources that fail behind their records, one by its last answer and one when it is closed, and
    a source that does not fail. -/
def threeScripts : List (Script Nat × List Nat × Option SortError) :=
  [⟨[1, 4], some (.corruptData ⟨"late"⟩ .compression), false⟩,
    ⟨[2, 3], some (.corruptData ⟨"early"⟩ .compression), true⟩, ⟨[1, 5], none, false⟩].map
    fun script => (script, script.records, script.fault)

theorem fails_in_place_three :
    ∃ q s' replies q' s'',
      (ofSources (threeScripts.map (·.1)) 4 compare true : StateM Unit _).run () = (.ok q, s') ∧
      (answerAll [.next, .next, .next, .next, .close, .next] q : StateM Unit _).run s' =
        (([.step (some (.ok 1)), .step (some (.ok 1)), .step (some (.ok 2)),
          .step (some (.error (.corruptData ⟨"early"⟩ .compression)))] ++ replies, q'), s'') ∧
      ∀ reply ∈ replies, reply.IsOver := by
  have faltering := Script.faltering (ρ := Nat) fun _ : Unit => True
  have gives : ∀ p ∈ threeScripts, p.1.records = p.2.1 ∧ p.1.fault = p.2.2 := by decide
  have sorted : ∀ p ∈ threeScripts, InOrder compare p.2.1 := by
    show ∀ p ∈ threeScripts, p.2.1.Pairwise fun a b => (compare a b).isLE
    decide
  have first : untilFault (markedMerge compare (threeScripts.map (·.2))) =
      ([1, 1, 2], some (.corruptData ⟨"early"⟩ .compression)) := by
    simp [untilFault, markedMerge, marked, threeScripts, onRecord, stableSort, List.mergeSort,
      List.MergeSort.Internal.splitInTwo, Nat.isLE_compare]
  obtain ⟨-, made, -⟩ := fails_in_place faltering gives sorted 4 true trivial
  obtain ⟨-, q, s', e, hmake, fault, fails⟩ := made (by decide) (by decide)
  rw [first] at fault fails
  obtain rfl := Option.some.inj fault
  obtain ⟨replies, q', s'', answers, silent⟩ := fails (by decide) [.close, .next]
  exact ⟨q, s', replies, q', s'', hmake, answers, silent⟩

end Sources
end Merge
end ExternalSort
