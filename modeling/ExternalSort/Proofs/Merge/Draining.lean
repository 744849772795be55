/-
  ExternalSort.Proofs.Merge.Draining

  A merge of reliable sources, read to its end.

  With a valid comparator and sorted sources, the stable sort of everything comes
  out, cut at the limit. With any comparator at all, and sources in any order,
  what comes out is still the beginning of an interleaving of the sources, and
  as much of it as the limit allows: without checks a comparator decides only
  which stream is on top of the heap, and each stream that leaves it goes back
  with its next record.
-/

import ExternalSort.Proofs.Merge.Checking
import ExternalSort.Proofs.Merge.Interleaving
import ExternalSort.Proofs.Order.Looping

namespace ExternalSort

/-! ## Interleavings that go on -/

/-- Lists that are not all empty have a first element among them. -/
theorem exists_front {α : Type} {lists : List (List α)} (some : lists.flatten ≠ []) :
    ∃ (i : Nat) (x : α) (rest : List α), lists[i]? = .some (x :: rest) := by
  obtain ⟨x, hx⟩ := List.exists_mem_of_ne_nil _ some
  obtain ⟨xs, hxs, hx⟩ := List.mem_flatten.mp hx
  obtain ⟨y, rest, rfl⟩ := List.exists_cons_of_ne_nil (List.ne_nil_of_mem hx)
  obtain ⟨i, hi⟩ := List.getElem?_of_mem hxs
  exact ⟨i, y, rest, hi⟩

/-- Taking the first element of one of several lists leaves one element less. -/
theorem length_flatten_set {α : Type} {lists : List (List α)} {i : Nat} {x : α} {rest : List α}
    (front : lists[i]? = some (x :: rest)) :
    lists.flatten.length = (lists.set i rest).flatten.length + 1 := by
  obtain ⟨before, after⟩ := Merge.flatten_of_getElem? front
  have hbefore := congrArg List.length before
  have hafter := congrArg List.length after
  simp only [List.length_append, List.length_cons] at hbefore hafter
  omega

/-- Any lists can be interleaved. -/
theorem exists_interleaving {α : Type} (lists : List (List α)) : ∃ out, Interleaves lists out := by
  -- by induction on the number of elements that are left
  induction h : lists.flatten.length generalizing lists with
  | zero =>
    have none := List.flatten_eq_nil_iff.mp (List.eq_nil_of_length_eq_zero h)
    exact ⟨[], .nil none⟩
  | succ n ih =>
    have some : lists.flatten ≠ [] := List.ne_nil_of_length_eq_add_one h
    obtain ⟨i, x, rest, front⟩ := exists_front some
    have shorter := length_flatten_set front
    obtain ⟨out, behind⟩ := ih (lists.set i rest) (by omega)
    exact ⟨x :: out, .cons front behind⟩

namespace Merge

open SortedSource (Reliable)

variable {S σ ρ : Type}

/-! ## Making a merge of reliable sources -/

/-- A list without records needs no stream. -/
theorem Represents.concat_nil {Y : σ → List ρ → Prop} {streams : List (MergeStream σ ρ)}
    {lists : List (List ρ)} (h : Represents Y streams lists) :
    Represents Y streams (lists ++ [[]]) where
  distinct := h.distinct
  each t ht := by
    obtain ⟨rest, hlist, gives⟩ := h.each t ht
    have inside := (List.getElem?_eq_some_iff.mp hlist).1
    exact ⟨rest, by rwa [List.getElem?_append_left inside], gives⟩
  whole i xs hi hxs := by
    -- the only list behind the others is empty, and needs no stream
    by_cases hlt : i < lists.length
    · rw [List.getElem?_append_left hlt] at hi
      exact h.whole i xs hi hxs
    · have bound := (List.getElem?_eq_some_iff.mp hi).1
      rw [List.length_append, List.length_singleton] at bound
      have last : i = lists.length := by omega
      rw [last, List.getElem?_concat_length] at hi
      exact absurd (Option.some.inj hi).symm hxs

section Sources

variable [SortedSource (StateM S) σ ρ] {Y : σ → List ρ → Prop} {Calm : S → Prop}
  {q : Merge σ ρ} {s : S} {lists : List (List ρ)}

/-- Every source that has a record gets a stream, and the others are closed. -/
theorem collect_reliable (reliable : Reliable Y Calm) {sources : List (σ × List ρ)}
    (gives : ∀ p ∈ sources, Y p.1 p.2) {heap : Array (MergeStream σ ρ)}
    (represents : Represents Y heap.toList lists) (calm : Calm s) :
    ∃ heap' s', (collect lists.length (sources.map (·.1)) heap : StateM S _).run s =
        (.ok heap', s') ∧
      Represents Y heap'.toList (lists ++ sources.map (·.2)) ∧ Calm s' := by
  induction sources generalizing lists heap s with
  | nil =>
    rw [List.map_nil, List.map_nil, List.append_nil]
    exact ⟨heap, s, rfl, represents, calm⟩
  | cons p sources ih =>
    obtain ⟨first, others⟩ := List.forall_mem_cons.mp gives
    obtain ⟨source, xs⟩ := p
    obtain ⟨source₁, s₁, hnext, gives₁, calm₁⟩ := reliable.next first calm
    rw [List.map_cons, List.map_cons]
    cases xs with
    | nil =>
      obtain ⟨source₂, s₂, hclose, gives₂, calm₂⟩ := reliable.close gives₁ calm₁
      have calm₃ := reliable.release gives₂ calm₂
      obtain ⟨heap', s', hcollect, represents', calm'⟩ := ih others represents.concat_nil calm₃
      rw [List.length_append, List.length_singleton] at hcollect
      rw [← List.append_cons] at represents'
      exact ⟨heap', s', (collect_of_end hnext hclose).trans hcollect, represents', calm'⟩
    | cons x xs =>
      have represents₁ := represents.concat (x := x) gives₁
      rw [← Array.toList_push] at represents₁
      obtain ⟨heap', s', hcollect, represents', calm'⟩ := ih others represents₁ calm₁
      rw [List.length_append, List.length_singleton] at hcollect
      rw [← List.append_cons] at represents'
      exact ⟨heap', s', (collect_of_record hnext).trans hcollect, represents', calm'⟩

/-! ## Sorted sources -/

/-- What a merge gives out of a list that is sorted already. -/
def cut (limit : UInt64) (xs : List ρ) : List ρ :=
  if limit = 0 then xs else xs.take limit.toNat

/-- Without a limit there are as many records as an unlimited merge gives out. -/
theorem take_most {limit : UInt64} {xs : List ρ} (few : limit = 0 → xs.length ≤ unlimited) :
    xs.take (most limit) = cut limit xs := by
  rw [most, cut]
  by_cases zero : limit = 0
  · rw [if_pos zero, if_pos zero]
    exact List.take_of_length_le (few zero)
  · rw [if_neg zero, if_neg zero]

/-- A merge of sorted sources gives out the stable sort of all they have to give, one source after
    the other: equal records leave in the order of their sources, and as they stand in each. A limit
    cuts it. -/
theorem drains_of_sorted {order : Comparator ρ} [Std.TransCmp order] (reliable : Reliable Y Calm)
    {sources : List (σ × List ρ)} (gives : ∀ p ∈ sources, Y p.1 p.2)
    (sorted : ∀ p ∈ sources, InOrder order p.2)
    (few : (sources.map (·.2)).flatten.length < UInt64.size - 1) (limit : UInt64) (verify : Bool)
    (calm : Calm s) :
    ∃ q s', (ofSources (sources.map (·.1)) limit order verify : StateM S _).run s = (.ok q, s') ∧
      ∀ count, (cut limit (stableSort order (sources.map (·.2)).flatten)).length < count →
        ((SortedSource.drain count q : StateM S _).run s').1.1 =
          (cut limit (stableSort order (sources.map (·.2)).flatten), .finished) := by
  have empty : Represents Y (#[] : Array (MergeStream σ ρ)).toList [] :=
    ⟨List.nodup_nil, (by simp), (by simp)⟩
  obtain ⟨heap, s', hcollect, represents, calm'⟩ := collect_reliable reliable gives empty calm
  obtain ⟨heap', harrange, perm, isHeap⟩ := arrange_eq order verify heap
  have merging : Merging Y order ⟨heap', most limit, order, verify⟩ (sources.map (·.2)) := by
    refine ⟨rfl, isHeap, represents.perm perm, fun xs hxs => ?_⟩
    obtain ⟨p, hp, rfl⟩ := List.mem_map.mp hxs
    exact sorted p hp
  have all : (stableSort order (sources.map (·.2)).flatten).length ≤ unlimited := by
    rw [(perm_stableSort _).length_eq]
    exact Nat.le_of_lt few
  refine ⟨_, s', ofSources_of_collect limit hcollect harrange, fun count long => ?_⟩
  rw [← take_most fun _ => all] at long ⊢
  exact (Merge.reliable reliable).drain_eq ⟨_, merging, rfl⟩ calm' long

/-- Three sources of numbered records, the second of which is empty. -/
def threeSources : List (InMemory (Nat × Nat) × List (Nat × Nat)) :=
  [[(1, 0), (2, 0)], [], [(1, 1), (1, 2)]].map fun xs => (⟨xs⟩, xs)

theorem drains_of_sorted_three :
    ∃ q s', (ofSources (threeSources.map (·.1)) 3 (compareOn (·.1)) true : StateM Unit _).run () =
        (.ok q, s') ∧
      ((SortedSource.drain 4 q : StateM Unit _).run s').1.1 =
        ([(1, 0), (1, 1), (1, 2)], .finished) := by
  have reliable := SortedSource.inMemory_reliable (ρ := Nat × Nat) fun _ : Unit => True
  have gives : ∀ p ∈ threeSources, p.1.records = p.2 := by decide
  have sorted : ∀ p ∈ threeSources, InOrder (compareOn (·.1)) p.2 := by
    show ∀ p ∈ threeSources, p.2.Pairwise fun a b => (compareOn (·.1) a b).isLE
    decide
  obtain ⟨q, s', made, drains⟩ := drains_of_sorted reliable gives sorted (by decide) 3 true trivial
  have first : cut 3 (stableSort (compareOn (·.1)) (threeSources.map (·.2)).flatten) =
      [(1, 0), (1, 1), (1, 2)] := by
    simp [cut, threeSources, stableSort, List.mergeSort, List.MergeSort.Internal.splitInTwo,
      compareOn, Nat.isLE_compare]
  exact ⟨q, s', made, first ▸ drains 4 (by rw [first]; decide)⟩

/-! ## Any comparator -/

omit [SortedSource (StateM S) σ ρ] in
/-- Without checks, nothing is remembered of the stream that leaves the heap. -/
theorem Takes.of_unverified {t : MergeStream σ ρ} {others : Array (MergeStream σ ρ)}
    {violation : Option Violation} (takes : Takes q t others violation)
    (unverified : q.verify = false) : Takes q t others none := by
  have same : q.unverified = q := by
    rw [Merge.unverified, ← unverified]
  obtain ⟨silent, -⟩ := takes.unverified
  rwa [same] at silent

omit [SortedSource (StateM S) σ ρ] in
/-- Without checks, a stream goes back into the heap, and nothing is remembered. -/
theorem putBack_unverified (unverified : q.verify = false) (t : MergeStream σ ρ) :
    ∃ heap : Array (MergeStream σ ρ), putBack q t = pure { q with heap := heap } ∧
      heap.toList.Perm (t :: q.heap.toList) := by
  have same : q.unverified = q := by
    rw [Merge.unverified, ← unverified]
  obtain ⟨b, alike, -, -⟩ := putBack_echoes q t
  rw [same] at alike
  obtain ⟨heap, v, put, perm⟩ := putBack_run q t none
  refine ⟨heap, ?_, perm⟩
  rw [alike] at put ⊢
  exact congrArg pure (congrArg Prod.fst put)

omit [SortedSource (StateM S) σ ρ] in
/-- Without checks, arranging the first records remembers nothing. -/
theorem arrange_unverified (order : Comparator ρ) (heap : Array (MergeStream σ ρ)) :
    ∃ heap', arrange order false heap = pure heap' ∧ heap'.toList.Perm heap.toList := by
  obtain ⟨heap', alike, -, -⟩ := arrange_echoes order true heap
  have perm := arrange_run order false heap
  rw [alike] at perm
  exact ⟨heap', alike, perm⟩

/-- A merge of lists whose comparator is asked without checks, unless its limit is reached. -/
structure Unordered (Y : σ → List ρ → Prop) (q : Merge σ ρ) (lists : List (List ρ)) : Prop where
  unverified : q.verify = false
  represents : q.remaining ≠ 0 → Represents Y q.heap.toList lists

/-- A record is given out, and what the streams stand for stays; with the last one that the limit
    allows, the streams that are left are closed. -/
theorem deliver_unordered (reliable : Reliable Y Calm) (unverified : q.verify = false)
    (represents : Represents Y q.heap.toList lists) (calm : Calm s) (x : ρ) :
    ∃ q' s', (deliver q x none : StateM S _).run s = ((some (.ok x), q'), s') ∧
      q'.remaining = q.remaining ∧ Unordered Y q' lists ∧ Calm s' := by
  rw [deliver]
  -- with the last record all streams are closed, and closing them finds nothing wrong
  by_cases zero : q.remaining = 0
  · have gives : ∀ t ∈ q.heap.toList, ∃ xs, Y t.source xs := by
      intro t ht
      obtain ⟨rest, -, gives⟩ := represents.each t ht
      exact ⟨rest, gives⟩
    obtain ⟨s', hclose, calm'⟩ := closeStreams_eq reliable gives calm
    refine ⟨{ q with heap := #[] }, s', ?_, rfl, ⟨unverified, absurd zero⟩, calm'⟩
    rw [if_pos zero, closeAll, StateT.run_bind, StateT.run_bind, hclose]
    rfl
  · rw [if_neg zero]
    exact ⟨q, s, rfl, rfl, ⟨unverified, fun _ => represents⟩, calm⟩

/-- The next record is the first one of some list. -/
theorem next_unordered (reliable : Reliable Y Calm) (h : Unordered Y q lists)
    (more : q.remaining ≠ 0) (some_ : lists.flatten ≠ []) (calm : Calm s) :
    ∃ (i : Nat) (x : ρ) (rest : List ρ) (q' : Merge σ ρ) (s' : S),
      lists[i]? = some (x :: rest) ∧
      (next q : StateM S _).run s = ((some (.ok x), q'), s') ∧
      q'.remaining = q.remaining - 1 ∧ Unordered Y q' (lists.set i rest) ∧ Calm s' := by
  have represents := h.represents more
  -- the heap is not empty, so there is a stream to leave it
  obtain spent | ⟨t, others, violation, takes⟩ := next_cases q
  · have empty : q.heap = #[] := spent.resolve_left more
    rw [empty] at represents
    exact absurd represents.flatten_eq_nil some_
  have takes := takes.of_unverified h.unverified
  have represents' := represents.perm takes.perm.symm
  obtain ⟨rest, hlist, gives⟩ := represents'.each t List.mem_cons_self
  obtain ⟨source, s₁, hnext, gives₁, calm₁⟩ := reliable.next gives calm
  -- a stream without a next record is gone, else it goes back into the heap
  cases rest with
  | nil =>
    obtain ⟨source₂, s₂, hclose, gives₂, calm₂⟩ := reliable.close gives₁ calm₁
    have calm₃ := reliable.release gives₂ calm₂
    obtain ⟨q', s', hdeliver, remaining, stands, calm'⟩ := deliver_unordered
      (q := q.without others) reliable h.unverified represents'.finish calm₃ t.current
    exact ⟨t.index, t.current, [], q', s', hlist, (takes.run_of_end hnext hclose).trans hdeliver,
      remaining, stands, calm'⟩
  | cons y rest =>
    obtain ⟨streams, put, perm⟩ := putBack_unverified (q := q.without others) h.unverified
      { t with current := y, source }
    obtain ⟨q', s', hdeliver, remaining, stands, calm'⟩ := deliver_unordered
      (q := q.without streams) reliable h.unverified
      ((represents'.advance gives₁).perm perm) calm₁ t.current
    have back := congrArg (StateT.run · (none : Option Violation)) put
    exact ⟨t.index, t.current, y :: rest, q', s', hlist,
      (takes.run_of_record hnext back).trans hdeliver, remaining, stands, calm'⟩

/-- Reading a merge to its end gives the beginning of an interleaving, as long as the limit and the
    lists allow. -/
theorem drainOnto_unordered (reliable : Reliable Y Calm) (h : Unordered Y q lists)
    (calm : Calm s) :
    ∃ out left, Interleaves lists (out ++ left) ∧
      out.length = min q.remaining lists.flatten.length ∧
      ∀ count taken, out.length < count → ∃ q' s',
        (SortedSource.drainOnto count taken q : StateM S _).run s =
          (((taken.reverse ++ out, .finished), q'), s') := by
  -- by induction on the number of records that are still to come out
  induction hn : min q.remaining lists.flatten.length generalizing q lists s with
  | zero =>
    obtain ⟨left, interleaves⟩ := exists_interleaving lists
    -- either the limit is reached, or there are no records and so there are no streams
    have spent : q.remaining = 0 ∨ q.heap = #[] := by
      refine or_iff_not_imp_left.mpr fun more => Array.toList_eq_nil_iff.mp ?_
      have none : lists.flatten = [] := List.eq_nil_of_length_eq_zero (by omega)
      rw [List.eq_nil_iff_forall_not_mem]
      intro t ht
      obtain ⟨rest, hlist, -⟩ := (h.represents more).each t ht
      exact absurd (List.flatten_eq_nil_iff.mp none _ (List.mem_of_getElem? hlist)) (by simp)
    have asked : (SortedSource.next q : StateM S _).run s = ((none, q), s) :=
      congrArg (StateT.run · s) (next_of_spent spent)
    refine ⟨[], left, interleaves, rfl, fun count taken long => ?_⟩
    cases count with
    | zero => exact absurd long (Nat.not_lt_zero _)
    | succ count =>
      rw [SortedSource.drainOnto, run_bind_of_run asked]
      exact ⟨q, s, by rw [List.append_nil]; rfl⟩
  | succ n ih =>
    have some_ : lists.flatten ≠ [] := List.ne_nil_of_length_pos (by omega)
    obtain ⟨i, x, rest, q', s', front, hnext, remaining, stands, calm'⟩ :=
      next_unordered reliable h (by omega) some_ calm
    have shorter := length_flatten_set front
    obtain ⟨out, left, interleaves, length, drains⟩ := ih stands calm' (by omega)
    refine ⟨x :: out, left, .cons front interleaves, by rw [List.length_cons]; omega, ?_⟩
    intro count taken long
    cases count with
    | zero => exact absurd long (Nat.not_lt_zero _)
    | succ count =>
      obtain ⟨q'', s'', hdrain⟩ := drains count (x :: taken) (Nat.lt_of_succ_lt_succ long)
      have asked : (SortedSource.next q : StateM S _).run s = ((some (.ok x), q'), s') := hnext
      rw [List.reverse_cons, List.append_assoc] at hdrain
      rw [SortedSource.drainOnto, run_bind_of_run asked]
      exact ⟨q'', s'', hdrain⟩

/-- Whatever the comparator answers, a merge that does not check it ends, and gives out as many
    records as its limit and its sources allow: the beginning of an interleaving of the sources, in
    which nothing is lost and nothing comes twice. On any heap of streams, an operation comes to what
    it comes to when every index is checked, so none looks beyond the heap. -/
theorem drains_interleaving (order : Comparator ρ) (reliable : Reliable Y Calm)
    {sources : List (σ × List ρ)} (gives : ∀ p ∈ sources, Y p.1 p.2)
    (few : (sources.map (·.2)).flatten.length < UInt64.size - 1) (limit : UInt64)
    (calm : Calm s) :
    ∃ q s' out left,
      (ofSources (sources.map (·.1)) limit order false : StateM S _).run s = (.ok q, s') ∧
      (∀ count, out.length < count →
        ((SortedSource.drain count q : StateM S _).run s').1.1 = (out, .finished)) ∧
      out.length = (if limit = 0 then (sources.map (·.2)).flatten.length
        else min limit.toNat (sources.map (·.2)).flatten.length) ∧
      Interleaves (sources.map (·.2)) (out ++ left) ∧
      (out ++ left).Perm (sources.map (·.2)).flatten ∧
      ∀ (op : Heap.Operation) (heap : Array (MergeStream σ ρ)),
        op.loop (comesAfter order false) heap = liftM (op.on (comesAfter order false) heap) := by
  have empty : Represents Y (#[] : Array (MergeStream σ ρ)).toList [] :=
    ⟨List.nodup_nil, (by simp), (by simp)⟩
  obtain ⟨heap, s', hcollect, represents, calm'⟩ := collect_reliable reliable gives empty calm
  obtain ⟨heap', harrange, perm⟩ := arrange_unverified order heap
  have unordered : Unordered Y ⟨heap', most limit, order, false⟩ (sources.map (·.2)) :=
    ⟨rfl, fun _ => represents.perm perm⟩
  obtain ⟨out, left, interleaves, length, drains⟩ := drainOnto_unordered reliable unordered calm'
  refine ⟨_, s', out, left, ofSources_of_collect limit hcollect harrange, fun count long => ?_, ?_,
    interleaves, interleaves.perm, Heap.Operation.loop_eq _⟩
  · obtain ⟨q', s'', hdrain⟩ := drains count [] long
    rw [SortedSource.drain, hdrain]
    rfl
  · rw [length, most]
    by_cases zero : limit = 0
    · rw [if_pos zero, if_pos zero]
      exact Nat.min_eq_right (Nat.le_of_lt few)
    · rw [if_neg zero, if_neg zero]

/-- Two sources that are not sorted, under a comparator that says that nothing is equal to itself. -/
def twoUnsorted : List (InMemory Nat × List Nat) :=
  [[3, 1], [2, 4]].map fun xs => (⟨xs⟩, xs)

theorem drains_interleaving_two :
    ∃ q s' out left, (ofSources (twoUnsorted.map (·.1)) 3 (fun _ _ => .gt) false :
        StateM Unit _).run () = (.ok q, s') ∧
      ((SortedSource.drain 4 q : StateM Unit _).run s').1.1 = (out, .finished) ∧
      out.length = 3 ∧ Interleaves [[3, 1], [2, 4]] (out ++ left) := by
  have reliable := SortedSource.inMemory_reliable (ρ := Nat) fun _ : Unit => True
  have gives : ∀ p ∈ twoUnsorted, p.1.records = p.2 := by decide
  obtain ⟨q, s', out, left, made, drains, length, interleaves, -⟩ :=
    drains_interleaving (fun _ _ => .gt) reliable gives (by decide) 3 trivial
  have three : out.length = 3 := length
  exact ⟨q, s', out, left, made, drains 4 (by omega), three, interleaves⟩

end Sources
end Merge
end ExternalSort
