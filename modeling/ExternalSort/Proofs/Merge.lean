/-
  ExternalSort.Proofs.Merge

  A merge gives out the stable sort of what its sources have to give.

  Each stream in the heap stands for what its source has to give, its current
  record first; the streams are told apart by their places among the sources.
  The stream on top of the heap has the first of the least records of all the
  sources together, because equal records leave in the order of the sources. So
  a merge of reliable sources is a reliable source itself.
-/

import ExternalSort.Proofs.Merge.Stepping
import ExternalSort.Proofs.Order.Heap

namespace ExternalSort
namespace Merge

open SortedSource (Reliable)
open StableSort (askLess)

variable {S σ ρ : Type}

/-! ## The order of streams -/

/-- The order in which streams give out their records. -/
def streamOrder (order : Comparator ρ) (a b : MergeStream σ ρ) : Ordering :=
  (order a.current b.current).then (compare a.index b.index)

section Valid

variable {order : Comparator ρ} [Std.TransCmp order]

instance : Std.TransCmp (streamOrder (σ := σ) order) :=
  have : Std.TransCmp fun a b : MergeStream σ ρ => order a.current b.current :=
    { eq_swap := Std.OrientedCmp.eq_swap
      isLE_trans := Std.TransCmp.isLE_trans }
  inferInstanceAs (Std.TransCmp (compareLex (fun a b : MergeStream σ ρ => order a.current b.current)
    (compareOn (·.index))))

/-- The heap has the stream on top that comes first. -/
theorem comesAfter_eq (verify : Bool) :
    comesAfter (σ := σ) order verify = askLess fun a b => streamOrder order b a := by
  funext a b
  have swap : streamOrder order b a = (streamOrder order a b).swap := Std.OrientedCmp.eq_swap
  rw [comesAfter, checkedCompare_eq_pure, pure_bind, askLess, swap, streamOrder]
  cases (order a.current b.current).then (compare a.index b.index) <;> rfl

end Valid

/-! ## Streams and what they stand for -/

/-- The streams stand for the lists that are not empty: the current record, and what the source has
    to give, make up the list at the index of the stream. -/
structure Represents (Y : σ → List ρ → Prop) (streams : List (MergeStream σ ρ))
    (lists : List (List ρ)) : Prop where
  distinct : (streams.map (·.index)).Nodup
  each : ∀ t ∈ streams, ∃ rest, lists[t.index]? = some (t.current :: rest) ∧ Y t.source rest
  whole : ∀ i xs, lists[i]? = some xs → xs ≠ [] → ∃ t ∈ streams, t.index = i

namespace Represents

variable {Y : σ → List ρ → Prop} {t : MergeStream σ ρ} {streams streams' : List (MergeStream σ ρ)}
  {lists : List (List ρ)}

theorem perm (h : Represents Y streams lists) (p : streams'.Perm streams) :
    Represents Y streams' lists where
  distinct := (p.map _).nodup_iff.mpr h.distinct
  each t ht := h.each t (p.mem_iff.mp ht)
  whole i xs hi hxs := by
    obtain ⟨t, ht, eq⟩ := h.whole i xs hi hxs
    exact ⟨t, p.mem_iff.mpr ht, eq⟩

theorem ne_index (h : Represents Y (t :: streams) lists) {u : MergeStream σ ρ}
    (hu : u ∈ streams) : u.index ≠ t.index := by
  have distinct := h.distinct
  rw [List.map_cons, List.nodup_cons] at distinct
  exact fun eq => distinct.1 (eq ▸ List.mem_map_of_mem hu)

/-- A stream gave out its last record. -/
theorem finish (h : Represents Y (t :: streams) lists) :
    Represents Y streams (lists.set t.index []) where
  distinct := (List.nodup_cons.mp h.distinct).2
  each u hu := by
    obtain ⟨rest, hlist, gives⟩ := h.each u (List.mem_cons_of_mem _ hu)
    exact ⟨rest, by rwa [List.getElem?_set_ne (h.ne_index hu).symm], gives⟩
  whole i xs hi hxs := by
    -- only the list of this stream changes, and nothing is left of it
    by_cases hit : t.index = i
    · obtain ⟨_, hlist, -⟩ := h.each t List.mem_cons_self
      rw [← hit, List.getElem?_set_self (List.getElem?_eq_some_iff.mp hlist).1] at hi
      exact absurd (Option.some.inj hi).symm hxs
    · rw [List.getElem?_set_ne hit] at hi
      obtain ⟨u, hu, rfl⟩ := h.whole i xs hi hxs
      exact ⟨u, (List.mem_cons.mp hu).resolve_left fun eq => hit (by rw [eq]), rfl⟩

/-- A stream gave out a record and has another one. -/
theorem advance (h : Represents Y (t :: streams) lists) {x : ρ} {rest : List ρ} {source : σ}
    (gives : Y source rest) :
    Represents Y ({ t with current := x, source } :: streams)
      (lists.set t.index (x :: rest)) where
  distinct := h.distinct
  each u hu := by
    rcases List.mem_cons.mp hu with rfl | hu
    · obtain ⟨_, hlist, -⟩ := h.each t List.mem_cons_self
      refine ⟨rest, ?_, gives⟩
      rw [List.getElem?_set_self (List.getElem?_eq_some_iff.mp hlist).1]
    · obtain ⟨rest, hlist, gives⟩ := h.each u (List.mem_cons_of_mem _ hu)
      exact ⟨rest, by rwa [List.getElem?_set_ne (h.ne_index hu).symm], gives⟩
  whole i xs hi hxs := by
    by_cases hit : t.index = i
    · exact ⟨_, List.mem_cons_self, hit⟩
    · rw [List.getElem?_set_ne hit] at hi
      obtain ⟨u, hu, rfl⟩ := h.whole i xs hi hxs
      have other := (List.mem_cons.mp hu).resolve_left fun eq => hit (by rw [eq])
      exact ⟨u, List.mem_cons_of_mem _ other, rfl⟩

/-- Without streams there is nothing left. -/
theorem flatten_eq_nil (h : Represents Y [] lists) : lists.flatten = [] := by
  rw [List.flatten_eq_nil_iff]
  intro xs hxs
  obtain ⟨i, hi⟩ := List.getElem?_of_mem hxs
  refine Decidable.byContradiction fun hne => ?_
  obtain ⟨t, ht, -⟩ := h.whole i xs hi hne
  exact absurd ht List.not_mem_nil

end Represents

/-- One more list, at its end. -/
theorem Represents.concat {Y : σ → List ρ → Prop} {streams : List (MergeStream σ ρ)}
    {lists : List (List ρ)} (h : Represents Y streams lists) {x : ρ} {rest : List ρ} {source : σ}
    (gives : Y source rest) :
    Represents Y (streams ++ [⟨lists.length, x, source⟩]) (lists ++ [x :: rest]) := by
  -- the other streams have places among the lists, so the new one has a place of its own
  have inside (u : MergeStream σ ρ) (hu : u ∈ streams) : u.index < lists.length := by
    obtain ⟨_, hlist, -⟩ := h.each u hu
    exact (List.getElem?_eq_some_iff.mp hlist).1
  refine ⟨?_, fun u hu => ?_, fun i xs hi hxs => ?_⟩
  · rw [List.map_append, List.nodup_append]
    refine ⟨h.distinct, List.nodup_cons.mpr ⟨List.not_mem_nil, List.nodup_nil⟩, ?_⟩
    intro i hi j hj
    obtain ⟨u, hu, rfl⟩ := List.mem_map.mp hi
    obtain rfl := List.mem_singleton.mp hj
    exact Nat.ne_of_lt (inside u hu)
  · rcases List.mem_append.mp hu with hu | hu
    · obtain ⟨rest, hlist, gives⟩ := h.each u hu
      exact ⟨rest, by rwa [List.getElem?_append_left (inside u hu)], gives⟩
    · obtain rfl := List.mem_singleton.mp hu
      exact ⟨rest, List.getElem?_concat_length, gives⟩
  · by_cases hlt : i < lists.length
    · rw [List.getElem?_append_left hlt] at hi
      obtain ⟨u, hu, rfl⟩ := h.whole i xs hi hxs
      exact ⟨u, List.mem_append_left _ hu, rfl⟩
    · have inside := (List.getElem?_eq_some_iff.mp hi).1
      rw [List.length_append, List.length_singleton] at inside
      exact ⟨_, List.mem_append_right _ List.mem_cons_self, by
        show lists.length = i
        omega⟩

/-- Taking the first element of one of several lists. -/
theorem flatten_of_getElem? {lists : List (List ρ)} {i : Nat} {x : ρ} {rest : List ρ}
    (h : lists[i]? = some (x :: rest)) :
    lists.flatten = (lists.take i).flatten ++ x :: (rest ++ (lists.drop (i + 1)).flatten) ∧
    (lists.set i rest).flatten =
      (lists.take i).flatten ++ (rest ++ (lists.drop (i + 1)).flatten) := by
  obtain ⟨hi, hget⟩ := List.getElem?_eq_some_iff.mp h
  constructor
  · conv => lhs; rw [← List.take_append_drop i lists, List.drop_eq_getElem_cons hi, hget]
    rw [List.flatten_append, List.flatten_cons, List.cons_append]
  · rw [List.set_eq_take_append_cons_drop, if_pos hi, List.flatten_append, List.flatten_cons]

/-- The stream that comes before all the others has the first record of the stable sort. -/
theorem Represents.stableSort_eq {order : Comparator ρ} [Std.TransCmp order]
    {Y : σ → List ρ → Prop} {t : MergeStream σ ρ} {streams : List (MergeStream σ ρ)}
    {lists : List (List ρ)} (h : Represents Y (t :: streams) lists)
    (inOrder : ∀ xs ∈ lists, InOrder order xs)
    (first : ∀ u ∈ streams, (streamOrder order t u).isLE) {rest : List ρ}
    (hlist : lists[t.index]? = some (t.current :: rest)) :
    stableSort order lists.flatten =
      t.current :: stableSort order (lists.set t.index rest).flatten := by
  -- every record of another list is behind the current one of its stream
  have other (i : Nat) (hi : i ≠ t.index) (xs : List ρ) (hxs : lists[i]? = some xs) (a : ρ)
      (ha : a ∈ xs) : ∃ u ∈ streams, u.index = i ∧ (order u.current a).isLE := by
    obtain ⟨u, hu, rfl⟩ := h.whole i xs hxs (List.ne_nil_of_mem ha)
    have hu' : u ∈ streams := (List.mem_cons.mp hu).resolve_left fun eq => hi (by rw [eq])
    obtain ⟨rest, hlist, -⟩ := h.each u hu
    obtain rfl := Option.some.inj (hxs.symm.trans hlist)
    refine ⟨u, hu', rfl, ?_⟩
    rcases List.mem_cons.mp ha with rfl | ha
    · simp [Std.ReflCmp.compare_self]
    · exact (List.pairwise_cons.mp (inOrder _ (List.mem_of_getElem? hxs))).1 a ha
  obtain ⟨before, after⟩ := flatten_of_getElem? hlist
  rw [before, after]
  refine stableSort_least order _ _ (fun a ha => ?_) fun a ha => ?_
  · obtain ⟨xs, hxs, ha⟩ := List.mem_flatten.mp ha
    obtain ⟨i, hi⟩ := List.getElem?_of_mem hxs
    -- a tied record of an earlier list would come first, so none is tied
    have lt : i < t.index := by
      have := (List.getElem?_eq_some_iff.mp hi).1
      rw [List.length_take] at this
      omega
    rw [List.getElem?_take_of_lt lt] at hi
    obtain ⟨u, hu, rfl, le⟩ := other i (by omega) xs hi a ha
    have hfirst := first u hu
    have hindex : compare t.index u.index = .gt := Nat.compare_eq_gt.mpr lt
    rw [streamOrder, hindex] at hfirst
    refine Std.TransCmp.lt_of_lt_of_isLE ?_ le
    cases hcurrent : order t.current u.current with
    | lt => rfl
    | eq => simp [hcurrent] at hfirst
    | gt => simp [hcurrent] at hfirst
  · rcases List.mem_append.mp ha with ha | ha
    · exact (List.pairwise_cons.mp (inOrder _ (List.mem_of_getElem? hlist))).1 a ha
    · obtain ⟨xs, hxs, ha⟩ := List.mem_flatten.mp ha
      obtain ⟨i, hi⟩ := List.getElem?_of_mem hxs
      rw [List.getElem?_drop] at hi
      obtain ⟨u, hu, -, le⟩ := other (t.index + 1 + i) (by omega) xs hi a ha
      have hfirst := first u hu
      rw [streamOrder, Ordering.isLE_then_iff_and] at hfirst
      exact Std.TransCmp.isLE_trans hfirst.1 le

/-! ## The heap -/

section Heap

variable {q : Merge σ ρ}

/-- The heap of streams of a merge. -/
def IsHeap (order : Comparator ρ) (heap : Array (MergeStream σ ρ)) : Prop :=
  Heap.IsHeap (fun a b => streamOrder order b a) heap

theorem arrange_eq (order : Comparator ρ) [Std.TransCmp order] (verify : Bool)
    (heap : Array (MergeStream σ ρ)) :
    ∃ heap', arrange order verify heap = pure heap' ∧ heap'.toList.Perm heap.toList ∧
      IsHeap order heap' := by
  rw [arrange, comesAfter_eq]
  exact Heap.makeArray_eq heap

/-- The stream that comes first leaves the heap. -/
theorem takeTop_eq (heap : IsHeap q.order q.heap) [Std.TransCmp q.order]
    (nonempty : q.heap ≠ #[]) :
    ∃ t rest, takeTop q = pure (some t, { q with heap := rest }) ∧
      q.heap.toList.Perm (t :: rest.toList) ∧ IsHeap q.order rest ∧
      ∀ u ∈ rest.toList, (streamOrder q.order t u).isLE := by
  have hpos : 0 < q.heap.size := Array.size_pos_iff.mpr nonempty
  obtain ⟨rest, hpop, hperm, hrest⟩ := Heap.popArray_eq (m := Checked) heap hpos
  refine ⟨q.heap[0], rest, ?_, hperm.symm, hrest, fun u hu => ?_⟩
  · rw [takeTop, comesAfter_eq, hpop]
    simp
  · exact heap.top hpos u (Array.mem_toList_iff.mp (hperm.mem_iff.mp (List.mem_cons_of_mem _ hu)))

/-- A stream goes back into the heap. -/
theorem putBack_eq (heap : IsHeap q.order q.heap) [Std.TransCmp q.order] (t : MergeStream σ ρ) :
    ∃ rest, putBack q t = pure { q with heap := rest } ∧
      rest.toList.Perm (t :: q.heap.toList) ∧ IsHeap q.order rest := by
  obtain ⟨rest, hpush, hperm, hrest⟩ := Heap.pushArray_eq (m := Checked) heap t
  refine ⟨rest, ?_, ?_, hrest⟩
  · rw [putBack, comesAfter_eq, hpush]
    rfl
  · rw [Array.toList_push] at hperm
    exact hperm.trans (List.perm_append_singleton _ _)

end Heap

/-! ## Giving out records -/

section Sources

variable [SortedSource (StateM S) σ ρ] {Y : σ → List ρ → Prop} {Calm : S → Prop}
  {order : Comparator ρ} {q : Merge σ ρ} {s : S} {xs : List ρ} {lists : List (List ρ)}

/-- A merge of what its sources have to give. -/
structure Merging (Y : σ → List ρ → Prop) (order : Comparator ρ) (q : Merge σ ρ)
    (lists : List (List ρ)) : Prop where
  sameOrder : q.order = order
  heap : IsHeap order q.heap
  represents : Represents Y q.heap.toList lists
  inOrder : ∀ xs ∈ lists, InOrder order xs

/-- A merge gives out the stable sort of what its sources have to give, up to its limit. -/
def Gives (Y : σ → List ρ → Prop) (order : Comparator ρ) (q : Merge σ ρ) (xs : List ρ) : Prop :=
  ∃ lists, Merging Y order q lists ∧ xs = (stableSort order lists.flatten).take q.remaining

omit [SortedSource (StateM S) σ ρ] in
theorem gives_empty (remaining : Nat) (verify : Bool) [Std.TransCmp order] :
    Gives Y order ⟨#[], remaining, order, verify⟩ [] := by
  refine ⟨[], ⟨rfl, fun c hc => absurd hc (Nat.not_lt_zero c), ?_, (by simp)⟩, ?_⟩
  · exact ⟨List.nodup_nil, (by simp), (by simp)⟩
  · rw [List.flatten_nil, stableSort_of_inOrder List.Pairwise.nil, List.take_nil]

theorem closeStreams_eq (reliable : Reliable Y Calm) {streams : List (MergeStream σ ρ)}
    (gives : ∀ t ∈ streams, ∃ xs, Y t.source xs) (calm : Calm s) :
    ∃ s', (closeStreams streams : StateM S _).run s = (.ok (), s') ∧ Calm s' := by
  induction streams generalizing s with
  | nil => exact ⟨s, rfl, calm⟩
  | cons t rest ih =>
    obtain ⟨xs, hxs⟩ := gives t List.mem_cons_self
    obtain ⟨source, s₁, hclose, hsource, calm₁⟩ := reliable.close hxs calm
    have calm₂ := reliable.release hsource calm₁
    obtain ⟨s₃, hrest, calm₃⟩ := ih (fun t ht => gives t (List.mem_cons_of_mem _ ht)) calm₂
    refine ⟨s₃, ?_, calm₃⟩
    rw [closeStreams, run_bind_of_run hclose]
    have hrelease : (SortedSource.release source : StateM S Unit).run s₁ =
        ((), ((SortedSource.release source : StateM S Unit).run s₁).2) := rfl
    dsimp only
    rw [run_bind_of_run hrelease, run_bind_of_run hrest]
    rfl

theorem Merging.sources (h : Merging Y order q lists) :
    ∀ t ∈ q.heap.toList, ∃ xs, Y t.source xs := by
  intro t ht
  obtain ⟨rest, -, gives⟩ := h.represents.each t ht
  exact ⟨rest, gives⟩

theorem closeAll_eq (reliable : Reliable Y Calm) (h : Merging Y order q lists) (calm : Calm s) :
    ∃ s', (closeAll q : StateM S _).run s = ((.ok (), { q with heap := #[] }), s') ∧ Calm s' := by
  obtain ⟨s', hclose, calm'⟩ := closeStreams_eq reliable h.sources calm
  refine ⟨s', ?_, calm'⟩
  rw [closeAll, run_bind_of_run hclose]
  rfl

variable [Std.TransCmp order]

theorem deliver_eq (reliable : Reliable Y Calm) (h : Merging Y order q lists) (calm : Calm s)
    (x : ρ) :
    ∃ q' s', (deliver q x none : StateM S _).run s = ((some (.ok x), q'), s') ∧
      Gives Y order q' ((stableSort order lists.flatten).take q.remaining) ∧ Calm s' := by
  rw [deliver]
  -- with the last record the sources that are left are closed
  by_cases hzero : q.remaining = 0
  · rw [if_pos hzero]
    obtain ⟨s', hclose, calm'⟩ := closeAll_eq reliable h calm
    refine ⟨{ q with heap := #[] }, s', ?_, ?_, calm'⟩
    · rw [run_bind_of_run hclose]
      rfl
    · obtain ⟨_, _, _, _⟩ := q
      obtain rfl := h.sameOrder
      rw [hzero, List.take_zero]
      exact gives_empty _ _
  · rw [if_neg hzero]
    exact ⟨q, s, rfl, ⟨lists, h, rfl⟩, calm⟩

omit [SortedSource (StateM S) σ ρ] in
/-- Nothing comes out any more when the limit is reached or no stream is left. -/
theorem Merging.spent (h : Merging Y order q lists) (spent : q.remaining = 0 ∨ q.heap = #[]) :
    (stableSort order lists.flatten).take q.remaining = [] := by
  rcases spent with zero | empty
  · rw [zero, List.take_zero]
  · have represents := h.represents
    rw [empty] at represents
    rw [represents.flatten_eq_nil, stableSort_of_inOrder List.Pairwise.nil, List.take_nil]

omit [Std.TransCmp order] in
/-- Lists stay sorted when one of them loses its first record. -/
theorem inOrder_set (inOrder : ∀ xs ∈ lists, InOrder order xs) {i : Nat} {x : ρ} {rest : List ρ}
    (hlist : lists[i]? = some (x :: rest)) : ∀ xs ∈ lists.set i rest, InOrder order xs := by
  intro xs hxs
  rcases List.mem_or_eq_of_mem_set hxs with hxs | rfl
  · exact inOrder xs hxs
  · exact (inOrder _ (List.mem_of_getElem? hlist)).of_cons

/-- The records of the sources come out in order, each when its stream comes first. -/
theorem next_eq (reliable : Reliable Y Calm) (gives : Gives Y order q xs) (calm : Calm s) :
    ∃ q' s', (next q : StateM S _).run s = ((xs.head?.map .ok, q'), s') ∧
      Gives Y order q' xs.tail ∧ Calm s' := by
  obtain ⟨lists, h, rfl⟩ := gives
  by_cases spent : q.remaining = 0 ∨ q.heap = #[]
  · have none := h.spent spent
    rw [next_of_spent spent, none]
    exact ⟨q, s, rfl, ⟨lists, h, none.symm⟩, calm⟩
  · obtain ⟨rfl, heap, represents, inOrder⟩ := h
    obtain ⟨more, nonempty⟩ := not_or.mp spent
    obtain ⟨t, streams, htop, hperm, hheap, hfirst⟩ :=
      takeTop_eq (q := { q with remaining := q.remaining - 1 }) heap nonempty
    have takes : Takes q t streams none := .of_pure more htop hperm
    have represents' := represents.perm hperm.symm
    obtain ⟨rest, hlist, hsource⟩ := represents'.each t List.mem_cons_self
    have inOrder' := inOrder_set inOrder hlist
    have hout : (stableSort q.order lists.flatten).take q.remaining =
        t.current ::
          (stableSort q.order (lists.set t.index rest).flatten).take (q.remaining - 1) := by
      rw [represents'.stableSort_eq inOrder hfirst hlist]
      conv => lhs; rw [← Nat.succ_pred_eq_of_ne_zero more]
      exact List.take_succ_cons
    obtain ⟨source, s₁, hnext, hsource', calm₁⟩ := reliable.next hsource calm
    rw [hout]
    -- the source of the stream on top has nothing more, or its stream goes back into the heap
    cases rest with
    | nil =>
      obtain ⟨source', s₂, hclose, hsource'', calm₂⟩ := reliable.close hsource' calm₁
      have calm₃ := reliable.release hsource'' calm₂
      have merging : Merging Y q.order (q.without streams) (lists.set t.index []) :=
        ⟨rfl, hheap, represents'.finish, inOrder'⟩
      obtain ⟨q', s₄, hdeliver, gives, calm₄⟩ := deliver_eq reliable merging calm₃ t.current
      exact ⟨q', s₄, (takes.run_of_end hnext hclose).trans hdeliver, gives, calm₄⟩
    | cons x rest =>
      obtain ⟨streams', hput, hperm', hheap'⟩ :=
        putBack_eq (q := q.without streams) hheap { t with current := x, source }
      have merging : Merging Y q.order (q.without streams') (lists.set t.index (x :: rest)) :=
        ⟨rfl, hheap', (represents'.advance hsource').perm hperm', inOrder'⟩
      obtain ⟨q', s₂, hdeliver, gives, calm₂⟩ := deliver_eq reliable merging calm₁ t.current
      have put := congrArg (StateT.run · (none : Option Violation)) hput
      exact ⟨q', s₂, (takes.run_of_record hnext put).trans hdeliver, gives, calm₂⟩

/-- Merges of reliable sources are reliable sources. -/
theorem reliable (h : Reliable Y Calm) : Reliable (Gives Y order) Calm where
  next gives calm := next_eq h gives calm
  close {q xs s} gives calm := by
    obtain ⟨lists, merging, -⟩ := gives
    obtain ⟨s', hclose, calm'⟩ := closeStreams_eq h merging.sources calm
    refine ⟨{ q with heap := #[], remaining := 0 }, s', ?_, ?_, calm'⟩
    · show (Merge.close q : StateM S _).run s = _
      rw [Merge.close, closeAll, StateT.run_bind, hclose]
      rfl
    · obtain rfl := merging.sameOrder
      exact gives_empty _ _
  release {q xs s} gives calm := by
    obtain ⟨lists, merging, -⟩ := gives
    obtain ⟨s', hclose, calm'⟩ := closeStreams_eq h merging.sources calm
    show Calm ((Merge.release q : StateM S _).run s).2
    rw [Merge.release, run_bind_of_run hclose]
    exact calm'

/-! ## Making a merge -/

/-- Sources that were not read from. Until the first record comes out, asking for it may fail, where
    there is a risk of this failure. -/
structure Openable (Y₀ Y : σ → List ρ → Prop) (Calm₀ : S → Prop) (Risk : S → SortError → Prop)
    (Calm : S → Prop) : Prop where
  calm : ∀ {s}, Calm s → Calm₀ s ∧ ∀ e, ¬ Risk s e
  first : ∀ {source x xs s}, Y₀ source (x :: xs) → Calm₀ s →
    (∃ source' s', (SortedSource.next source : StateM S _).run s = ((some (.ok x), source'), s') ∧
      Y source' xs ∧ Calm s') ∨
    ∃ e source' s', (SortedSource.next source : StateM S _).run s =
      ((some (.error e), source'), s') ∧ Risk s e

variable {Y₀ : σ → List ρ → Prop} {Calm₀ : S → Prop} {Risk : S → SortError → Prop}

omit [Std.TransCmp order] in
/-- Every source that has a record gets a stream. -/
theorem collect_eq (openable : Openable Y₀ Y Calm₀ Risk Calm) {sources : List (σ × List ρ)}
    (fresh : ∀ p ∈ sources, Y₀ p.1 p.2 ∧ p.2 ≠ []) {heap : Array (MergeStream σ ρ)}
    (represents : Represents Y heap.toList lists) (calm : Calm₀ s) (started : lists ≠ [] → Calm s) :
    (∃ heap' s', (collect lists.length (sources.map (·.1)) heap : StateM S _).run s =
        (.ok heap', s') ∧ Represents Y heap'.toList (lists ++ sources.map (·.2)) ∧
        (lists ++ sources.map (·.2) ≠ [] → Calm s')) ∨
      ∃ e s', (collect lists.length (sources.map (·.1)) heap : StateM S _).run s =
        (.error e, s') ∧ Risk s e := by
  induction sources generalizing lists heap s with
  | nil =>
    rw [List.map_nil, List.map_nil, List.append_nil]
    exact .inl ⟨heap, s, rfl, represents, started⟩
  | cons p rest ih =>
    obtain ⟨source, xs⟩ := p
    obtain ⟨hsource, nonempty⟩ := fresh _ List.mem_cons_self
    obtain ⟨x, xs, rfl⟩ := List.exists_cons_of_ne_nil nonempty
    rw [List.map_cons, List.map_cons]
    -- only the first source can fail: when it gave a record there is no risk any more
    rcases openable.first hsource calm with
      ⟨source', s₁, hnext, hsource', calm₁⟩ | ⟨e, source', s₁, hnext, risk⟩
    · obtain ⟨calm', safe⟩ := openable.calm calm₁
      have represents' := represents.concat (x := x) hsource'
      rw [← Array.toList_push] at represents'
      have h := ih (fun p hp => fresh p (List.mem_cons_of_mem _ hp)) represents'
        calm' fun _ => calm₁
      rw [List.length_append, List.append_assoc] at h
      rw [collect_of_record hnext]
      refine .inl (h.resolve_right ?_)
      rintro ⟨e, s₂, -, risk⟩
      exact safe e risk
    · obtain ⟨s', failed⟩ := collect_of_error hnext
      exact .inr ⟨e, s', failed, risk⟩

/-- A merge of sources that have records to give gives out the stable sort of all of them. -/
theorem ofSources_eq (openable : Openable Y₀ Y Calm₀ Risk Calm) {sources : List (σ × List ρ)}
    (fresh : ∀ p ∈ sources, Y₀ p.1 p.2 ∧ p.2 ≠ []) (inOrder : ∀ p ∈ sources, InOrder order p.2)
    (some_ : sources ≠ []) (limit : UInt64) (verify : Bool) (calm : Calm₀ s) :
    (∃ q s', (ofSources (sources.map (·.1)) limit order verify : StateM S _).run s = (.ok q, s') ∧
      Gives Y order q ((stableSort order (sources.map (·.2)).flatten).take
        (if limit = 0 then unlimited else limit.toNat)) ∧ Calm s') ∨
    ∃ e s', (ofSources (sources.map (·.1)) limit order verify : StateM S _).run s =
      (.error e, s') ∧ Risk s e := by
  have empty : Represents Y (#[] : Array (MergeStream σ ρ)).toList [] :=
    ⟨List.nodup_nil, (by simp), (by simp)⟩
  rcases collect_eq openable fresh empty calm (fun h => absurd rfl h) with
    ⟨heap, s', hcollect, represents, calm'⟩ | ⟨e, s', hcollect, risk⟩
  · obtain ⟨heap', hmake, hperm, hheap⟩ := arrange_eq order verify heap
    have sorted : ∀ xs ∈ [] ++ sources.map (·.2), InOrder order xs := by
      intro xs hxs
      obtain ⟨p, hp, rfl⟩ := List.mem_map.mp hxs
      exact inOrder p hp
    exact .inl ⟨_, s', ofSources_of_collect limit hcollect hmake,
      ⟨_, ⟨rfl, hheap, represents.perm hperm, sorted⟩, rfl⟩, calm' (by simpa using some_)⟩
  · exact .inr ⟨e, s', ofSources_of_error limit hcollect, risk⟩

end Sources
end Merge
end ExternalSort
