/-
  ExternalSort.Proofs.Merge.Interleaving

  A merge gives out what its sources gave, whatever the comparator says.

  A merge asks every source until it ends, so if its sources account for their
  records, what comes out is an interleaving of lists that they owed, one list
  for each of them. Nothing is assumed about the comparator, and nothing about
  what the sources read.
-/

import Mathlib.Data.List.Forall2
import ExternalSort.Proofs.Merge

namespace ExternalSort

/-- A list that takes the elements of several lists one by one, those of each list in their
    order. -/
inductive Interleaves {α : Type} : List (List α) → List α → Prop
  | nil {lists : List (List α)} (none : ∀ xs ∈ lists, xs = []) : Interleaves lists []
  | cons {lists : List (List α)} {i : Nat} {x : α} {rest out : List α}
      (front : lists[i]? = some (x :: rest)) (behind : Interleaves (lists.set i rest) out) :
      Interleaves lists (x :: out)

/-- Nothing is left out, and nothing is taken twice. -/
theorem Interleaves.perm {α : Type} {lists : List (List α)} {out : List α}
    (h : Interleaves lists out) : out.Perm lists.flatten := by
  induction h with
  | nil none => rw [List.flatten_eq_nil_iff.mpr none]
  | @cons lists i x rest out front _ ih =>
    obtain ⟨before, after⟩ := Merge.flatten_of_getElem? front
    rw [before]
    rw [after] at ih
    exact (ih.cons x).trans List.perm_middle.symm

/-- One more element, in front of one of the lists. -/
theorem Interleaves.prepend {α : Type} {lists : List (List α)} {out rest : List α} {i : Nat}
    (h : Interleaves lists out) (here : lists[i]? = some rest) (x : α) :
    Interleaves (lists.set i (x :: rest)) (x :: out) := by
  obtain ⟨hi, rfl⟩ := List.getElem?_eq_some_iff.mp here
  refine .cons (List.getElem?_set_self hi) ?_
  rwa [List.set_set, List.set_getElem_self]

namespace Merge

open SortedSource (Accounts)

variable {S σ ρ : Type}

/-! ## Giving out records -/

section Sources

variable [SortedSource (StateM S) σ ρ] {q q' : Merge σ ρ} {s s' : S} {x : ρ}

/-- Every record counts towards those that may come out. -/
theorem remaining_lt_of_next (h : (next q : StateM S _).run s = ((some (.ok x), q'), s')) :
    q'.remaining < q.remaining := by
  cases next_run h with
  | record more _ _ leaves =>
    have one : q'.remaining = q.remaining - 1 := leaves.remaining
    omega

/-! ## Accounting for the records -/

variable {Open : σ → Prop} {Y : σ → List ρ → Prop} {n : Nat}

/-- The streams of a merge of `n` sources are told apart by their places, and are open. -/
structure IsOpen (Open : σ → Prop) (n : Nat) (q : Merge σ ρ) : Prop where
  distinct : (q.heap.toList.map (·.index)).Nodup
  each : ∀ t ∈ q.heap.toList, t.index < n ∧ Open t.source

/-- A merge of `n` sources owes an interleaving of what they owe, unless its limit stops it. -/
def Owes (Y : σ → List ρ → Prop) (n : Nat) (q : Merge σ ρ) (out : List ρ) : Prop :=
  out.length < q.remaining →
    ∃ lists, lists.length = n ∧ Represents Y q.heap.toList lists ∧ Interleaves lists out

omit [SortedSource (StateM S) σ ρ] in
/-- Before its last record, a stream stood for that record alone. -/
theorem Represents.unfinish {t : MergeStream σ ρ} {rest : List (MergeStream σ ρ)}
    {lists : List (List ρ)} (h : Represents Y rest lists)
    (distinct : ((t :: rest).map (·.index)).Nodup) (inside : t.index < lists.length)
    (owes : Y t.source []) :
    lists[t.index]? = some [] ∧ Represents Y (t :: rest) (lists.set t.index [t.current]) := by
  have fresh : ∀ u ∈ rest, u.index ≠ t.index := by
    rw [List.map_cons, List.nodup_cons] at distinct
    exact fun u hu eq => distinct.1 (eq ▸ List.mem_map_of_mem hu)
  -- no other stream has its place, so its list had nothing left
  refine ⟨?_, distinct, fun u hu => ?_, fun i xs hi hxs => ?_⟩
  · have here := List.getElem?_eq_getElem inside
    rw [here]
    refine congrArg some (Decidable.byContradiction fun some => ?_)
    obtain ⟨u, hu, same⟩ := h.whole _ _ here some
    exact fresh u hu same
  · rcases List.mem_cons.mp hu with rfl | hu
    · exact ⟨[], List.getElem?_set_self inside, owes⟩
    · obtain ⟨rest, hlist, gives⟩ := h.each u hu
      exact ⟨rest, by rwa [List.getElem?_set_ne (fresh u hu).symm], gives⟩
  · by_cases hit : t.index = i
    · exact ⟨t, List.mem_cons_self, hit⟩
    · rw [List.getElem?_set_ne hit] at hi
      obtain ⟨u, hu, same⟩ := h.whole i xs hi hxs
      exact ⟨u, List.mem_cons_of_mem _ hu, same⟩

omit [SortedSource (StateM S) σ ρ] in
/-- Before it advanced, a stream stood for one record more. -/
theorem Represents.retreat {t : MergeStream σ ρ} {rest : List (MergeStream σ ρ)}
    {lists : List (List ρ)} {source : σ}
    (h : Represents Y ({ t with current := x, source } :: rest) lists)
    (owes : ∀ xs, Y source xs → Y t.source (x :: xs)) :
    ∃ xs, lists[t.index]? = some xs ∧
      Represents Y (t :: rest) (lists.set t.index (t.current :: xs)) := by
  obtain ⟨xs, hlist, gives⟩ := h.each _ List.mem_cons_self
  have inside := (List.getElem?_eq_some_iff.mp hlist).1
  refine ⟨x :: xs, hlist, h.distinct, fun u hu => ?_, fun i ys hi hys => ?_⟩
  · rcases List.mem_cons.mp hu with rfl | hu
    · exact ⟨x :: xs, List.getElem?_set_self inside, owes xs gives⟩
    · obtain ⟨rest, hlist', gives'⟩ := h.each u (List.mem_cons_of_mem _ hu)
      have other : t.index ≠ u.index := (h.ne_index hu).symm
      exact ⟨rest, by rwa [List.getElem?_set_ne other], gives'⟩
  · by_cases hit : t.index = i
    · exact ⟨t, List.mem_cons_self, hit⟩
    · rw [List.getElem?_set_ne hit] at hi
      obtain ⟨u, hu, rfl⟩ := h.whole i ys hi hys
      have other := (List.mem_cons.mp hu).resolve_left fun eq => hit (by rw [eq])
      exact ⟨u, List.mem_cons_of_mem _ other, rfl⟩

/-- What the sources owed before a stream was asked, from what they owe afterwards. -/
theorem Asked.represents (accounts : Accounts (fun source (_ : S) => Open source) Y)
    {t : MergeStream σ ρ} {rest streams : List (MergeStream σ ρ)} {lists : List (List ρ)}
    (asked : Asked rest t s streams)
    (isOpen : Open t.source) (distinct : ((t :: rest).map (·.index)).Nodup)
    (inside : t.index < lists.length) (h : Represents Y streams lists) :
    ∃ xs, lists[t.index]? = some xs ∧
      Represents Y (t :: rest) (lists.set t.index (t.current :: xs)) := by
  cases asked with
  | ended hnext => exact ⟨[], h.unfinish distinct inside (accounts.finish isOpen hnext)⟩
  | goesOn hnext => exact h.retreat (accounts.record isOpen hnext).2

theorem Asked.isOpen (accounts : Accounts (fun source (_ : S) => Open source) Y)
    {t : MergeStream σ ρ} {rest streams : List (MergeStream σ ρ)} (asked : Asked rest t s streams)
    (isOpen : ∀ u ∈ t :: rest, u.index < n ∧ Open u.source) :
    ∀ u ∈ streams, u.index < n ∧ Open u.source := by
  cases asked with
  | ended _ => exact fun u hu => isOpen u (List.mem_cons_of_mem _ hu)
  | goesOn hnext =>
    intro u hu
    obtain ⟨inside, open_⟩ := isOpen t List.mem_cons_self
    rcases List.mem_cons.mp hu with rfl | hu
    · exact ⟨inside, (accounts.record open_ hnext).1⟩
    · exact isOpen u (List.mem_cons_of_mem _ hu)

theorem Asked.indices {t : MergeStream σ ρ} {rest streams : List (MergeStream σ ρ)}
    (asked : Asked rest t s streams) (distinct : ((t :: rest).map (·.index)).Nodup) :
    (streams.map (·.index)).Nodup := by
  cases asked with
  | ended _ => exact (List.nodup_cons.mp distinct).2
  | goesOn _ => exact distinct

/-- Merges of sources that account for their records do so, too. -/
theorem accounts (h : Accounts (fun source (_ : S) => Open source) Y) (n : Nat) :
    Accounts (fun q (_ : S) => IsOpen Open n q) (Owes Y n) where
  record {q q' x s s'} isOpen hnext := by
    cases next_run hnext with
    | @record t rest streams _ _ perm asked leaves =>
      obtain ⟨remaining, leaves⟩ := leaves
      have distinct : ((t :: rest).map (·.index)).Nodup :=
        (perm.map (·.index)).nodup_iff.mp isOpen.distinct
      have each : ∀ u ∈ t :: rest, u.index < n ∧ Open u.source :=
        fun u hu => isOpen.each u (perm.mem_iff.mpr hu)
      dsimp only at remaining
      rcases leaves with perm' | ⟨zero, empty⟩
      · refine ⟨⟨(perm'.map (·.index)).nodup_iff.mpr (asked.indices distinct),
          fun u hu => asked.isOpen h each u (perm'.mem_iff.mp hu)⟩, fun xs owes few => ?_⟩
        rw [List.length_cons] at few
        -- backwards: from what is owed afterwards to what was owed before
        obtain ⟨lists, rfl, represents, interleaves⟩ := owes (by omega)
        obtain ⟨inside, open_⟩ := each t List.mem_cons_self
        obtain ⟨ys, here, represents'⟩ :=
          asked.represents h open_ distinct inside (represents.perm perm'.symm)
        exact ⟨_, List.length_set, represents'.perm perm, interleaves.prepend here _⟩
      · refine ⟨⟨by simp [empty], by simp [empty]⟩, fun xs _ few => ?_⟩
        -- the limit was reached with this record
        rw [List.length_cons] at few
        omega
  finish {q q' s s'} isOpen hnext few := by
    obtain ⟨zero | empty⟩ := next_run hnext
    · rw [zero] at few
      exact absurd few (Nat.not_lt_zero _)
    · rw [empty]
      have none : ∀ xs ∈ List.replicate n ([] : List ρ), xs = [] :=
        fun xs hxs => List.eq_of_mem_replicate hxs
      refine ⟨List.replicate n [], List.length_replicate, ⟨List.nodup_nil, by simp, ?_⟩, .nil none⟩
      intro i xs hi some
      exact absurd (none xs (List.mem_of_getElem? hi)) some

/-! ## Making a merge -/

/-- The streams of sources that were asked for their first record, from a place on. -/
inductive Polled (Open : σ → Prop) (Y : σ → List ρ → Prop) :
    (index : Nat) → List σ → List (MergeStream σ ρ) → Prop
  | nil {index : Nat} : Polled Open Y index [] []
  | ended {index : Nat} {source : σ} {rest : List σ} {streams : List (MergeStream σ ρ)}
      (owes : Y source []) (behind : Polled Open Y (index + 1) rest streams) :
      Polled Open Y index (source :: rest) streams
  | stream {index : Nat} {source source' : σ} {x : ρ} {rest : List σ}
      {streams : List (MergeStream σ ρ)} (isOpen : Open source')
      (owes : ∀ xs, Y source' xs → Y source (x :: xs))
      (behind : Polled Open Y (index + 1) rest streams) :
      Polled Open Y index (source :: rest) (⟨index, x, source'⟩ :: streams)

namespace Polled

variable {index : Nat} {sources : List σ} {streams : List (MergeStream σ ρ)}

omit [SortedSource (StateM S) σ ρ] in
theorem each (h : Polled Open Y index sources streams) :
    ∀ t ∈ streams, index ≤ t.index ∧ t.index < index + sources.length ∧ Open t.source := by
  induction h with
  | nil => simp
  | ended _ _ ih =>
    intro t ht
    obtain ⟨le, lt, isOpen⟩ := ih t ht
    rw [List.length_cons]
    exact ⟨by omega, by omega, isOpen⟩
  | stream isOpen _ _ ih =>
    intro t ht
    rw [List.length_cons]
    rcases List.mem_cons.mp ht with rfl | ht
    · exact ⟨Nat.le_refl _, Nat.lt_add_of_pos_right (Nat.succ_pos _), isOpen⟩
    · obtain ⟨le, lt, isOpen'⟩ := ih t ht
      exact ⟨by omega, by omega, isOpen'⟩

omit [SortedSource (StateM S) σ ρ] in
theorem distinct (h : Polled Open Y index sources streams) :
    (streams.map (·.index)).Nodup := by
  induction h with
  | nil => exact List.nodup_nil
  | ended _ _ ih => exact ih
  | stream _ _ behind ih =>
    rw [List.map_cons, List.nodup_cons]
    refine ⟨fun here => ?_, ih⟩
    obtain ⟨t, ht, same⟩ := List.mem_map.mp here
    have later := (behind.each t ht).1
    rw [same] at later
    exact absurd later (Nat.not_succ_le_self _)

omit [SortedSource (StateM S) σ ρ] in
/-- The sources owe the lists that their streams stand for. -/
theorem owes {lists : List (List ρ)} (h : Polled Open Y index sources streams)
    (length : lists.length = index + sources.length)
    (stand : ∀ t ∈ streams, ∃ rest, lists[t.index]? = some (t.current :: rest) ∧ Y t.source rest)
    (whole : ∀ i xs, index ≤ i → lists[i]? = some xs → xs ≠ [] → ∃ t ∈ streams, t.index = i) :
    List.Forall₂ Y sources (lists.drop index) := by
  -- by induction on the sources, each of which takes the list at its place
  induction h with
  | nil =>
    rw [List.drop_eq_nil_of_le (by rw [length]; exact Nat.le_refl _)]
    exact .nil
  | @ended index source rest streams owes behind ih =>
    rw [List.length_cons] at length
    have here : index < lists.length := by omega
    have empty : lists[index] = [] := Decidable.byContradiction fun some => by
      obtain ⟨t, ht, same⟩ := whole _ _ (Nat.le_refl _) (List.getElem?_eq_getElem here) some
      have := (behind.each t ht).1
      omega
    rw [List.drop_eq_getElem_cons here, empty]
    refine .cons owes (ih (by omega) stand fun i xs le => whole i xs (by omega))
  | @stream index source source' x rest streams isOpen owes behind ih =>
    rw [List.length_cons] at length
    obtain ⟨xs, hlist, gives⟩ := stand _ List.mem_cons_self
    obtain ⟨here, eq⟩ := List.getElem?_eq_some_iff.mp hlist
    dsimp only at here eq gives
    rw [List.drop_eq_getElem_cons here, eq]
    refine .cons (owes xs gives) (ih (by omega) (fun t ht => stand t (List.mem_cons_of_mem _ ht)) ?_)
    intro i ys le hi some
    obtain ⟨t, ht, rfl⟩ := whole i ys (by omega) hi some
    rcases List.mem_cons.mp ht with rfl | ht
    · dsimp only at le
      omega
    · exact ⟨t, ht, rfl⟩

end Polled

/-- Every source is asked, and has a stream unless it ended. -/
theorem collect_ok (accounts : Accounts (fun source (_ : S) => Open source) Y) {index : Nat}
    {sources : List σ} (isOpen : ∀ source ∈ sources, Open source)
    {heap heap' : Array (MergeStream σ ρ)}
    (h : (collect index sources heap : StateM S _).run s = (.ok heap', s')) :
    ∃ streams, heap'.toList = heap.toList ++ streams ∧ Polled Open Y index sources streams := by
  induction sources generalizing index heap s with
  | nil =>
    obtain rfl : heap = heap' := by cases h; rfl
    exact ⟨[], (List.append_nil _).symm, .nil⟩
  | cons source rest ih =>
    obtain ⟨open_, others⟩ := List.forall_mem_cons.mp isOpen
    -- there is a merge, so the source neither failed nor could not be closed
    rcases hnext : (SortedSource.next source : StateM S _).run s with ⟨⟨_ | e | x, source₁⟩, s₁⟩
    · rcases hclose : (SortedSource.close source₁ : StateM S _).run s₁ with ⟨⟨e | _, source₂⟩, s₂⟩
      · obtain ⟨_, failed⟩ : ∃ t, (collect index (source :: rest) heap : StateM S _).run s =
            (.error e, t) := collect_of_close_error hnext hclose
        cases failed.symm.trans h
      · rw [collect_of_end hnext hclose] at h
        obtain ⟨streams, whole, polled⟩ := ih others h
        exact ⟨streams, whole, .ended (accounts.finish open_ hnext) polled⟩
    · obtain ⟨_, failed⟩ : ∃ t, (collect index (source :: rest) heap : StateM S _).run s =
          (.error e, t) := collect_of_error hnext
      cases failed.symm.trans h
    · rw [collect_of_record hnext] at h
      obtain ⟨open₁, owes⟩ := accounts.record open_ hnext
      obtain ⟨streams, whole, polled⟩ := ih others h
      refine ⟨_ :: streams, ?_, .stream open₁ owes polled⟩
      rw [whole, Array.toList_push, List.append_assoc]
      rfl

/-- A merge of sources owes an interleaving of lists that the sources owe. -/
theorem ofSources_ok (accounts : Accounts (fun source (_ : S) => Open source) Y) {sources : List σ}
    (isOpen : ∀ source ∈ sources, Open source) {limit : UInt64} {order : Comparator ρ}
    {verify : Bool}
    (h : (ofSources sources limit order verify : StateM S _).run s = (.ok q, s')) :
    IsOpen Open sources.length q ∧ ∀ out, Owes Y sources.length q out →
      out.length < (if limit = 0 then unlimited else limit.toNat) →
      ∃ lists, List.Forall₂ Y sources lists ∧ Interleaves lists out := by
  rw [ofSources] at h
  rcases hcollect : (collect 0 sources #[] : StateM S _).run s with ⟨_ | streams, s₁⟩
  · rw [run_bind_of_run hcollect] at h
    cases h
  · obtain ⟨_, rfl, polled⟩ := collect_ok accounts isOpen hcollect
    have perm := arrange_run order verify streams
    rw [run_bind_of_run hcollect] at h
    -- arranging the streams moves them about and leaves what they stand for
    rcases harrange : (arrange order verify streams).runFresh with ⟨heap, _ | violation⟩
    · simp only [harrange] at h
      rw [harrange] at perm
      cases h
      refine ⟨⟨(perm.map _).nodup_iff.mpr polled.distinct, fun t ht => ?_⟩, fun out owes few => ?_⟩
      · obtain ⟨-, inside, open_⟩ := polled.each t (perm.mem_iff.mp ht)
        exact ⟨by omega, open_⟩
      · obtain ⟨lists, length, represents, interleaves⟩ := owes few
        have represents' := represents.perm perm.symm
        refine ⟨lists, ?_, interleaves⟩
        exact polled.owes (by omega) represents'.each fun i xs _ => represents'.whole i xs
    · simp only [harrange] at h
      cases h

end Sources

/-! ## Ending -/

variable [SortedSource (StateM S) σ ρ]

/-- How many more records may come out of memory, or of a merge. -/
def atMost : InMemory ρ ⊕ Merge σ ρ → Nat
  | .inl memory => memory.records.length
  | .inr q => q.remaining

theorem atMost_lt_of_next {source source' : InMemory ρ ⊕ Merge σ ρ} {x : ρ} {s s' : S}
    (h : (SortedSource.next source : StateM S _).run s = ((some (.ok x), source'), s')) :
    atMost source' < atMost source := by
  cases source with
  | inl memory =>
    obtain ⟨_ | ⟨y, ys⟩⟩ := memory
    · cases h
    · cases h
      exact Nat.lt_succ_self _
  | inr q =>
    rcases hnext : (SortedSource.next q : StateM S _).run s with ⟨⟨step, q'⟩, s₁⟩
    rw [SortedSource.next_inr hnext] at h
    cases h
    exact remaining_lt_of_next hnext

/-- Whatever its sources do, and whatever the comparator says, a merge ends. -/
theorem drainOnto_ends (source : InMemory ρ ⊕ Merge σ ρ) (s : S) (count : Nat)
    (many : atMost source < count) (taken : List ρ) :
    ∃ out ending source' s', (SortedSource.drainOnto count taken source : StateM S _).run s =
      (((out, ending), source'), s') ∧ (ending = .finished ∨ ∃ e, ending = .failed e) := by
  induction count generalizing taken source s with
  | zero => omega
  | succ count ih =>
    rw [SortedSource.drainOnto]
    rcases hnext : (SortedSource.next source : StateM S _).run s with ⟨⟨_ | e | x, source₁⟩, s₁⟩ <;>
      rw [run_bind_of_run hnext]
    · exact ⟨_, _, _, _, rfl, .inl rfl⟩
    · exact ⟨_, _, _, _, rfl, .inr ⟨e, rfl⟩⟩
    · have fewer := atMost_lt_of_next hnext
      exact ih source₁ s₁ (by omega) (x :: taken)

end Merge
end ExternalSort
