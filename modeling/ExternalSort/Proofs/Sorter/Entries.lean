/-
  ExternalSort.Proofs.Sorter.Entries

  The entries that a sorter with a limit has in memory.

  No two entries have arrived at once, so the order of entries leaves nothing
  open: entries that are sorted in any way are the stable sort of their records.
  An entry that leaves the heap has `limit` others before it.
-/

import ExternalSort.Proofs.Order.Heap
import ExternalSort.Proofs.Order.Leading
import ExternalSort.Proofs.Sorter.Backing
import ExternalSort.Sorter.TopK

namespace ExternalSort

open StableSort (askLess)

variable {ρ : Type}

/-! ## Comparing entries -/

/-- The order of entries: by record, then by arrival. -/
def entryOrder (order : Comparator ρ) (a b : Entry ρ) : Ordering :=
  (order a.record b.record).then (compare a.seq b.seq)

instance {order : Comparator ρ} [Std.TransCmp order] : Std.TransCmp (entryOrder order) :=
  have : Std.TransCmp fun a b : Entry ρ => order a.record b.record :=
    { eq_swap := Std.OrientedCmp.eq_swap
      isLE_trans := Std.TransCmp.isLE_trans }
  inferInstanceAs (Std.TransCmp (compareLex (fun a b : Entry ρ => order a.record b.record)
    (compareOn (·.seq))))

section Order

variable {order : Comparator ρ} {a b : Entry ρ}

theorem isLE_of_entryOrder (h : (entryOrder order a b).isLE) : (order a.record b.record).isLE := by
  rw [entryOrder] at h
  cases hab : order a.record b.record with
  | lt => rfl
  | eq => rfl
  | gt =>
    rw [hab] at h
    exact h

/-- Of two entries the later one comes first only if its record is less. -/
theorem lt_of_entryOrder (h : (entryOrder order b a).isLE) (later : a.seq < b.seq) :
    order b.record a.record = .lt := by
  rw [entryOrder] at h
  cases hba : order b.record a.record with
  | lt => rfl
  | eq =>
    rw [hba, Ordering.eq_then, Nat.compare_eq_gt.mpr later] at h
    exact Bool.noConfusion h
  | gt =>
    rw [hba] at h
    exact Bool.noConfusion h

/-- An entry that does not come before an earlier one is not less. -/
theorem isLE_of_not_entryOrder_lt [Std.TransCmp order] (h : entryOrder order b a ≠ .lt) :
    (order a.record b.record).isLE := by
  apply isLE_of_not_lt
  intro hlt
  exact h (by rw [entryOrder, hlt]; rfl)

end Order

/-! ## Entries that have arrived -/

/-- Entries in the order of their arrival, before the number `next`. -/
structure Arrived (next : Nat) (entries : List (Entry ρ)) : Prop where
  ascending : entries.Pairwise (·.seq < ·.seq)
  before : ∀ e ∈ entries, e.seq < next

namespace Arrived

variable {next : Nat} {entries : List (Entry ρ)}

theorem nil (next : Nat) : Arrived next ([] : List (Entry ρ)) :=
  ⟨List.Pairwise.nil, fun _ h => absurd h List.not_mem_nil⟩

theorem snoc (h : Arrived next entries) (resident : Resident ρ) :
    Arrived (next + 1) (entries ++ [⟨resident, next⟩]) := by
  constructor
  · refine List.pairwise_append.mpr ⟨h.ascending, List.pairwise_singleton _ _, ?_⟩
    intro a ha b hb
    obtain rfl := List.mem_singleton.mp hb
    exact h.before a ha
  · intro e he
    rcases List.mem_append.mp he with he | he
    · exact Nat.lt_succ_of_lt (h.before e he)
    · obtain rfl := List.mem_singleton.mp he
      exact Nat.lt_succ_self next

theorem sublist (h : Arrived next entries) {fewer : List (Entry ρ)} (sub : fewer.Sublist entries) :
    Arrived next fewer :=
  ⟨h.ascending.sublist sub, fun e he => h.before e (sub.mem he)⟩

end Arrived

/-- Entries that are sorted in any way have their records sorted stably. -/
theorem records_eq_stableSort {order : Comparator ρ} [Std.TransCmp order] {next : Nat}
    {entries sorted : List (Entry ρ)} (arrived : Arrived next entries) (perm : sorted.Perm entries)
    (inOrder : InOrder (entryOrder order) sorted) :
    sorted.map (·.record) = stableSort order (entries.map (·.record)) := by
  apply eq_stableSort
  · apply List.pairwise_map.mpr
    exact inOrder.imp isLE_of_entryOrder
  · intro x
    rw [List.filter_map, List.filter_map]
    have distinct : sorted.Pairwise fun a b => a.seq ≠ b.seq :=
      (perm.pairwise_iff Ne.symm).mpr (arrived.ascending.imp Nat.ne_of_lt)
    -- within a class both lists are in the order of arrival
    have ascending : (sorted.filter (tied order x ∘ (·.record))).Pairwise (·.seq < ·.seq) := by
      refine List.Pairwise.imp_of_mem ?_ ((inOrder.and distinct).filter _)
      rintro a b ha hb ⟨hle, hne⟩
      have same : tied order a.record b.record = true := by
        rw [← tied_congr (List.mem_filter.mp ha).2]
        exact (List.mem_filter.mp hb).2
      rw [tied, beq_iff_eq] at same
      rw [entryOrder, same, Ordering.eq_then, Nat.isLE_compare] at hle
      exact Nat.lt_of_le_of_ne hle hne
    apply congrArg
    apply List.Perm.eq_of_pairwise ?_ ascending (arrived.ascending.filter _) (perm.filter _)
    intro a b _ _ hab hba
    exact absurd hab (Nat.lt_asymm hba)

/-- The records of entries that are sorted are a run of the records that arrived. -/
theorem inOrder_and_ties_records {order : Comparator ρ} [Std.TransCmp order] {next : Nat}
    {entries sorted : List (Entry ρ)} (arrived : Arrived next entries) (perm : sorted.Perm entries)
    (inOrder : InOrder (entryOrder order) sorted) :
    InOrder order (sorted.map (·.record)) ∧
      Ties order (sorted.map (·.record)) (entries.map (·.record)) := by
  rw [records_eq_stableSort arrived perm inOrder]
  exact ⟨inOrder_stableSort _, ties_stableSort _⟩

/-- The greatest entry may leave when a lesser one arrives. -/
theorem leading_leave {order : Comparator ρ} [Std.TransCmp order] {next : Nat}
    {before behind : List (Entry ρ)} {top : Entry ρ} {resident : Resident ρ}
    (arrived : Arrived next (before ++ top :: behind))
    (greatest : ∀ e ∈ before ++ top :: behind, (entryOrder order e top).isLE)
    (less : entryOrder order ⟨resident, next⟩ top = .lt) (xs : List ρ) :
    leading order (before.length + behind.length + 1)
        (xs ++ (before ++ top :: behind).map (·.record) ++ [resident.record]) =
      leading order (before.length + behind.length + 1)
        (xs ++ (before ++ behind ++ [Entry.mk resident next]).map (·.record)) := by
  have removed := leading_remove order (k := before.length + behind.length + 1)
    (xs ++ before.map (·.record)) (behind.map (·.record) ++ [resident.record]) (y := top.record) ?_
  · simpa using removed
  · -- the entries before the greatest one, those behind it and the new one come before it
    have front : before.length ≤ noWorse order top.record (xs ++ before.map (·.record)) := by
      have all : noWorse order top.record (before.map (·.record)) = before.length := by
        rw [noWorse_eq_length, List.length_map]
        intro a ha
        obtain ⟨e, he, rfl⟩ := List.mem_map.mp ha
        exact isLE_of_entryOrder (greatest e (List.mem_append_left _ he))
      rw [noWorse_append, all]
      exact Nat.le_add_left _ _
    have back : (behind.map (·.record) ++ [resident.record]).countP
        (fun b => order b top.record == .lt) = behind.length + 1 := by
      rw [List.countP_eq_length.mpr, List.length_append, List.length_map, List.length_singleton]
      intro b hb
      rw [beq_iff_eq]
      rcases List.mem_append.mp hb with hb | hb
      · obtain ⟨e, he, rfl⟩ := List.mem_map.mp hb
        apply lt_of_entryOrder (greatest e (List.mem_append_right _ (List.mem_cons_of_mem _ he)))
        exact (List.pairwise_cons.mp (List.pairwise_append.mp arrived.ascending).2.1).1 e he
      · obtain rfl := List.mem_singleton.mp hb
        apply lt_of_entryOrder (b := ⟨resident, next⟩) (by rw [less]; rfl)
        exact arrived.before top (List.mem_append_right _ List.mem_cons_self)
    omega

/-! ## Entries in memory -/

/-- The array in memory holds the entries: as they arrived as long as there are fewer than `limit`,
    and then as a heap. -/
structure Held (order : Comparator ρ) (limit : Nat) (data : Array (Entry ρ))
    (entries : List (Entry ρ)) : Prop where
  perm : data.toList.Perm entries
  size_le : data.size ≤ limit
  short : data.size < limit → data.toList = entries
  full : data.size = limit → Heap.IsHeap (entryOrder order) data

theorem Held.length_eq {order : Comparator ρ} {limit : Nat} {data : Array (Entry ρ)}
    {entries : List (Entry ρ)} (held : Held order limit data entries) :
    entries.length = data.size := by
  rw [← held.perm.length_eq, Array.length_toList]

/-- The entries can be taken in the order in which they are in the array. -/
theorem Held.self {order : Comparator ρ} {limit : Nat} {data : Array (Entry ρ)}
    {entries : List (Entry ρ)} (held : Held order limit data entries) :
    Held order limit data data.toList :=
  ⟨List.Perm.refl _, held.size_le, fun _ => rfl, held.full⟩

theorem Held.isEmpty_iff {order : Comparator ρ} {limit : Nat} {data : Array (Entry ρ)}
    {entries : List (Entry ρ)} (held : Held order limit data entries) :
    data.isEmpty = true ↔ entries = [] := by
  rw [Array.isEmpty_iff_size_eq_zero, ← held.length_eq, List.length_eq_zero_iff]

theorem Held.empty (order : Comparator ρ) {limit : Nat} (positive : 0 < limit) :
    Held order limit #[] [] where
  perm := List.Perm.refl []
  size_le := Nat.zero_le limit
  short _ := rfl
  full none := absurd none (Nat.ne_of_lt positive)

/-- With `limit` entries in memory, none comes behind the one on top. -/
theorem Held.top {order : Comparator ρ} [Std.TransCmp order] {limit : Nat}
    {data : Array (Entry ρ)} {entries : List (Entry ρ)} (held : Held order limit data entries)
    (full : data.size = limit) {top : Entry ρ} (htop : data[0]? = some top) :
    top ∈ entries ∧ ∀ e ∈ entries, (entryOrder order e top).isLE := by
  obtain ⟨hpos, rfl⟩ := Array.getElem?_eq_some_iff.mp htop
  constructor
  · exact held.perm.mem_iff.mp (Array.mem_toList_iff.mpr (Array.getElem_mem hpos))
  · intro e he
    exact (held.full full).top hpos e (Array.mem_toList_iff.mp (held.perm.mem_iff.mpr he))

namespace TopK

variable {t : TopK ρ} [Std.TransCmp t.order] {entries : List (Entry ρ)}

theorem less_eq (t : TopK ρ) [Std.TransCmp t.order] : t.less = askLess (entryOrder t.order) := by
  funext a b
  rw [less, compareEntries, checkedCompare_eq_pure, pure_bind, pure_bind, askLess, entryOrder]

/-- The records in memory are sorted. -/
theorem sortData_leads {s : Store} (held : Held t.order t.limit t.data entries)
    {ok : Unit → TopK ρ × Store → Prop} {err : Failure → TopK ρ × Store → Prop}
    (h : ∀ sorted : List (Entry ρ), sorted.Perm entries → InOrder (entryOrder t.order) sorted →
      ok () ({ t with data := sorted.toArray }, s)) :
    Leads sortData (t, s) ok err := by
  rw [sortData]
  refine Leads.bind (Leads.of_get₂ ?_)
  dsimp only
  -- with `limit` entries the array is a heap, and is sorted as one
  split
  · next full =>
    obtain ⟨ys, hsort, hperm, inOrder⟩ := Heap.sortArray_eq (m := Checked) (held.full full)
    rw [less_eq, hsort]
    exact Leads.of_arrange rfl (h ys.toList (hperm.trans held.perm) inOrder)
  · rw [less_eq, StableSort.sort_eq]
    exact Leads.of_arrange rfl
      (h _ ((perm_stableSort _).trans held.perm) (inOrder_stableSort _))

variable [Storable ρ] (next : Nat) (resident : Resident ρ)

/-- While there are fewer than `limit` entries in memory, one more is put behind them. -/
theorem place_of_room (held : Held t.order t.limit t.data entries) (room : t.data.size < t.limit) :
    ∃ data, t.place ⟨resident, next⟩ = pure { t with data } ∧
      Held t.order t.limit data (entries ++ [⟨resident, next⟩]) := by
  have pushed : (t.data.push ⟨resident, next⟩).toList = entries ++ [⟨resident, next⟩] := by
    rw [Array.toList_push, held.short room]
  rw [place, if_pos room]
  dsimp only
  by_cases fills : (t.data.push ⟨resident, next⟩).size = t.limit
  · obtain ⟨ys, hmake, hperm, heap⟩ :=
      (Heap.makeArray_eq (t.data.push ⟨resident, next⟩) : ∃ ys,
        Heap.onArray (m := Checked) (Heap.make (askLess (entryOrder t.order))) _ = _ ∧ _)
    have size : ys.size = t.limit := by
      rw [← fills, ← Array.length_toList, hperm.length_eq, Array.length_toList]
    rw [pushed] at hperm
    rw [if_pos fills, less_eq, hmake, pure_bind]
    exact ⟨ys, rfl, hperm, Nat.le_of_eq size, fun short => absurd size (Nat.ne_of_lt short),
      fun _ => heap⟩
  · rw [if_neg fills]
    refine ⟨_, rfl, by rw [pushed], ?_, fun _ => pushed, fun full => absurd full fills⟩
    rw [Array.size_push]
    exact room

/-- When there are `limit` entries in memory, one that is not the greatest takes the place of the
    greatest. -/
theorem place_of_full (held : Held t.order t.limit t.data entries)
    (full : t.data.size = t.limit) (positive : 0 < t.limit) :
    ∃ data before top behind, entries = before ++ top :: behind ∧ t.data[0]? = some top ∧
      t.place ⟨resident, next⟩ =
        pure { t with data, memoryUsed := t.memoryUsed - top.footprint } ∧
      Held t.order t.limit data (before ++ behind ++ [⟨resident, next⟩]) := by
  have hpos : 0 < t.data.size := full ▸ positive
  -- the greatest entry goes to the end of the array, and the new one takes its place there
  obtain ⟨rest, hpop, hperm, hrest⟩ := Heap.popArray_eq (m := Checked) (held.full full) hpos
  obtain ⟨ys, hpush, hperm', heap⟩ := Heap.pushArray_eq (m := Checked) hrest ⟨resident, next⟩
  have htop : t.data[0]? = some t.data[0] := Array.getElem?_eq_getElem hpos
  obtain ⟨before, behind, rfl⟩ := List.append_of_mem (held.top full htop).1
  have left : rest.toList.Perm (before ++ behind) :=
    ((hperm.trans held.perm).trans List.perm_middle).cons_inv
  rw [Array.toList_push] at hperm'
  have perm := hperm'.trans (left.append_right _)
  have size : ys.size = t.limit := by
    have length := held.length_eq
    rw [List.length_append, List.length_cons, full] at length
    rw [← Array.length_toList, perm.length_eq, List.length_append, List.length_append,
      List.length_singleton, ← length, Nat.add_assoc]
  refine ⟨ys, before, t.data[0], behind, rfl, htop, ?_, perm, Nat.le_of_eq size,
    fun short => absurd size (Nat.ne_of_lt short), fun _ => heap⟩
  rw [place, if_neg (Nat.not_lt_of_le (Nat.le_of_eq full.symm)), less_eq, hpop, pure_bind]
  dsimp only
  rw [Array.back?_push, Array.pop_push, hpush, pure_bind]
  rfl

/-- How an entry is put among those in memory: behind the others, or in the place of the greatest one,
    which is charged no longer. -/
inductive Trades (t : TopK ρ) (entries : List (Entry ρ)) (entry : Entry ρ) :
    List (Entry ρ) → Nat → Prop
  | joins : Trades t entries entry (entries ++ [entry]) t.memoryUsed
  | leaves {before behind : List (Entry ρ)} {top : Entry ρ} (full : t.data.size = t.limit)
      (htop : t.data[0]? = some top) (split : entries = before ++ top :: behind) :
      Trades t entries entry (before ++ behind ++ [entry]) (t.memoryUsed - top.footprint)

variable {next : Nat} {resident : Resident ρ}

/-- With one more entry there are as many in memory, or the greatest one has left. -/
theorem place_eq (held : Held t.order t.limit t.data entries) (positive : 0 < t.limit)
    (next : Nat) (resident : Resident ρ) :
    ∃ data memoryUsed entries', t.place ⟨resident, next⟩ = pure { t with data, memoryUsed } ∧
      Held t.order t.limit data entries' ∧ Trades t entries ⟨resident, next⟩ entries' memoryUsed := by
  by_cases room : t.data.size < t.limit
  · obtain ⟨data, hplace, held'⟩ := place_of_room next resident held room
    exact ⟨data, t.memoryUsed, _, hplace, held', .joins⟩
  · have full := Nat.le_antisymm held.size_le (Nat.le_of_not_lt room)
    obtain ⟨data, before, top, behind, split, htop, hplace, held'⟩ :=
      place_of_full next resident held full positive
    exact ⟨data, _, _, hplace, held', .leaves full htop split⟩

namespace Trades

variable {entry : Entry ρ} {entries' : List (Entry ρ)} {used : Nat}

omit [Std.TransCmp t.order] in
theorem mem (trades : Trades t entries entry entries' used) : entry ∈ entries' := by
  cases trades with
  | joins => exact List.mem_append_right _ List.mem_cons_self
  | leaves full htop split => exact List.mem_append_right _ List.mem_cons_self

omit [Std.TransCmp t.order] in
theorem sublist (trades : Trades t entries entry entries' used) :
    entries'.Sublist (entries ++ [entry]) := by
  cases trades with
  | joins => exact List.Sublist.refl _
  | @leaves before behind top full htop split =>
    subst split
    exact ((List.Sublist.refl before).append (List.sublist_cons_self top behind)).append
      (List.Sublist.refl _)

omit [Std.TransCmp t.order] in
theorem arrived (trades : Trades t entries ⟨resident, next⟩ entries' used)
    (arrived : Arrived next entries) : Arrived (next + 1) entries' :=
  (arrived.snoc resident).sublist trades.sublist

/-- The greatest entry is not missed when a lesser one takes its place. -/
theorem leading_eq (trades : Trades t entries ⟨resident, next⟩ entries' used)
    (held : Held t.order t.limit t.data entries) (arrived : Arrived next entries)
    (lesser : ∀ top, t.data.size = t.limit → t.data[0]? = some top →
      entryOrder t.order ⟨resident, next⟩ top = .lt) (xs : List ρ) :
    leading t.order t.limit (xs ++ entries.map (·.record) ++ [resident.record]) =
      leading t.order t.limit (xs ++ entries'.map (·.record)) := by
  cases trades with
  | joins =>
    rw [List.map_append, List.append_assoc]
    rfl
  | @leaves before behind top full htop split =>
    subst split
    have length : t.limit = before.length + behind.length + 1 := by
      rw [← full, ← held.length_eq, List.length_append, List.length_cons, Nat.add_assoc]
    rw [length]
    exact leading_leave arrived (held.top full htop).2 (lesser top full htop) xs

end Trades

end TopK
end ExternalSort
