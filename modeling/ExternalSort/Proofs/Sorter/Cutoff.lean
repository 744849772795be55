/-
  ExternalSort.Proofs.Sorter.Cutoff

  What the cutoff of a sorter with a limit is good for.

  The worst entry seen comes behind all entries written since its count was
  reset, and the other count tells how many of them are not behind the median. A
  spill adds its own entries to both counts, and an anchor that is chosen anew
  starts with them. So a cutoff, which is an anchor whose count reached the
  limit, has `limit` written entries before everything it rejects.
-/

import ExternalSort.Proofs.Order.Partition
import ExternalSort.Proofs.Sorter.Entries

namespace ExternalSort

open StableSort (askLess)

variable {ρ : Type}

/-! ## What a spill teaches -/

/-- The cutoff of a sorter with a limit, and what it is learnt from. -/
structure Anchors (ρ : Type) where
  cutoff : Option (Entry ρ)
  worstSeen : Option (Entry ρ)
  worstCount : Nat
  lastMedian : Option (Entry ρ)
  medianCount : Nat

namespace Anchors

variable (order : Comparator ρ) (limit : Nat) (a : Anchors ρ) (entries : List (Entry ρ))
  (worst median : Entry ρ)

/-- Whether the worst entry of a spill is the worst one seen. -/
def outranked : Bool :=
  match a.worstSeen with
  | some seen => if 0 < a.worstCount then entryOrder order seen worst == .lt else true
  | none => true

/-- The median that a spill is counted for: its own, if a count starts with it. -/
def reference : Entry ρ := if a.medianCount = 0 then median else a.lastMedian.getD median

/-- The anchors after they have counted the entries of a spill. -/
def count : Anchors ρ :=
  { a with
    worstSeen := if a.outranked order worst then some worst else a.worstSeen
    worstCount := a.worstCount + entries.length
    lastMedian := some (a.reference median)
    medianCount := a.medianCount + noWorse (entryOrder order) (a.reference median) entries }

/-- The better one of the cutoff and an anchor. -/
def promoted (anchor : Option (Entry ρ)) : Option (Entry ρ) :=
  match anchor with
  | none => a.cutoff
  | some e => if a.cutoff.all fun c => entryOrder order e c == .lt then some e else a.cutoff

/-- The anchors after the worst one was promoted, if its count allows it. -/
def promoteWorst : Anchors ρ :=
  if limit ≤ a.worstCount then
    { a with cutoff := a.promoted order a.worstSeen, worstCount := 0 }
  else a

/-- The anchors after the median was promoted, if its count allows it. -/
def promoteMedian : Anchors ρ :=
  if limit ≤ a.medianCount then
    { a with cutoff := a.promoted order a.lastMedian, medianCount := 0 }
  else a

/-- The anchors after a spill. -/
def learn : Anchors ρ :=
  ((a.count order entries worst median).promoteWorst order limit).promoteMedian order limit

end Anchors

namespace TopK

/-- The cutoff of a sorter, and what it is learnt from. -/
def anchors (t : TopK ρ) : Anchors ρ :=
  ⟨t.cutoff, t.worstSeen, t.worstCount, t.lastMedian, t.medianCount⟩

/-- The sorter with other anchors. -/
def setAnchors (t : TopK ρ) (a : Anchors ρ) : TopK ρ :=
  { t with
    cutoff := a.cutoff
    worstSeen := a.worstSeen
    worstCount := a.worstCount
    lastMedian := a.lastMedian
    medianCount := a.medianCount }

section Learning

variable {t : TopK ρ} [Std.TransCmp t.order] {worst median : Entry ρ}

theorem beats_eq (e : Entry ρ) (other : Option (Entry ρ)) :
    t.beats e other = pure (other.all fun o => entryOrder t.order e o == .lt) := by
  cases other with
  | none => rfl
  | some o => rw [beats, less_eq, askLess]; rfl

theorem replacesWorst_eq (worst : Entry ρ) :
    t.replacesWorst worst = pure (t.anchors.outranked t.order worst) := by
  rw [replacesWorst, Anchors.outranked]
  show _ = pure (match t.worstSeen with | some seen => _ | none => _)
  cases t.worstSeen with
  | none => rfl
  | some seen =>
    by_cases counted : 0 < t.worstCount
    · simp [counted, anchors, less_eq, askLess]
    · simp [counted, anchors]

/-- Halving finds the number of entries that are not behind the anchor. -/
theorem partitionPoint_anchor (sorted : InOrder (entryOrder t.order) t.data.toList)
    (anchor : Entry ρ) :
    partitionPoint (m := Checked) (fun e => do return !(← t.less anchor e)) t.data =
      pure (noWorse (entryOrder t.order) anchor t.data.toList) := by
  have pure_test : (fun e => do return !(← t.less anchor e) : Entry ρ → Checked Bool) =
      fun e => pure (entryOrder t.order e anchor).isLE := by
    funext e
    rw [less_eq, askLess, pure_bind]
    congr 1
    have swap : entryOrder t.order e anchor = (entryOrder t.order anchor e).swap :=
      Std.OrientedCmp.eq_swap
    rw [swap]
    cases entryOrder t.order anchor e <;> rfl
  have descends : Descends (fun e => (entryOrder t.order e anchor).isLE) t.data := by
    intro i j hi hj hij hpj
    rcases Nat.lt_or_eq_of_le hij with hlt | rfl
    · have le := List.pairwise_iff_getElem.mp sorted i j (by simpa using hi) (by simpa using hj) hlt
      rw [Array.getElem_toList, Array.getElem_toList] at le
      exact Std.TransCmp.isLE_trans le hpj
    · exact hpj
  rw [pure_test, partitionPoint_eq descends]
  rfl

theorem trackAnchors_eq (sorted : InOrder (entryOrder t.order) t.data.toList) :
    t.trackAnchors worst median =
      pure (t.setAnchors (t.anchors.count t.order t.data.toList worst median)) := by
  rw [trackAnchors, replacesWorst_eq, pure_bind]
  dsimp only
  rw [partitionPoint_anchor sorted, pure_bind]
  rfl

theorem promote_eq (anchor : Option (Entry ρ)) :
    t.promote anchor = pure (t.anchors.promoted t.order anchor) := by
  cases anchor with
  | none => rfl
  | some e =>
    rw [promote, beats_eq, pure_bind]
    rfl

theorem promoteWorst_eq :
    t.promoteWorst = pure (t.setAnchors (t.anchors.promoteWorst t.order t.limit)) := by
  rw [promoteWorst, promote_eq, Anchors.promoteWorst]
  by_cases enough : t.limit ≤ t.worstCount
  · rw [if_pos enough, pure_bind, if_pos (by exact enough)]
    rfl
  · rw [if_neg enough, if_neg (by exact enough)]
    rfl

theorem promoteMedian_eq :
    t.promoteMedian = pure (t.setAnchors (t.anchors.promoteMedian t.order t.limit)) := by
  rw [promoteMedian, promote_eq, Anchors.promoteMedian]
  by_cases enough : t.limit ≤ t.medianCount
  · rw [if_pos enough, pure_bind, if_pos (by exact enough)]
    rfl
  · rw [if_neg enough, if_neg (by exact enough)]
    rfl

end Learning
end TopK

/-! ## What was written -/

/-- What a sorter has written, as it knows it: its runs, and the entries written since either of its
    counts was reset. -/
structure Journal (ρ : Type) where
  runs : List (List (Entry ρ)) := []
  sinceWorst : List (Entry ρ) := []
  sinceMedian : List (Entry ρ) := []

/-- All entries that were written. -/
def Journal.written (j : Journal ρ) : List (Entry ρ) := j.runs.flatten

/-- The journal after a spill of the given entries. A count that is zero then was reset. -/
def Journal.write (j : Journal ρ) (entries : List (Entry ρ)) (a : Anchors ρ) : Journal ρ where
  runs := if entries.isEmpty then j.runs else j.runs ++ [entries]
  sinceWorst := if a.worstCount = 0 then [] else j.sinceWorst ++ entries
  sinceMedian := if a.medianCount = 0 then [] else j.sinceMedian ++ entries

theorem Journal.written_write (j : Journal ρ) (entries : List (Entry ρ)) (a : Anchors ρ) :
    (j.write entries a).written = j.written ++ entries := by
  rw [written, written, write]
  cases entries with
  | nil => simp
  | cons e entries => simp

/-- What the anchors of a sorter say about the entries that it has written. -/
structure Counts (order : Comparator ρ) (limit : Nat) (a : Anchors ρ) (j : Journal ρ) : Prop where
  cutoff : ∀ c, a.cutoff = some c → limit ≤ noWorse (entryOrder order) c j.written
  worst : ∀ e ∈ j.sinceWorst, ∃ w, a.worstSeen = some w ∧ (entryOrder order e w).isLE
  worstCount : a.worstCount = j.sinceWorst.length
  medianCount : a.medianCount =
    a.lastMedian.elim 0 fun m => noWorse (entryOrder order) m j.sinceMedian
  /-- The median itself is counted. -/
  counted : a.medianCount = 0 → j.sinceMedian = []
  pastWorst : j.sinceWorst <:+ j.written
  pastMedian : j.sinceMedian <:+ j.written

namespace Counts

variable {order : Comparator ρ} {limit : Nat} {a : Anchors ρ} {j : Journal ρ}
  {entries : List (Entry ρ)} {worst median : Entry ρ}

theorem start (order : Comparator ρ) (limit : Nat) :
    Counts order limit (⟨none, none, 0, none, 0⟩ : Anchors ρ) {} where
  cutoff c none := by cases none
  worst e none := by cases none
  worstCount := rfl
  medianCount := rfl
  counted _ := rfl
  pastWorst := List.suffix_rfl
  pastMedian := List.suffix_rfl

section Valid

variable [Std.TransCmp order]

/-- The worst entry seen comes behind those of the spill, too. -/
theorem worst_count (h : Counts order limit a j)
    (last : ∀ e ∈ entries, (entryOrder order e worst).isLE) :
    ∀ e ∈ j.sinceWorst ++ entries, ∃ w,
      (if a.outranked order worst then some worst else a.worstSeen) = some w ∧
        (entryOrder order e w).isLE := by
  intro e he
  by_cases counted : 0 < a.worstCount
  · -- something was written since the reset, so there is a worst entry to compare with
    obtain ⟨x, hx⟩ := List.exists_mem_of_length_pos (h.worstCount ▸ counted)
    obtain ⟨seen, hseen, -⟩ := h.worst x hx
    have behind (e : Entry ρ) (he : e ∈ j.sinceWorst) : (entryOrder order e seen).isLE := by
      obtain ⟨w, hw, le⟩ := h.worst e he
      obtain rfl := Option.some.inj (hseen.symm.trans hw)
      exact le
    have outranked : a.outranked order worst = (entryOrder order seen worst == .lt) := by
      rw [Anchors.outranked, hseen]
      exact if_pos counted
    rw [outranked, hseen]
    by_cases hlt : entryOrder order seen worst = .lt
    · refine ⟨worst, by rw [hlt]; rfl, ?_⟩
      rcases List.mem_append.mp he with he | he
      · exact Std.TransCmp.isLE_trans (behind e he) (by rw [hlt]; rfl)
      · exact last e he
    · refine ⟨seen, by rw [beq_eq_false_iff_ne.mpr hlt]; rfl, ?_⟩
      rcases List.mem_append.mp he with he | he
      · exact behind e he
      · exact Std.TransCmp.isLE_trans (last e he) (isLE_of_not_lt hlt)
  · -- the worst entry is chosen anew
    have none : j.sinceWorst = [] := by
      rw [← List.length_eq_zero_iff, ← h.worstCount]
      omega
    have outranked : a.outranked order worst = true := by
      rw [Anchors.outranked]
      cases a.worstSeen with
      | none => rfl
      | some seen => exact if_neg counted
    rw [none] at he
    exact ⟨worst, by rw [outranked]; rfl, last e he⟩

omit [Std.TransCmp order] in
/-- The count of the median is that of the entries that are not behind it. -/
theorem median_count (h : Counts order limit a j) :
    a.medianCount + noWorse (entryOrder order) (a.reference median) entries =
      noWorse (entryOrder order) (a.reference median) (j.sinceMedian ++ entries) := by
  rw [noWorse_append, Nat.add_right_cancel_iff, Anchors.reference]
  by_cases zero : a.medianCount = 0
  · rw [h.counted zero, zero]
    rfl
  · rw [if_neg zero]
    have sum := h.medianCount
    cases hmedian : a.lastMedian with
    | none =>
      rw [hmedian] at sum
      exact absurd sum zero
    | some m =>
      rw [hmedian] at sum
      exact sum

theorem count (h : Counts order limit a j)
    (last : ∀ e ∈ entries, (entryOrder order e worst).isLE) (hmedian : median ∈ entries) :
    Counts order limit (a.count order entries worst median)
      ⟨j.runs ++ [entries], j.sinceWorst ++ entries, j.sinceMedian ++ entries⟩ := by
  have written : (⟨j.runs ++ [entries], j.sinceWorst ++ entries, j.sinceMedian ++ entries⟩ :
      Journal ρ).written = j.written ++ entries := by
    simp [Journal.written]
  refine ⟨fun c hc => ?_, h.worst_count last, ?_, h.median_count, fun none => ?_, ?_, ?_⟩
  · rw [written, noWorse_append]
    exact Nat.le_add_right_of_le (h.cutoff c hc)
  · show a.worstCount + entries.length = _
    rw [List.length_append, h.worstCount]
  · -- a count that starts anew counts the median itself
    exfalso
    have zero : a.medianCount = 0 := Nat.eq_zero_of_add_eq_zero_right none
    have behind := List.countP_eq_zero.mp (Nat.eq_zero_of_add_eq_zero_left none) median hmedian
    rw [Anchors.reference, if_pos zero] at behind
    exact behind Std.ReflCmp.isLE_rfl
  · rw [written]
    exact List.suffix_append_self_iff.mpr h.pastWorst
  · rw [written]
    exact List.suffix_append_self_iff.mpr h.pastMedian

end Valid

/-- An anchor that enough entries are not behind may become the cutoff. -/
theorem promoted (h : Counts order limit a j) {anchor : Option (Entry ρ)}
    (enough : ∀ e, anchor = some e → limit ≤ noWorse (entryOrder order) e j.written) :
    ∀ c, a.promoted order anchor = some c →
      limit ≤ noWorse (entryOrder order) c j.written := by
  intro c hc
  cases anchor with
  | none => exact h.cutoff c hc
  | some e =>
    rw [Anchors.promoted] at hc
    split at hc
    · exact enough c hc
    · exact h.cutoff c hc

theorem promoteWorst (h : Counts order limit a j) :
    Counts order limit (a.promoteWorst order limit)
      { j with sinceWorst :=
          if (a.promoteWorst order limit).worstCount = 0 then [] else j.sinceWorst } := by
  rw [Anchors.promoteWorst]
  by_cases enough : limit ≤ a.worstCount
  · rw [if_pos enough]
    refine ⟨h.promoted fun w hw => ?_, fun e he => ?_, rfl, h.medianCount, h.counted,
      List.nil_suffix, h.pastMedian⟩
    · -- all entries since the reset are counted, and none of them is behind
      have all : noWorse (entryOrder order) w j.sinceWorst = a.worstCount := by
        rw [h.worstCount, noWorse_eq_length]
        intro e he
        obtain ⟨w', hw', le⟩ := h.worst e he
        obtain rfl := Option.some.inj (hw.symm.trans hw')
        exact le
      exact Nat.le_trans (Nat.le_trans enough (Nat.le_of_eq all.symm))
        h.pastWorst.sublist.countP_le
    · exact absurd he List.not_mem_nil
  · rw [if_neg enough]
    split
    · next zero =>
      have none : j.sinceWorst = [] := List.length_eq_zero_iff.mp (h.worstCount.symm.trans zero)
      rw [← none]
      exact h
    · exact h

theorem promoteMedian (h : Counts order limit a j) :
    Counts order limit (a.promoteMedian order limit)
      { j with sinceMedian :=
          if (a.promoteMedian order limit).medianCount = 0 then [] else j.sinceMedian } := by
  rw [Anchors.promoteMedian]
  by_cases enough : limit ≤ a.medianCount
  · rw [if_pos enough]
    refine ⟨h.promoted fun m hm => ?_, h.worst, h.worstCount, ?_, fun _ => rfl, h.pastWorst,
      List.nil_suffix⟩
    · have count := h.medianCount
      rw [hm] at count
      exact Nat.le_trans (Nat.le_trans enough (Nat.le_of_eq count)) h.pastMedian.sublist.countP_le
    · show 0 = a.lastMedian.elim 0 fun m => noWorse (entryOrder order) m []
      cases a.lastMedian with
      | none => rfl
      | some m => rfl
  · rw [if_neg enough]
    split
    · next zero =>
      rw [← h.counted zero]
      exact h
    · exact h

/-- A spill leaves the counts as the journal has them. -/
theorem learn [Std.TransCmp order] (h : Counts order limit a j)
    (last : ∀ e ∈ entries, (entryOrder order e worst).isLE) (hmedian : median ∈ entries) :
    Counts order limit (a.learn order limit entries worst median)
      (j.write entries (a.learn order limit entries worst median)) := by
  have learnt := (h.count last hmedian).promoteWorst.promoteMedian
  have some : entries.isEmpty = false := by
    rw [List.isEmpty_eq_false_iff]
    exact List.ne_nil_of_mem hmedian
  have worstCount : (a.learn order limit entries worst median).worstCount =
      ((a.count order entries worst median).promoteWorst order limit).worstCount := by
    rw [Anchors.learn, Anchors.promoteMedian]
    split <;> rfl
  rw [Journal.write, some, worstCount]
  exact learnt

/-- Without entries the journal stays as it is. -/
theorem write_nil (h : Counts order limit a j) : j.write [] a = j := by
  have worst : (if a.worstCount = 0 then [] else j.sinceWorst ++ []) = j.sinceWorst := by
    split
    · next zero => exact (List.length_eq_zero_iff.mp (h.worstCount.symm.trans zero)).symm
    · exact List.append_nil _
  have median : (if a.medianCount = 0 then [] else j.sinceMedian ++ []) = j.sinceMedian := by
    split
    · next zero => exact (h.counted zero).symm
    · exact List.append_nil _
  rw [Journal.write, worst, median]
  rfl

end Counts

/-- A cutoff that is set stays, or a stricter one takes its place. -/
def Tightens (order : Comparator ρ) (before after : Option (Entry ρ)) : Prop :=
  ∀ c, before = some c → ∃ c', after = some c' ∧ (entryOrder order c' c).isLE

namespace Tightens

variable {order : Comparator ρ} [Std.TransCmp order]

theorem refl (cutoff : Option (Entry ρ)) : Tightens order cutoff cutoff :=
  fun c hc => ⟨c, hc, Std.ReflCmp.isLE_rfl⟩

theorem trans {before between after : Option (Entry ρ)} (h : Tightens order before between)
    (k : Tightens order between after) : Tightens order before after := by
  intro c hc
  obtain ⟨c', hc', le⟩ := h c hc
  obtain ⟨c'', hc'', le'⟩ := k c' hc'
  exact ⟨c'', hc'', Std.TransCmp.isLE_trans le' le⟩

theorem promoted (a : Anchors ρ) (anchor : Option (Entry ρ)) :
    Tightens order a.cutoff (a.promoted order anchor) := by
  intro c hc
  cases anchor with
  | none => exact refl _ c hc
  | some e =>
    rw [Anchors.promoted]
    split
    · next less =>
      rw [hc, Option.all_some, beq_iff_eq] at less
      exact ⟨e, rfl, by rw [less]; rfl⟩
    · exact refl _ c hc

theorem learn (limit : Nat) (a : Anchors ρ) (entries : List (Entry ρ)) (worst median : Entry ρ) :
    Tightens order a.cutoff (a.learn order limit entries worst median).cutoff := by
  have promoteWorst (a : Anchors ρ) : Tightens order a.cutoff (a.promoteWorst order limit).cutoff := by
    rw [Anchors.promoteWorst]
    split
    · exact promoted a a.worstSeen
    · exact refl a.cutoff
  have promoteMedian (a : Anchors ρ) :
      Tightens order a.cutoff (a.promoteMedian order limit).cutoff := by
    rw [Anchors.promoteMedian]
    split
    · exact promoted a a.lastMedian
    · exact refl a.cutoff
  exact (promoteWorst (a.count order entries worst median)).trans (promoteMedian _)

end Tightens

/-- What a spill of some entries teaches: its entries count, and the cutoff becomes no looser. -/
structure Anchors.Learns (order : Comparator ρ) (limit : Nat) (a : Anchors ρ)
    (entries : List (Entry ρ)) (a' : Anchors ρ) : Prop where
  counts : ∀ j, Counts order limit a j → Counts order limit a' (j.write entries a')
  tightens : Tightens order a.cutoff a'.cutoff

/-- Nothing is learnt where nothing is spilled. -/
theorem Anchors.Learns.nothing {order : Comparator ρ} [Std.TransCmp order] {limit : Nat}
    (a : Anchors ρ) : a.Learns order limit [] a :=
  ⟨fun _ h => by rwa [h.write_nil], .refl _⟩

theorem Anchors.Learns.learn {order : Comparator ρ} [Std.TransCmp order] {limit : Nat}
    {a : Anchors ρ} {entries : List (Entry ρ)} {worst median : Entry ρ}
    (last : ∀ e ∈ entries, (entryOrder order e worst).isLE) (hmedian : median ∈ entries) :
    a.Learns order limit entries (a.learn order limit entries worst median) :=
  ⟨fun _ h => h.learn last hmedian, .learn limit a entries worst median⟩

namespace TopK

variable {t : TopK ρ}

/-- A spill learns from its entries, which are sorted. -/
theorem updateCutoff_leads [Std.TransCmp t.order] {s : Store}
    (sorted : InOrder (entryOrder t.order) t.data.toList)
    (some : t.data.toList ≠ []) {ok : Unit → TopK ρ × Store → Prop}
    {err : Failure → TopK ρ × Store → Prop}
    (h : ∀ a, t.anchors.Learns t.order t.limit t.data.toList a → ok () (t.setAnchors a, s)) :
    Leads updateCutoff (t, s) ok err := by
  have hpos : 0 < t.data.size := by
    rw [← Array.length_toList]
    exact List.length_pos_iff.mpr some
  have hback : t.data.back? = Option.some t.data[t.data.size - 1] := by
    rw [Array.back?, Array.getElem?_eq_getElem]
  have hmiddle : t.data[t.data.size / 2]? = Option.some t.data[t.data.size / 2] :=
    Array.getElem?_eq_getElem (by omega)
  have last : ∀ e ∈ t.data.toList, (entryOrder t.order e t.data[t.data.size - 1]).isLE := by
    intro e he
    obtain ⟨i, hi, rfl⟩ := List.mem_iff_getElem.mp he
    rw [Array.length_toList] at hi
    rw [Array.getElem_toList]
    rcases Nat.lt_or_eq_of_le (Nat.le_sub_one_of_lt hi) with hlt | rfl
    · have pair := List.pairwise_iff_getElem.mp sorted i (t.data.size - 1) (by simpa using hi)
        (by rw [Array.length_toList]; omega) hlt
      rwa [Array.getElem_toList, Array.getElem_toList] at pair
    · exact Std.ReflCmp.isLE_rfl
  have middle : t.data[t.data.size / 2] ∈ t.data.toList :=
    Array.mem_toList_iff.mpr (Array.getElem_mem (by omega))
  rw [updateCutoff]
  refine Leads.bind (Leads.of_get₂ ?_)
  dsimp only
  rw [hback, hmiddle]
  dsimp only
  -- the anchors count the spill, then either of them may become the cutoff
  have valid (a : Anchors ρ) : Std.TransCmp (t.setAnchors a).order := ‹_›
  have valid' (a b : Anchors ρ) : Std.TransCmp ((t.setAnchors a).setAnchors b).order := ‹_›
  rw [trackAnchors_eq sorted, pure_bind, promoteWorst_eq, pure_bind, promoteMedian_eq]
  exact Leads.bind (Leads.of_set₂ (Leads.of_pure (h _ (.learn last middle))))

/-- The anchors of a sorter are right about the records that it has spilled. -/
def Sound (t : TopK ρ) (spilled : List ρ) : Prop :=
  ∃ j : Journal ρ, Counts t.order t.limit t.anchors j ∧ (j.written.map (·.record)).Perm spilled

theorem Sound.learn {spilled : List ρ} {sorted : List (Entry ρ)} {a : Anchors ρ}
    (h : t.Sound spilled) (learns : t.anchors.Learns t.order t.limit sorted a) :
    (t.setAnchors a).Sound (spilled ++ sorted.map (·.record)) := by
  obtain ⟨j, counts, perm⟩ := h
  refine ⟨j.write sorted a, learns.counts j counts, ?_⟩
  rw [Journal.written_write, List.map_append]
  exact perm.append_right _

theorem Sound.perm {spilled spilled' : List ρ} (h : t.Sound spilled)
    (perm : spilled.Perm spilled') : t.Sound spilled' := by
  obtain ⟨j, counts, same⟩ := h
  exact ⟨j, counts, same.trans perm⟩

/-- Enough of the spilled records are not behind the cutoff. -/
theorem Sound.cutoff {spilled : List ρ} (h : t.Sound spilled) {c : Entry ρ}
    (hc : t.cutoff = some c) : t.limit ≤ noWorse t.order c.record spilled := by
  obtain ⟨j, counts, perm⟩ := h
  rw [← noWorse_perm perm, noWorse, List.countP_map]
  apply Nat.le_trans (counts.cutoff c hc)
  apply List.countP_mono_left
  intro e _ le
  exact isLE_of_entryOrder le

/-! ## Rejecting records -/

/-- A record that does not come before an entry is not less than any record that this entry
    bounds. -/
theorem leading_reject {order : Comparator ρ} [Std.TransCmp order] {next limit : Nat}
    {e : Entry ρ} {resident : Resident ρ} (xs : List ρ) (enough : limit ≤ noWorse order e.record xs)
    (rejected : entryOrder order ⟨resident, next⟩ e ≠ .lt) :
    leading order limit (xs ++ [resident.record]) = leading order limit xs := by
  have removed := leading_remove order (k := limit) xs [] (y := resident.record) ?_
  · simpa using removed
  · have le : (order e.record resident.record).isLE := isLE_of_not_entryOrder_lt rejected
    have := noWorse_mono le xs
    omega

/-- Whether an entry comes before the one that it has to beat: the cutoff as long as there is room,
    and then the greatest entry in memory. -/
def takes (t : TopK ρ) (e : Entry ρ) : Bool :=
  (if t.data.size < t.limit then t.cutoff else t.data[0]?).all fun bound =>
    entryOrder t.order e bound == .lt

section Taking

variable [Std.TransCmp t.order]

theorem admits_eq (resident : Resident ρ) : t.admits resident = pure (t.takes ⟨resident, t.nextSeq⟩) := by
  rw [admits, takes]
  split
  · exact beats_eq _ _
  · exact beats_eq _ _

omit [Std.TransCmp t.order] in
/-- An entry that is taken comes before the greatest one in memory, if there is no room for both. -/
theorem lt_top_of_takes {e top : Entry ρ} (taken : t.takes e = true) (full : t.data.size = t.limit)
    (htop : t.data[0]? = some top) : entryOrder t.order e top = .lt := by
  rw [takes, if_neg (Nat.not_lt_of_le (Nat.le_of_eq full.symm)), htop, Option.all_some,
    beq_iff_eq] at taken
  exact taken

/-- A record that is not taken is not among the first `limit` of those taken so far. -/
theorem leading_of_not_takes {spilled : List ρ} {entries : List (Entry ρ)}
    (held : Held t.order t.limit t.data entries) (positive : 0 < t.limit) (sound : t.Sound spilled)
    {resident : Resident ρ} {next : Nat} (rejected : t.takes ⟨resident, next⟩ = false) :
    leading t.order t.limit (spilled ++ entries.map (·.record) ++ [resident.record]) =
      leading t.order t.limit (spilled ++ entries.map (·.record)) := by
  rw [takes] at rejected
  -- with room left only the cutoff rejects, else the greatest entry in memory does
  by_cases room : t.data.size < t.limit
  · rw [if_pos room] at rejected
    cases hcutoff : t.cutoff with
    | none =>
      rw [hcutoff] at rejected
      exact Bool.noConfusion rejected
    | some c =>
      rw [hcutoff, Option.all_some, beq_eq_false_iff_ne] at rejected
      apply leading_reject _ _ rejected
      rw [noWorse_append]
      exact Nat.le_trans (sound.cutoff hcutoff) (Nat.le_add_right _ _)
  · have full := Nat.le_antisymm held.size_le (Nat.le_of_not_lt room)
    have htop : t.data[0]? = some t.data[0] := Array.getElem?_eq_getElem (by omega)
    rw [if_neg room, htop, Option.all_some, beq_eq_false_iff_ne] at rejected
    apply leading_reject _ _ rejected
    have all : noWorse t.order t.data[0].record (entries.map (·.record)) = t.limit := by
      rw [noWorse_eq_length, List.length_map, held.length_eq, full]
      intro a ha
      obtain ⟨e, he, rfl⟩ := List.mem_map.mp ha
      exact isLE_of_entryOrder ((held.top full htop).2 e he)
    rw [noWorse_append, all]
    exact Nat.le_add_left _ _

end Taking
end TopK
end ExternalSort
