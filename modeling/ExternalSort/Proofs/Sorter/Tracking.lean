/-
  ExternalSort.Proofs.Sorter.Tracking

  What a sorter with a limit keeps track of.

  A journal has the entries of the runs that a sorter has written. While requests
  succeed, the entries in memory come before the cutoff, and they are a heap once
  there are as many as the limit; the anchors and their counts say of the journal
  what they are for; and the cutoff becomes no looser. A spill is where all of
  this changes at once, so what it leaves is said once (`Empties`), whichever
  request made it.
-/

import ExternalSort.Proofs.Sorter.Session
import Mathlib.Data.List.Forall2
import Mathlib.Data.List.Pairwise

namespace ExternalSort
namespace TopK

variable {ρ : Type} [Storable ρ]

/-! ## Requests -/

/-- What can be asked of a sorter. -/
inductive Request (ρ : Type)
  | add (record : ρ) (spare : Nat := 0)
  | persist
  | done

/-- A request succeeds, whatever is on the disk. -/
inductive Answers (t t' : TopK ρ) : Request ρ → Prop
  | add {x : ρ} {spare : Nat} {s s' : Store}
      (h : Failing.runOn (TopK.add x spare) (t, s) = (.ok (), t', s')) :
      Answers t t' (.add x spare)
  | persist {m : Manifest} {s s' : Store}
      (h : Failing.runOn TopK.persist (t, s) = (.ok m, t', s')) : Answers t t' .persist
  | done {sorted : Sorted ρ} {s s' : Store}
      (h : Failing.runOn TopK.done (t, s) = (.ok sorted, t', s')) : Answers t t' .done

/-- The sorter after a record was put among those in memory. -/
def placing (t : TopK ρ) (x : Resident ρ) : TopK ρ :=
  ((t.counting.charging x).place ⟨x, t.nextSeq⟩).runFresh.1

/-- The entries in memory, in order. -/
def ordered (t : TopK ρ) : List (Entry ρ) := stableSort (entryOrder t.order) t.data.toList

/-- The entries that a request wrote as a run, if it did. -/
def wrote (t t' : TopK ρ) : Request ρ → List (Entry ρ)
  | .add x spare =>
    if t'.backing.runs.size = t.backing.runs.size then [] else (t.placing ⟨x, spare⟩).ordered
  | .persist => t.ordered
  | .done => if t.backing.runs.isEmpty then [] else t.ordered

/-- A sorter after requests that all succeeded, with the entries it wrote. -/
inductive Reached (options : Options) (order : Comparator ρ) : TopK ρ → Journal ρ → Prop
  | made {t : TopK ρ} {s s' : Store}
      (h : Failing.runOn (ofOptions options order : SpillM (TopK ρ)) s = (.ok t, s')) :
      Reached options order t {}
  | answered {t t' : TopK ρ} {j : Journal ρ} {request : Request ρ} (h : Reached options order t j)
      (answers : Answers t t' request) :
      Reached options order t' (j.write (wrote t t' request) t'.anchors)

/-! ## The invariant -/

/-- A run that was made of the given entries. -/
def IsRun (b : Backing ρ) (run : RunReader ρ) (entries : List (Entry ρ)) : Prop :=
  ∃ s s', Failing.runOn (({ options := b.options, file := b.file } : Backing ρ).writeRun
    (entries.map (·.record))) s = (.ok run, s')

/-- No two entries have arrived at once, and all of them before the number `next`. -/
structure Numbers (next : Nat) (entries : List (Entry ρ)) : Prop where
  distinct : entries.Pairwise (·.seq ≠ ·.seq)
  before : ∀ e ∈ entries, e.seq < next

/-- What holds of a sorter that has written the entries of a journal. -/
structure Tracks (options : Options) (order : Comparator ρ) (t : TopK ρ) (j : Journal ρ) :
    Prop where
  sameOrder : t.order = order
  sameLimit : t.limit = options.limit.toNat
  positive : 0 < t.limit
  size_le : t.data.size ≤ t.limit
  numbers : Numbers t.nextSeq (j.written ++ t.data.toList)
  heap : t.backing.finished = false → t.data.size = t.limit → Heap.IsHeap (entryOrder order) t.data
  /-- What stays in memory when no more records are taken is in order. -/
  inOrder : t.backing.finished = true → InOrder (entryOrder order) t.data.toList
  below : ∀ e ∈ t.data.toList, ∀ c, t.cutoff = some c → entryOrder order e c = .lt
  counts : Counts order t.limit t.anchors j
  runs : t.backing.finished = false →
    List.Forall₂ (IsRun t.backing) t.backing.runs.toList j.runs

namespace Numbers

variable {next : Nat} {entries : List (Entry ρ)}

omit [Storable ρ] in
theorem perm (h : Numbers next entries) {entries' : List (Entry ρ)} (perm : entries'.Perm entries) :
    Numbers next entries' :=
  ⟨(perm.pairwise_iff Ne.symm).mpr h.distinct, fun e he => h.before e (perm.mem_iff.mp he)⟩

omit [Storable ρ] in
theorem sublist (h : Numbers next entries) {fewer : List (Entry ρ)} (sub : fewer.Sublist entries) :
    Numbers next fewer :=
  ⟨h.distinct.sublist sub, fun e he => h.before e (sub.mem he)⟩

omit [Storable ρ] in
theorem snoc (h : Numbers next entries) (resident : Resident ρ) :
    Numbers (next + 1) (entries ++ [⟨resident, next⟩]) := by
  constructor
  · apply List.pairwise_append.mpr
    refine ⟨h.distinct, List.pairwise_singleton _ _, fun a ha b hb => ?_⟩
    obtain rfl := List.mem_singleton.mp hb
    exact Nat.ne_of_lt (h.before a ha)
  · intro e he
    rcases List.mem_append.mp he with he | he
    · exact Nat.lt_succ_of_lt (h.before e he)
    · obtain rfl := List.mem_singleton.mp he
      exact Nat.lt_succ_self next

omit [Storable ρ] in
/-- Entries that are sorted in any way are sorted in the same way. -/
theorem eq_stableSort {order : Comparator ρ} [Std.TransCmp order] (h : Numbers next entries)
    {sorted : List (Entry ρ)} (perm : sorted.Perm entries)
    (inOrder : InOrder (entryOrder order) sorted) :
    sorted = stableSort (entryOrder order) entries := by
  apply List.Perm.eq_of_pairwise ?_ inOrder (inOrder_stableSort _)
    (perm.trans (perm_stableSort _).symm)
  intro a b ha hb le ge
  by_contra differ
  have symm : Std.Symm fun a b : Entry ρ => a.seq ≠ b.seq := ⟨fun _ _ => Ne.symm⟩
  have distinct := (h.perm perm).distinct.forall ha
    ((perm.trans (perm_stableSort _).symm).mem_iff.mpr hb) differ
  have same := tied_of_isLE le ge
  -- what ties in the order of entries has the same number
  rw [tied, beq_iff_eq, entryOrder, Ordering.then_eq_eq] at same
  exact distinct (Nat.compare_eq_eq.mp same.2)

end Numbers

/-! ## What a spill leaves -/

/-- A spill leaves nothing in memory, and a run of what was there. -/
structure Empties (t : TopK ρ) (sorted : List (Entry ρ)) (t' : TopK ρ) : Prop where
  perm : sorted.Perm t.data.toList
  inOrder : InOrder (entryOrder t.order) sorted
  order : t'.order = t.order
  limit : t'.limit = t.limit
  nextSeq : t'.nextSeq = t.nextSeq
  data : t'.data = #[]
  learns : t.anchors.Learns t.order t.limit sorted t'.anchors
  options : t'.backing.options = t.backing.options
  file : t'.backing.file = t.backing.file
  runs : t'.backing.finished = false →
    sorted = [] ∧ t'.backing.runs = t.backing.runs ∨
      sorted ≠ [] ∧ ∃ run, t'.backing.runs = t.backing.runs.push run ∧ IsRun t.backing run sorted

variable {options : Options} {order : Comparator ρ} {t t' : TopK ρ} {s : Store} {j : Journal ρ}

section Spill

variable [valid : Std.TransCmp t.order]

theorem writeOut_empties (held : Held t.order t.limit t.data t.data.toList) :
    Leads writeOut (t, s)
      (fun _ p => p.1.backing.finished = t.backing.finished ∧ ∃ sorted, t.Empties sorted p.1)
      (fun _ _ => True) := by
  by_cases none : t.data = #[]
  · apply writeOut_of_isEmpty (by rw [none]; rfl)
    have nothing : t.data.toList = [] := by rw [none]
    exact ⟨rfl, [], by rw [nothing], List.Pairwise.nil, rfl, rfl, rfl, none, .nothing _, rfl, rfl,
      fun _ => .inl ⟨rfl, rfl⟩⟩
  · have some : t.data.toList ≠ [] := by simpa using none
    refine writeOut_of_writeRun held some (fun _ _ => trivial) ?_
    intro _ sorted a perm inOrder learns
    rcases h : Failing.runOn (t.backing.writeRun (sorted.map (·.record))) s with ⟨_ | run, s'⟩
    · exact Leads.of_runOn_error h trivial
    · refine Leads.of_runOn_ok h ⟨rfl, sorted, perm, inOrder, rfl, rfl, rfl, rfl, learns, rfl, rfl,
        fun _ => .inr ⟨?_, run, rfl, s, s', h⟩⟩
      rintro rfl
      exact some (List.nil_perm.mp perm)

theorem spill_empties (held : Held t.order t.limit t.data t.data.toList) :
    Leads spill (t, s)
      (fun _ p => p.1.backing.finished = t.backing.finished ∧ ∃ sorted, t.Empties sorted p.1)
      (fun _ _ => True) := by
  have valid : Std.TransCmp t.spilling.order := valid
  apply spill_of
  apply (writeOut_empties (t := t.spilling) held).mono
  · rintro _ p ⟨finished, sorted, empties⟩
    exact ⟨finished, sorted, empties.perm, empties.inOrder, empties.order, empties.limit,
      empties.nextSeq, empties.data, empties.learns, empties.options, empties.file, empties.runs⟩
  · exact fun _ _ h => h

end Spill

/-! ## What requests keep -/

namespace Tracks

variable [Std.TransCmp order] (tracks : Tracks options order t j)

include tracks

omit [Std.TransCmp order] in
theorem held (accepting : t.backing.finished = false) :
    Held t.order t.limit t.data t.data.toList := by
  refine ⟨List.Perm.refl _, tracks.size_le, fun _ => rfl, fun full => ?_⟩
  rw [tracks.sameOrder]
  exact tracks.heap accepting full

/-- The entries in memory are spilled in the only order there is. -/
theorem eq_ordered {sorted : List (Entry ρ)} (empties : t.Empties sorted t') :
    sorted = t.ordered := by
  obtain rfl := tracks.sameOrder
  have numbers := tracks.numbers.sublist (List.sublist_append_right j.written t.data.toList)
  exact numbers.eq_stableSort empties.perm empties.inOrder

/-- A spill is entered in the journal. -/
theorem emptied {sorted : List (Entry ρ)} (empties : t.Empties sorted t')
    (unfinished : t'.backing.finished = false → t.backing.finished = false) :
    Tracks options order t' (j.write sorted t'.anchors) ∧
      Tightens order t.cutoff t'.cutoff := by
  obtain ⟨rfl, sameLimit, positive, -, numbers, -, -, -, counts, runs⟩ := tracks
  refine ⟨⟨empties.order, empties.limit.trans sameLimit, empties.limit ▸ positive, ?_, ?_, ?_, ?_,
    ?_, ?_, fun accepting => ?_⟩, empties.learns.tightens⟩
  · rw [empties.data]
    exact Nat.zero_le _
  · rw [empties.data, Journal.written_write, empties.nextSeq, List.append_nil]
    exact numbers.perm (empties.perm.append_left _)
  · rw [empties.data, empties.limit]
    exact fun _ full => absurd full (Nat.ne_of_lt positive)
  · rw [empties.data]
    exact fun _ => List.Pairwise.nil
  · rw [empties.data]
    exact fun e he => absurd he List.not_mem_nil
  · rw [empties.limit]
    exact empties.learns.counts j counts
  · have same : IsRun t'.backing = IsRun t.backing := by
      funext run entries
      rw [IsRun, IsRun, empties.options, empties.file]
    -- a spill of nothing adds no run, any other one a run of its entries behind the others
    rw [same, Journal.write]
    rcases empties.runs accepting with ⟨rfl, kept⟩ | ⟨some, run, pushed, isRun⟩
    · rw [kept]
      exact runs (unfinished accepting)
    · rw [pushed, Array.toList_push, List.isEmpty_eq_false_iff.mpr some]
      exact List.rel_append (runs (unfinished accepting)) (.cons isRun .nil)

/-- A record that is taken is put among the entries in memory. -/
theorem placed (accepting : t.backing.finished = false) {x : Resident ρ}
    (takes : t.takes ⟨x, t.nextSeq⟩ = true) :
    ∃ data memoryUsed,
      (t.charging x).place ⟨x, t.nextSeq⟩ = pure { t.charging x with data, memoryUsed } ∧
      data ≠ #[] ∧ Tracks options order { t.charging x with data, memoryUsed } j := by
  have held := tracks.held accepting
  obtain ⟨rfl, sameLimit, positive, sizeLe, numbers, heap, inOrder, below, counts, runs⟩ := tracks
  have valid : Std.TransCmp (t.charging x).order := ‹_›
  obtain ⟨data, memoryUsed, entries', placed, held', trades⟩ :=
    place_eq (t := t.charging x) held positive t.nextSeq x
  refine ⟨data, memoryUsed, placed, ?_, rfl, sameLimit, positive, held'.size_le, ?_,
    fun _ => held'.full, fun finished => ?_, ?_, counts, runs⟩
  · rintro rfl
    exact List.not_mem_nil (held'.perm.mem_iff.mpr trades.mem)
  · have more := numbers.snoc x
    rw [List.append_assoc] at more
    exact (more.sublist ((List.Sublist.refl _).append trades.sublist)).perm
      (held'.perm.append_left _)
  · exact absurd (accepting.symm.trans finished) (by simp)
  · intro e he c hc
    rcases List.mem_append.mp (trades.sublist.mem (held'.perm.mem_iff.mp he)) with he | he
    · exact below e he c hc
    · -- what is taken comes before the cutoff, or before an entry that does
      obtain rfl := List.mem_singleton.mp he
      by_cases room : t.data.size < t.limit
      · rw [TopK.takes, if_pos room, show t.cutoff = some c from hc, Option.all_some,
          beq_iff_eq] at takes
        exact takes
      · have full := Nat.le_antisymm sizeLe (Nat.le_of_not_lt room)
        have htop : t.data[0]? = some t.data[0] := Array.getElem?_eq_getElem (by omega)
        have lesser := lt_top_of_takes takes full htop
        exact Std.TransCmp.lt_trans lesser (below _ (held.top full htop).1 c hc)

end Tracks

/-- What an answered request keeps. -/
structure Advances (options : Options) (order : Comparator ρ) (t : TopK ρ) (j : Journal ρ)
    (request : Request ρ) (t' : TopK ρ) : Prop where
  tracks : Tracks options order t' (j.write (wrote t t' request) t'.anchors)
  tightens : Tightens order t.cutoff t'.cutoff

/-- A new sorter has written nothing. -/
theorem ofOptions_tracks (s : Store) :
    Leads (ofOptions options order : SpillM (TopK ρ)) s (fun t _ => Tracks options order t {})
      (fun _ _ => True) := by
  obtain ⟨runs, -⟩ := Backing.ofOptions_empty ρ options s
  apply ofOptions_of (fun _ _ => trivial) (fun _ => trivial)
  intro _ positive
  refine ⟨rfl, rfl, positive, Nat.zero_le _, ⟨List.Pairwise.nil, ?_⟩, fun _ full => ?_,
    fun _ => List.Pairwise.nil, ?_, .start order _, fun _ => ?_⟩
  · exact fun e he => absurd he List.not_mem_nil
  · exact absurd full (Nat.ne_of_lt positive)
  · exact fun e he => absurd he List.not_mem_nil
  · dsimp only
    rw [runs]
    exact .nil

section Requests

variable [Std.TransCmp order]

/-- A request that wrote nothing is not entered in the journal. -/
theorem Advances.of_same {request : Request ρ} (tracks' : Tracks options order t' j)
    (wroteNone : wrote t t' request = []) (same : t'.anchors = t.anchors) :
    Advances options order t j request t' := by
  constructor
  · rw [wroteNone, tracks'.counts.write_nil]
    exact tracks'
  · rw [show t'.cutoff = t.cutoff from congrArg Anchors.cutoff same]
    exact .refl _

variable (tracks : Tracks options order t j)

include tracks

theorem add_advances (x : ρ) (spare : Nat) :
    Leads (add x spare) (t, s) (fun _ p => Advances options order t j (.add x spare) p.1)
      (fun _ _ => True) := by
  have valid : Std.TransCmp t.order := tracks.sameOrder ▸ inferInstance
  have counted : Tracks options order t.counting j :=
    ⟨tracks.sameOrder, tracks.sameLimit, tracks.positive, tracks.size_le, tracks.numbers,
      tracks.heap, tracks.inOrder, tracks.below, tracks.counts, tracks.runs⟩
  apply add_of_takes (fun _ _ => trivial)
  intro accepting
  cases takes : t.takes ⟨⟨x, spare⟩, t.nextSeq⟩ with
  | false => exact Leads.of_pure (.of_same counted (if_pos rfl) rfl)
  | true =>
    obtain ⟨data, memoryUsed, placed, some, tracks'⟩ := counted.placed accepting takes
    apply insert_of_placed placed
    split
    · -- the entries that are spilled are those after the record was put among them
      have valid : Std.TransCmp
        ({ t.counting.charging ⟨x, spare⟩ with data, memoryUsed } : TopK ρ).order := valid
      apply (spill_empties (tracks'.held accepting)).mono
      · rintro _ ⟨t', s'⟩ ⟨finished, sorted, empties⟩
        have unfinished : t'.backing.finished = false := finished.trans accepting
        have wroteAll : wrote t t' (.add x spare) = sorted := by
          rw [wrote, if_neg, tracks'.eq_ordered empties, placing]
          · rw [show (t.counting.charging ⟨x, spare⟩).place ⟨⟨x, spare⟩, t.nextSeq⟩ = _ from placed]
            rfl
          · rcases empties.runs unfinished with ⟨rfl, -⟩ | ⟨-, run, pushed, -⟩
            · exact absurd (List.nil_perm.mp empties.perm) (by simpa using some)
            · rw [pushed]
              exact Nat.ne_of_gt (by simp [counting, charging])
        obtain ⟨tracks'', tightens⟩ := tracks'.emptied empties fun _ => accepting
        exact ⟨by rwa [wroteAll], tightens⟩
      · exact fun _ _ h => h
    · exact Leads.of_pure (.of_same tracks' (if_pos rfl) rfl)

theorem persist_advances :
    Leads persist (t, s) (fun _ p => Advances options order t j .persist p.1)
      (fun _ _ => True) := by
  have valid : Std.TransCmp t.order := tracks.sameOrder ▸ inferInstance
  refine persist_of (fun _ _ => trivial) (fun _ _ => trivial) fun accepting => ?_
  refine (spill_empties (tracks.held accepting)).mono ?_ fun _ _ h => h
  rintro _ ⟨t', s'⟩ ⟨-, sorted, empties⟩
  apply Leads.of_forall
  · intro m s''
    obtain ⟨tracks', tightens⟩ := tracks.emptied empties fun _ => accepting
    rw [tracks.eq_ordered empties] at tracks'
    exact ⟨tracks', tightens⟩
  · exact fun _ _ => trivial

theorem done_advances :
    Leads done (t, s) (fun _ p => Advances options order t j .done p.1) (fun _ _ => True) := by
  have valid : Std.TransCmp t.order := tracks.sameOrder ▸ inferInstance
  have valid' : Std.TransCmp t.finishing.order := valid
  cases accepting : t.backing.finished with
  | true =>
    -- a sorter that is done refuses to be done again
    apply done_of (fun _ _ => trivial)
    · exact fun unfinished => absurd (unfinished.symm.trans accepting) (by simp)
    · exact fun unfinished => absurd (unfinished.symm.trans accepting) (by simp)
  | false =>
    by_cases none : t.backing.runs.isEmpty = true
    · -- what was in memory stays there in order, or it is given up
      apply done_of_noRuns (tracks.held accepting) none (fun _ _ => trivial)
      intro _ sorted data perm inOrder sub
      obtain ⟨rfl, sameLimit, positive, sizeLe, numbers, -, -, below, counts, -⟩ := id tracks
      refine .of_same ⟨rfl, sameLimit, positive, ?_, ?_, fun h => Bool.noConfusion h,
        fun _ => inOrder.sublist sub, fun e he => below e (perm.mem_iff.mp (sub.mem he)), counts,
        fun h => Bool.noConfusion h⟩ (if_pos none) rfl
      · have fewer := sub.length_le
        rw [perm.length_eq, Array.length_toList, Array.length_toList] at fewer
        exact Nat.le_trans fewer sizeLe
      · exact (numbers.perm (perm.append_left _)).sublist ((List.Sublist.refl _).append sub)
    · apply done_of_runs none (fun _ _ => trivial)
      intro _
      refine (spill_empties (t := t.finishing) (tracks.held accepting)).mono ?_ fun _ _ h => h
      rintro _ ⟨t', s'⟩ ⟨finished, sorted, empties⟩
      apply Leads.of_forall
      · intro merged s''
        have empties' : t.Empties sorted { t' with backing := { t'.backing with runs := #[] } } :=
          ⟨empties.perm, empties.inOrder, empties.order, empties.limit, empties.nextSeq,
            empties.data, empties.learns, empties.options, empties.file,
            fun h => Bool.noConfusion (finished.symm.trans h)⟩
        obtain ⟨tracks', tightens⟩ := tracks.emptied empties' fun _ => accepting
        rw [tracks.eq_ordered empties'] at tracks'
        constructor
        · rw [wrote, if_neg none]
          exact tracks'
        · exact tightens
      · exact fun _ _ => trivial

theorem answers_advances {request : Request ρ} (answers : Answers t t' request) :
    Advances options order t j request t' := by
  cases answers with
  | @add x spare s s' h => exact (add_advances tracks x spare).of_ok h
  | persist h => exact (persist_advances tracks).of_ok h
  | done h => exact (done_advances tracks).of_ok h

end Requests

/-! ## Any requests -/

/-- In every state that requests lead to when all of them succeed, the entries in memory are at most
    as many as the limit, no two of one number, before the cutoff, and a heap once they are as many
    as the limit, until the sorter is done; as many of the written entries as the limit are not
    behind the cutoff; the worst entry seen, and both counts, say of the entries written since they
    were reset what they are for. Another request leaves the cutoff as it is, or makes it stricter. -/
theorem tracks_of_reached [Std.TransCmp order] (h : Reached options order t j) :
    Tracks options order t j ∧
      ∀ request t', Answers t t' request → Tightens order t.cutoff t'.cutoff := by
  have tracks : Tracks options order t j := by
    -- the disk may be another one at each request, so the sorter is all that the steps share
    induction h with
    | made h => exact (ofOptions_tracks _).of_ok h
    | answered _ answers ih => exact (answers_advances ih answers).tracks
  exact ⟨tracks, fun _ _ answers => (answers_advances tracks answers).tightens⟩

/-- Records that are taken one after another. -/
theorem Reached.of_follow {p p' : TopK ρ × Store} {xs : List ρ} (h : Reached options order p.1 j)
    (run : Failing.follow (fun x => TopK.add x) Except.isOk xs p = some p') :
    ∃ j', Reached options order p'.1 j' := by
  apply Failing.of_follow (P := fun _ p => ∃ j, Reached options order p.1 j) _ ⟨j, h⟩ run
  · rintro _ x _ result _ ⟨j, before⟩ run taken
    cases result with
    | ok => exact ⟨_, before.answered (.add run)⟩
    | error => exact Bool.noConfusion taken
  · exact []

open Sorter (Numbered ascending spillingTwo)

/-- A sorter after the numbers ten and eleven, each in a run of its own, and after five: the cutoff
    was eleven, the worst one seen. With five, as many entries as the limit are not behind ten, which
    was the median. -/
def elevenThenTen : Option (TopK Numbered × TopK Numbered) := do
  let p ← Failing.ok? (ofOptions spillingTwo ascending : SpillM (TopK Numbered)) {}
  let q ← Failing.follow (fun x => TopK.add x) Except.isOk [(10, ()), (11, ())] p
  let r ← Failing.ok? (TopK.add (5, ())) q
  return (q.1, r.2.1)

theorem tracks_of_reached_eleven :
    ∃ (t t' : TopK Numbered) (j : Journal Numbered), Reached spillingTwo ascending t j ∧
      Answers t t' (.add (5, ())) ∧ Tracks spillingTwo ascending t j ∧
      t.cutoff.map (·.record) = some ((11 : Int32), ()) ∧
      t'.cutoff.map (·.record) = some ((10 : Int32), ()) ∧
      Tightens ascending t.cutoff t'.cutoff := by
  have stands : elevenThenTen.any (fun p =>
      decide (p.1.cutoff.map (·.record) = some ((11 : Int32), ()) ∧
        p.2.cutoff.map (·.record) = some ((10 : Int32), ()))) = true := by decide +kernel
  obtain ⟨⟨t, t'⟩, runs, stands⟩ := (Option.any_eq_true _ _).mp stands
  obtain ⟨eleven, ten⟩ := of_decide_eq_true stands
  simp only [elevenThenTen, Option.bind_eq_bind, Option.bind_eq_some_iff] at runs
  obtain ⟨p, made, q, two, r, five, same⟩ := runs
  cases same
  obtain ⟨j, reached⟩ := (Reached.made (Failing.runOn_of_ok? made)).of_follow two
  have answers := Answers.add (Failing.runOn_of_ok? five)
  obtain ⟨tracks, tightens⟩ := tracks_of_reached reached
  exact ⟨q.1, r.2.1, j, reached, answers, tracks, eleven, ten, tightens _ _ answers⟩

/-- A sorter for the first two records that has the numbers one and two in memory, and then is done. -/
def oneTwoDone : Option (TopK Numbered) := do
  let p ← Failing.ok? (ofOptions { limit := 2 } ascending : SpillM (TopK Numbered)) {}
  let q ← Failing.follow (fun x => TopK.add x) Except.isOk [(1, ()), (2, ())] p
  let r ← Failing.ok? TopK.done q
  return r.2.1

/-- A sorter that is done has sorted what is in memory, and what is sorted is no heap. -/
theorem no_heap_when_done :
    ∃ (t : TopK Numbered) (j : Journal Numbered), Reached { limit := 2 } ascending t j ∧
      t.data.size = t.limit ∧ ¬ Heap.IsHeap (entryOrder ascending) t.data := by
  have stands : oneTwoDone.any (fun t => decide (t.data.size = t.limit ∧
      ¬ Heap.IsHeap (entryOrder ascending) t.data)) = true := by decide +kernel
  obtain ⟨t, runs, stands⟩ := (Option.any_eq_true _ _).mp stands
  simp only [oneTwoDone, Option.bind_eq_bind, Option.bind_eq_some_iff] at runs
  obtain ⟨p, made, q, two, r, done, same⟩ := runs
  cases same
  obtain ⟨j, reached⟩ := (Reached.made (Failing.runOn_of_ok? made)).of_follow two
  exact ⟨r.2.1, _, reached.answered (.done (Failing.runOn_of_ok? done)), of_decide_eq_true stands⟩

end TopK
end ExternalSort
