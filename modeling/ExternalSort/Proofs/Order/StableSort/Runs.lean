/-
  ExternalSort.Proofs.Order.StableSort.Runs

  Sorting by runs is stable sorting.

  Each run is an arrangement of consecutive elements that keeps ties, and is in
  order if it says so (`Run.Of`). Cutting, joining and collapsing runs keep this,
  so one run is left that arranges the whole list (`runOf_eq`). What a plan
  makes and settles is a parameter (`Plan.Valid`).
-/

import ExternalSort.Order.StableSort.Runs
import ExternalSort.Proofs.Order.StableSort.TwoEnded

namespace ExternalSort
namespace StableSort

variable {m : Type → Type} [Monad m] {α : Type}
variable [LawfulMonad m] {order : Comparator α} [Std.TransCmp order]

/-! ## Merging two sorted lists -/

theorem mergeFront_eq (out xs ys : List α) (hxs : InOrder order xs) (hys : InOrder order ys) :
    mergeFront (m := m) (askLess order) out xs ys
      = pure (out.reverse ++ stableSort order (xs ++ ys)) := by
  fun_induction mergeFront (m := m) (askLess order) out xs ys with
  | case1 out ys => simp [stableSort_of_inOrder hys]
  | case2 out xs => simp [stableSort_of_inOrder hxs]
  | case3 out x xs y ys ihy ihx =>
    have hx := List.pairwise_cons.mp hxs
    have hy := List.pairwise_cons.mp hys
    rw [askLess, pure_bind]
    by_cases h : order y x = .lt
    -- the first element of the right list is less than every one on the left
    · have before : ∀ a ∈ x :: xs, order y a = .lt := by
        intro a ha
        rcases List.mem_cons.mp ha with rfl | ha
        · exact h
        · exact Std.TransCmp.lt_of_lt_of_isLE h (hx.1 a ha)
      rw [if_pos (by simpa using h), ihy hxs hy.2, stableSort_least order _ _ before hy.1]
      simp
    -- between ties the left list goes first
    · have after : ∀ b ∈ xs ++ y :: ys, (order x b).isLE := by
        intro b hb
        rcases List.mem_append.mp hb with hb | hb
        · exact hx.1 b hb
        · rcases List.mem_cons.mp hb with rfl | hb
          · exact isLE_of_not_lt h
          · exact Std.TransCmp.isLE_trans (isLE_of_not_lt h) (hy.1 b hb)
      have first := stableSort_least order [] _ (by simp) after
      rw [List.nil_append, List.nil_append] at first
      rw [if_neg (by simpa using h), ihx hx.2 hys, List.cons_append, first]
      simp

theorem mergeBack_eq (out xs ys : List α) (hxs : InOrder order xs.reverse)
    (hys : InOrder order ys.reverse) :
    mergeBack (m := m) (askLess order) out xs ys
      = pure (stableSort order (xs.reverse ++ ys.reverse) ++ out) := by
  fun_induction mergeBack (m := m) (askLess order) out xs ys with
  | case1 out ys => simp [stableSort_of_inOrder hys]
  | case2 out xs => simp [stableSort_of_inOrder hxs]
  | case3 out x xs y ys ihx ihy =>
    rw [List.reverse_cons] at hxs hys
    have hx := List.pairwise_append.mp hxs
    have hy := List.pairwise_append.mp hys
    rw [askLess, pure_bind]
    by_cases h : order y x = .lt
    -- the last element of the left list is greater than every one on the right
    · have before : ∀ a ∈ xs.reverse, (order a x).isLE := fun a ha => hx.2.2 a ha x (by simp)
      have after : ∀ b ∈ (y :: ys).reverse, order b x = .lt := by
        intro b hb
        rw [List.reverse_cons] at hb
        rcases List.mem_append.mp hb with hb | hb
        · exact Std.TransCmp.lt_of_isLE_of_lt (hy.2.2 b hb y (by simp)) h
        · obtain rfl := List.mem_singleton.mp hb
          exact h
      rw [if_pos (by simpa using h), ihx hx.1 (by rwa [List.reverse_cons]),
        List.reverse_cons (a := x), List.append_assoc xs.reverse, List.singleton_append,
        stableSort_greatest order _ _ before after, List.append_assoc, List.singleton_append]
    · have before : ∀ a ∈ (x :: xs).reverse ++ ys.reverse, (order a y).isLE := by
        intro a ha
        rcases List.mem_append.mp ha with ha | ha
        · rw [List.reverse_cons] at ha
          rcases List.mem_append.mp ha with ha | ha
          · exact Std.TransCmp.isLE_trans (hx.2.2 a ha x (by simp)) (isLE_of_not_lt h)
          · obtain rfl := List.mem_singleton.mp ha
            exact isLE_of_not_lt h
        · exact hy.2.2 a ha y (by simp)
      have last := stableSort_greatest order _ [] before (by simp)
      rw [if_neg (by simpa using h), ihy (by rwa [List.reverse_cons]) hy.1,
        List.reverse_cons (a := y), ← List.append_assoc, last, List.append_nil, List.append_assoc,
        List.singleton_append]

theorem merge_eq {xs ys : List α} (hxs : InOrder order xs) (hys : InOrder order ys) :
    merge (m := m) (askLess order) xs ys = pure (stableSort order (xs ++ ys)) := by
  rw [merge]
  split
  · rw [mergeFront_eq [] xs ys hxs hys, List.reverse_nil, List.nil_append]
  · rw [mergeBack_eq [] xs.reverse ys.reverse (by rwa [List.reverse_reverse])
      (by rwa [List.reverse_reverse]), List.reverse_reverse, List.reverse_reverse, List.append_nil]

/-! ## Natural runs -/

/-- Whether an element goes on a stretch after another one. -/
def goesOn (order : Comparator α) (descending : Bool) (a b : α) : Prop :=
  (order b a == .lt) = descending

theorem goesOn_trans {descending : Bool} {a b c : α} (h : goesOn order descending a b)
    (k : goesOn order descending b c) : goesOn order descending a c := by
  cases descending with
  | true =>
    simp only [goesOn, beq_iff_eq] at *
    exact Std.TransCmp.lt_trans k h
  | false =>
    simp only [goesOn, beq_eq_false_iff_ne] at *
    intro hca
    exact h (Std.TransCmp.lt_of_isLE_of_lt (isLE_of_not_lt k) hca)

variable (order) in
theorem stretch_eq (descending : Bool) (length : Nat) (last : α) (rest : List α) :
    ∃ k, k ≤ rest.length ∧
      stretch (m := m) (askLess order) descending length last rest = pure (length + k) ∧
      (last :: rest.take k).Pairwise (goesOn order descending) := by
  induction rest generalizing length last with
  | nil => exact ⟨0, Nat.le_refl 0, by simp [stretch], by simp⟩
  | cons x rest ih =>
    by_cases h : goesOn order descending last x
    · obtain ⟨k, hk, hrun, hpairs⟩ := ih (length + 1) x
      refine ⟨k + 1, by simpa using hk, ?_, ?_⟩
      · rw [goesOn] at h
        rw [stretch, askLess, pure_bind, if_pos (by simpa using h), hrun,
          show length + 1 + k = length + (k + 1) by omega]
      · rw [List.take_succ_cons]
        refine List.pairwise_cons.mpr ⟨fun b hb => ?_, hpairs⟩
        rcases List.mem_cons.mp hb with rfl | hb
        · exact h
        · exact goesOn_trans h ((List.pairwise_cons.mp hpairs).1 b hb)
    · refine ⟨0, Nat.zero_le _, ?_, by simp⟩
      rw [goesOn] at h
      rw [stretch, askLess, pure_bind, if_neg (by simpa using h), Nat.add_zero]

/-- Elements in strictly reverse order have no ties. -/
theorem ties_reverse {xs : List α} (h : xs.Pairwise (goesOn order true)) :
    Ties order xs.reverse xs := by
  intro x
  rw [List.filter_reverse]
  match hclass : xs.filter (tied order x) with
  | [] => rfl
  | [a] => rfl
  | a :: b :: rest =>
    have hpair := h.filter (tied order x)
    rw [hclass] at hpair
    have hab := (List.pairwise_cons.mp hpair).1 b (by simp)
    have ha : a ∈ xs.filter (tied order x) := by simp [hclass]
    have hb : b ∈ xs.filter (tied order x) := by simp [hclass]
    have tie := (List.mem_filter.mp hb).2
    rw [tied_congr (List.mem_filter.mp ha).2, tied, beq_iff_eq] at tie
    rw [goesOn, beq_iff_eq, Std.OrientedCmp.eq_symm tie] at hab
    exact absurd hab (by decide)

omit [Std.TransCmp order] in
theorem inOrder_reverse {xs : List α} (h : xs.Pairwise (goesOn order true)) :
    InOrder order xs.reverse := by
  refine List.pairwise_reverse.mpr (h.imp ?_)
  intro a b hab
  rw [goesOn, beq_iff_eq] at hab
  simp [hab]

theorem inOrder_of_goesOn {xs : List α} (h : xs.Pairwise (goesOn order false)) :
    InOrder order xs := by
  refine h.imp ?_
  intro a b hab
  rw [goesOn, beq_eq_false_iff_ne] at hab
  exact isLE_of_not_lt hab

/-- The stretch at the front, put in order. -/
def upright (xs : List α) (n : Nat) (reversed : Bool) : List α :=
  if reversed then (xs.take n).reverse else xs.take n

variable (order) in
theorem naturalRun_eq (xs : List α) :
    ∃ n reversed, n ≤ xs.length ∧ naturalRun (m := m) (askLess order) xs = pure (n, reversed) ∧
      InOrder order (upright xs n reversed) ∧
      Ties order (upright xs n reversed) (xs.take n) := by
  match xs with
  | [] => exact ⟨0, false, Nat.le_refl 0, rfl, by simp [upright, InOrder], Ties.refl _⟩
  | [x] => exact ⟨1, false, Nat.le_refl 1, rfl, by simp [upright, InOrder], Ties.refl _⟩
  | x :: y :: rest =>
    obtain ⟨k, hk, hrun, hpairs⟩ :=
      stretch_eq (m := m) order (order y x == .lt) 2 y rest
    have pairs : ((x :: y :: rest).take (2 + k)).Pairwise (goesOn order (order y x == .lt)) := by
      rw [Nat.add_comm, List.take_succ_cons, List.take_succ_cons]
      refine List.pairwise_cons.mpr ⟨fun b hb => ?_, hpairs⟩
      rcases List.mem_cons.mp hb with rfl | hb
      · rfl
      · exact goesOn_trans (b := y) rfl ((List.pairwise_cons.mp hpairs).1 b hb)
    refine ⟨2 + k, order y x == .lt, by simp; omega, ?_, ?_⟩
    · simp [naturalRun, askLess, hrun]
    · generalize (order y x == .lt) = descending at pairs
      cases descending with
      | true => exact ⟨inOrder_reverse pairs, ties_reverse pairs⟩
      | false => exact ⟨inOrder_of_goesOn pairs, Ties.refl _⟩

/-! ## Runs -/

variable {eager : Bool}

/-- A run of some elements: it keeps their ties, and is in order if it says so. If runs are made
    eagerly, it says so. -/
structure Run.Of (order : Comparator α) (eager : Bool) (xs : List α) (run : Run α) : Prop where
  ties : Ties order run.elements xs
  inOrder : run.sorted = true → InOrder order run.elements
  sorted : eager = true → run.sorted = true

/-- A plan makes runs of what it is given, and can sort them. -/
structure Plan.Valid (order : Comparator α) (eager : Bool) (plan : Plan m α) : Prop where
  make : ∀ xs, ∃ run, plan.make xs = pure run ∧ Run.Of order eager xs run
  settle : ∀ xs, plan.settle xs = pure (stableSort order xs)

omit [LawfulMonad m] in
theorem adapt_pure [LawfulMonad m] {β : Type} (f : List α → List α) (b : β) :
    ExceptT.adapt f (pure b : Arranging m α β) = pure b := by
  show (Except.mapError f <$> (pure (Except.ok b) : m (Except (List α) β))) = _
  rw [map_pure]
  rfl

theorem cutRun_eq {plan : Plan m α} (valid : plan.Valid order eager) (good count : Nat)
    (hgood : 0 < good) (x : α) (rest : List α) :
    ∃ c, cutRun (askLess order) plan good count hgood x rest = pure c ∧
      ∃ front, front ++ c.1.2 = x :: rest ∧ Run.Of order eager front c.1.1 := by
  obtain ⟨n, reversed, -, hrun, horder, hties⟩ :=
    naturalRun_eq (m := m) order (x :: rest)
  obtain ⟨run, hmake, hof⟩ := valid.make ((x :: rest).take plan.length)
  obtain ⟨natural, hnatural, hgoodRun⟩ : ∃ natural : Nat × Bool,
      (if good ≤ count then naturalRun (askLess order) (x :: rest) else pure (0, false) : m _)
        = pure natural ∧ (good ≤ natural.1 → natural = (n, reversed)) := by
    split
    · exact ⟨(n, reversed), hrun, fun _ => rfl⟩
    · exact ⟨(0, false), rfl, fun h => absurd h (by omega)⟩
  rw [cutRun, hnatural]
  simp only [hmake, adapt_pure]
  -- a natural run of good length is taken as it is, else the plan makes a run of what it cuts
  by_cases hlong : good ≤ natural.1
  · obtain rfl := hgoodRun hlong
    simp only [liftM_pure, pure_bind, hlong, ↓reduceDIte]
    exact ⟨_, rfl, (x :: rest).take n, List.take_append_drop n (x :: rest), hties,
      fun _ => horder, fun _ => rfl⟩
  · simp only [liftM_pure, pure_bind, hlong, ↓reduceDIte]
    exact ⟨_, rfl, (x :: rest).take plan.length, List.take_append_drop _ _, hof⟩

theorem join_eq {plan : Plan m α} (valid : plan.Valid order eager) {xs ys : List α}
    {left right : Run α} (hleft : Run.Of order eager xs left)
    (hright : Run.Of order eager ys right) :
    ∃ run, join (askLess order) plan left right = pure run ∧ Run.Of order eager (xs ++ ys) run := by
  have known {zs : List α} {run : Run α} (h : Run.Of order eager zs run)
      (hsorted : run.sorted = true) : run.elements = stableSort order zs :=
    eq_stableSort (h.inOrder hsorted) h.ties
  have settled {zs : List α} {run : Run α} (h : Run.Of order eager zs run) (f : List α → List α) :
      ExceptT.adapt f (plan.settle run.elements) = pure (stableSort order zs) := by
    rw [valid.settle, adapt_pure, stableSort_congr h.ties]
  have merged : ∃ run : Run α,
      (do return ⟨← (merge (askLess order) (stableSort order xs) (stableSort order ys) : m _), true⟩
        : Arranging m α (Run α)) = pure run ∧ Run.Of order eager (xs ++ ys) run := by
    rw [merge_eq (inOrder_stableSort xs) (inOrder_stableSort ys), liftM_pure, pure_bind]
    exact ⟨_, rfl, (ties_stableSort _).trans ((ties_stableSort xs).append (ties_stableSort ys)),
      fun _ => inOrder_stableSort _, fun _ => rfl⟩
  rw [join]
  -- two unsorted runs stay unsorted, which no eager plan has; any other pair is merged
  cases hl : left.sorted <;> cases hr : right.sorted
  · refine ⟨_, rfl, hleft.ties.append hright.ties, (by simp), fun heager => ?_⟩
    exact absurd (hleft.sorted heager) (by simp [hl])
  · simpa [known hright hr, settled hleft] using merged
  · simpa [known hleft hl, settled hright] using merged
  · simpa [known hleft hl, known hright hr] using merged

/-! ## The merge tree -/

/-- The waiting runs are runs of consecutive pieces, last to first; the first piece is empty. -/
inductive Pending.Of (order : Comparator α) (eager : Bool) : List α → Pending α → Prop
  | nil : Pending.Of order eager [] []
  | first {run : Run α} {depth : Nat} :
    Run.Of order eager [] run → Pending.Of order eager [] [(run, depth)]
  | more {xs ys : List α} {run : Run α} {depth : Nat} {below : Run α × Nat} {rest : Pending α} :
    Pending.Of order eager xs (below :: rest) → Run.Of order eager ys run →
      Pending.Of order eager (xs ++ ys) ((run, depth) :: below :: rest)

/-- Collapsing keeps the elements and the first run; down to depth 0 it leaves nothing else. -/
theorem collapse_eq {plan : Plan m α} (valid : plan.Valid order eager) (depth : Nat)
    {pending : Pending α} {run : Run α} {xs ys : List α} (hpending : Pending.Of order eager xs pending)
    (hrun : Run.Of order eager ys run) :
    ∃ p, collapse (askLess order) plan depth pending run = pure p ∧
      (p.1 = [] ↔ pending = []) ∧
      ∃ us vs, us ++ vs = xs ++ ys ∧ Pending.Of order eager us p.1 ∧ Run.Of order eager vs p.2 ∧
        (depth = 0 → us = []) := by
  fun_induction collapse (askLess order) plan depth pending run generalizing xs ys with
  | case1 left d below rest run h ih =>
    cases hpending with
    | more hbelow hleft =>
      obtain ⟨joined, hjoin, hof⟩ := join_eq valid hleft hrun
      obtain ⟨p, hp, hnil, us, vs, hsplit, hus, hvs, hzero⟩ := ih joined hbelow hof
      rw [hjoin, adapt_pure, pure_bind]
      exact ⟨p, hp, by simp [hnil], us, vs, by rw [hsplit, List.append_assoc], hus, hvs,
        hzero⟩
  | case2 left d below rest run h =>
    exact ⟨_, rfl, by simp, xs, ys, rfl, hpending, hrun, fun hdepth => absurd h (by omega)⟩
  | case3 pending run h =>
    refine ⟨_, rfl, by simp, xs, ys, rfl, hpending, hrun, fun _ => ?_⟩
    cases hpending with
    | nil => rfl
    | first _ => rfl
    | more _ _ => exact absurd rfl (h _ _ _ _)

theorem mergeRuns_eq {plan : Plan m α} (valid : plan.Valid order eager) (n : Nat) {pending : Pending α}
    {run : Run α} (start : Nat) (rest : List α) {xs ys : List α}
    (hpending : Pending.Of order eager xs pending) (hrun : Run.Of order eager ys run)
    (hfirst : pending = [] → ys = []) :
    ∃ r, mergeRuns (askLess order) plan n pending run start rest = pure r ∧
      Run.Of order eager (xs ++ ys ++ rest) r := by
  -- by induction on what is left to cut; the waiting runs hold `xs`, the run in hand holds `ys`
  induction hn : rest.length using Nat.strongRecOn generalizing pending run start rest xs ys with
  | ind k ih =>
    cases rest with
    | nil =>
      obtain ⟨p, hp, -, us, vs, hsplit, -, hvs, hzero⟩ := collapse_eq valid 0 hpending hrun
      obtain rfl := hzero rfl
      rw [mergeRuns, hp, pure_bind]
      refine ⟨_, rfl, ?_⟩
      rwa [List.append_nil, ← hsplit, List.nil_append]
    | cons x rest =>
      obtain ⟨⟨⟨next, after⟩, hshort⟩, hcut, front, hfront, hnext⟩ :=
        cutRun_eq valid (goodLength n) (n - start) (goodLength_pos n) x rest
      rw [mergeRuns, hcut, adapt_pure, pure_bind]
      simp only
      generalize hdepth : nodeDepth n (start - run.elements.length) start
        (start + next.elements.length) = depth
      obtain ⟨p, hp, hnil, us, vs, hsplit, hus, hvs, -⟩ := collapse_eq valid depth hpending hrun
      rw [hp, adapt_pure, pure_bind]
      have waiting : Pending.Of order eager (us ++ vs) ((p.2, depth) :: p.1) := by
        cases hcase : p.1 with
        | nil =>
          obtain rfl := hnil.mp hcase
          obtain rfl := hfirst rfl
          cases hpending
          obtain ⟨rfl, rfl⟩ := List.append_eq_nil_iff.mp hsplit
          exact Pending.Of.first hvs
        | cons below more =>
          rw [hcase] at hus
          exact hus.more hvs
      obtain ⟨r, hr, hof⟩ := ih after.length (hn ▸ hshort) (start + next.elements.length) after
        waiting hnext (by simp) rfl
      refine ⟨r, hr, ?_⟩
      rwa [hsplit, List.append_assoc _ front, hfront] at hof

theorem runOf_eq {plan : Plan m α} (valid : plan.Valid order eager) (xs : List α) :
    ∃ r, runOf (askLess order) plan xs = pure r ∧ Run.Of order eager xs r := by
  have empty : Run.Of order eager ([] : List α) ⟨[], true⟩ :=
    ⟨Ties.refl [], fun _ => List.Pairwise.nil, fun _ => rfl⟩
  exact mergeRuns_eq valid xs.length 0 xs Pending.Of.nil empty fun _ => rfl

end StableSort
end ExternalSort
