/-
  ExternalSort.Proofs.Order.StableSort.Checking

  Sorting asks only by its test.

  So a sort gives the same with a test that checks what it compares as with one
  that does not, and finds a contradiction in the same place. There is one lemma
  for each part of the sort, by induction where the part is recursive.
-/

import ExternalSort.Order.StableSort
import ExternalSort.Proofs.Order.Checking

namespace ExternalSort
namespace StableSort

variable {α β γ : Type} {sound : Prop}

/-- Sorts that give the same, or fail with the same arrangement. -/
def ArrangesAlike (sound : Prop) (x y : Arranging Checked α β) : Prop :=
  Echoes sound id x.run y.run

namespace ArrangesAlike

variable {x y : Arranging Checked α β}

theorem of_pure (b : β) :
    ArrangesAlike sound (pure b : Arranging Checked α β) (pure b) := by
  show Echoes sound id (pure (Except.ok b)) (pure (Except.ok b))
  exact .of_pure id _

theorem of_throw (xs : List α) :
    ArrangesAlike sound (throw xs : Arranging Checked α β) (throw xs) := by
  show Echoes sound id (pure (Except.error xs)) (pure (Except.error xs))
  exact .of_pure id _

theorem seq {k k' : β → Arranging Checked α γ} (h : ArrangesAlike sound x y)
    (hk : ∀ b, ArrangesAlike sound (k b) (k' b)) : ArrangesAlike sound (x >>= k) (y >>= k') := by
  rw [ArrangesAlike, ExceptT.run_bind, ExceptT.run_bind]
  apply Echoes.ask h
  intro result
  cases result with
  | ok b => exact hk b
  | error xs => exact .of_pure id _

/-- A part that cannot fail. -/
theorem ask {c c' : Checked β} {k k' : β → Arranging Checked α γ} (h : Echoes sound id c c')
    (hk : ∀ b, ArrangesAlike sound (k b) (k' b)) :
    ArrangesAlike sound (liftM c >>= k) (liftM c' >>= k') := by
  show Echoes sound id (c >>= fun b => (k b).run) (c' >>= fun b => (k' b).run)
  exact h.ask hk

theorem of_echoes {c c' : Checked β} (h : Echoes sound id c c') :
    ArrangesAlike sound (liftM c : Arranging Checked α β) (liftM c') := by
  show Echoes sound id (c >>= fun b => pure (Except.ok b)) (c' >>= fun b => pure (Except.ok b))
  exact h.ask fun b => .of_pure id _

theorem ite {p : Prop} [Decidable p] {x' y' : Arranging Checked α β}
    (h : p → ArrangesAlike sound x y) (h' : ¬p → ArrangesAlike sound x' y') :
    ArrangesAlike sound (if p then x else x') (if p then y else y') := by
  by_cases hp : p
  · rw [if_pos hp, if_pos hp]
    exact h hp
  · rw [if_neg hp, if_neg hp]
    exact h' hp

theorem adapt (h : ArrangesAlike sound x y) (tell : List α → List α) :
    ArrangesAlike sound (x.adapt tell) (y.adapt tell) := by
  show Echoes sound id (x.run >>= fun result => pure (result.mapError tell))
    (y.run >>= fun result => pure (result.mapError tell))
  exact Echoes.ask h fun result => .of_pure id _

end ArrangesAlike

variable {less less' : α → α → Checked Bool} (h : ∀ a b, Echoes sound id (less a b) (less' a b))

include h

/-! ## Insertion -/

theorem insertBack_echoes (x : α) (ys : List α) :
    Echoes sound id (insertBack less x ys) (insertBack less' x ys) := by
  induction ys with
  | nil => exact .of_pure id [x]
  | cons y rest ih =>
    apply (h x y).ask
    intro first
    cases first with
    | true => exact ih.ask fun zs => .of_pure id (y :: zs)
    | false => exact .of_pure id (x :: y :: rest)

theorem insertAll_echoes (sorted xs : List α) :
    Echoes sound id (insertAll less sorted xs) (insertAll less' sorted xs) := by
  induction xs generalizing sorted with
  | nil => exact .of_pure id sorted
  | cons x rest ih => exact (insertBack_echoes h x sorted).ask ih

theorem insertionSort_echoes (xs : List α) :
    Echoes sound id (insertionSort less xs) (insertionSort less' xs) :=
  (insertAll_echoes h [] xs).ask fun zs => .of_pure id zs.reverse

/-! ## Short lists -/

theorem sortTwo_echoes (x y : α) :
    Echoes sound id (sortTwo less x y) (sortTwo less' x y) :=
  (h y x).ask fun _ => .of_pure id _

theorem sortFour_echoes (xs : List α) :
    Echoes sound id (sortFour less xs) (sortFour less' xs) := by
  rw [sortFour.eq_def, sortFour.eq_def]
  split
  · rename_i w x y z
    apply (sortTwo_echoes h w x).ask
    intro ab
    apply (sortTwo_echoes h y z).ask
    intro cd
    apply (h _ _).ask
    intro leastRight
    apply (h _ _).ask
    intro greatestLeft
    exact (sortTwo_echoes h _ _).ask fun middle => .of_pure id _
  · exact .of_pure id _

theorem sortStart_echoes (long : Bool) (half : List α) :
    Echoes sound id (sortStart less long half) (sortStart less' long half) := by
  rw [sortStart, sortStart]
  split
  · exact (sortFour_echoes h _).ask fun start => .of_pure id _
  · exact .of_pure id _

theorem sortHalves_echoes (xs : List α) :
    Echoes sound id (sortHalves less xs) (sortHalves less' xs) := by
  apply (sortStart_echoes h _ _).ask
  intro left
  apply (sortStart_echoes h _ _).ask
  intro right
  apply (insertAll_echoes h _ _).ask
  intro lefts
  exact (insertAll_echoes h _ _).ask fun rights => .of_pure id _

theorem takeLeast_echoes (e : Ends α) :
    Echoes sound id (Ends.takeLeast less e) (Ends.takeLeast less' e) := by
  rw [Ends.takeLeast.eq_def, Ends.takeLeast.eq_def]
  split
  · apply (h _ _).ask
    intro right
    cases right with
    | true => exact .of_pure id _
    | false => exact .of_pure id _
  · exact .of_pure id e

theorem takeGreatest_echoes (e : Ends α) :
    Echoes sound id (Ends.takeGreatest less e) (Ends.takeGreatest less' e) := by
  rw [Ends.takeGreatest.eq_def, Ends.takeGreatest.eq_def]
  split
  · apply (h _ _).ask
    intro left
    cases left with
    | true => exact .of_pure id _
    | false => exact .of_pure id _
  · exact .of_pure id e

theorem takeBoth_echoes (steps : Nat) (e : Ends α) :
    Echoes sound id (Ends.takeBoth less steps e) (Ends.takeBoth less' steps e) := by
  induction steps generalizing e with
  | zero => exact .of_pure id e
  | succ steps ih =>
    apply (takeLeast_echoes h e).ask
    intro e'
    exact (takeGreatest_echoes h e').ask ih

theorem mergeHalves_alike (left right : List α) :
    ArrangesAlike sound (mergeHalves less left right) (mergeHalves less' left right) := by
  apply ArrangesAlike.ask (takeBoth_echoes h left.length (Ends.ofHalves left right))
  intro ends
  split
  · exact .of_pure _
  · exact .of_throw _

theorem sortShort_alike (xs : List α) :
    ArrangesAlike sound (sortShort less xs) (sortShort less' xs) := by
  rw [sortShort, sortShort]
  split
  · exact .of_pure xs
  · exact .ask (sortHalves_echoes h xs) fun halves => mergeHalves_alike h halves.1 halves.2

/-! ## Runs -/

theorem mergeFront_echoes (out xs ys : List α) :
    Echoes sound id (mergeFront less out xs ys) (mergeFront less' out xs ys) := by
  fun_induction mergeFront less out xs ys with
  | case1 out ys =>
    rw [mergeFront]
    exact .of_pure id _
  | case2 out xs some =>
    rw [mergeFront]
    · exact .of_pure id _
    · exact some
  | case3 out x xs y ys ih ih' =>
    rw [mergeFront]
    apply (h y x).ask
    intro right
    cases right with
    | true => exact ih
    | false => exact ih'

theorem mergeBack_echoes (out xs ys : List α) :
    Echoes sound id (mergeBack less out xs ys) (mergeBack less' out xs ys) := by
  fun_induction mergeBack less out xs ys with
  | case1 out ys =>
    rw [mergeBack]
    exact .of_pure id _
  | case2 out xs some =>
    rw [mergeBack]
    · exact .of_pure id _
    · exact some
  | case3 out x xs y ys ih ih' =>
    rw [mergeBack]
    apply (h y x).ask
    intro left
    cases left with
    | true => exact ih
    | false => exact ih'

theorem merge_echoes (xs ys : List α) :
    Echoes sound id (merge less xs ys) (merge less' xs ys) := by
  rw [merge, merge]
  split
  · exact mergeFront_echoes h [] xs ys
  · exact mergeBack_echoes h [] _ _

theorem stretch_echoes (descending : Bool) (length : Nat) (last : α) (rest : List α) :
    Echoes sound id (stretch less descending length last rest)
      (stretch less' descending length last rest) := by
  induction rest generalizing length last with
  | nil => exact .of_pure id length
  | cons x rest ih =>
    apply (h x last).ask
    intro below
    exact .ite (fun _ => ih (length + 1) x) fun _ => .of_pure id length

theorem naturalRun_echoes (xs : List α) :
    Echoes sound id (naturalRun less xs) (naturalRun less' xs) := by
  rw [naturalRun.eq_def, naturalRun.eq_def]
  split
  · apply (h _ _).ask
    intro descending
    exact (stretch_echoes h _ _ _ _).ask fun length => .of_pure id (length, descending)
  · exact .of_pure id _

omit h in
/-- Plans that make and settle runs alike. -/
structure Plan.Alike (sound : Prop) (plan plan' : Plan Checked α) : Prop where
  length : plan'.length = plan.length
  make : ∀ xs, ArrangesAlike sound (plan.make xs) (plan'.make xs)
  settle : ∀ xs, ArrangesAlike sound (plan.settle xs) (plan'.settle xs)

variable {plan plan' : Plan Checked α} (alike : plan.Alike sound plan')

include alike

theorem cutRun_alike (good count : Nat) (hgood : 0 < good) (x : α) (rest : List α) :
    ArrangesAlike sound (cutRun less plan good count hgood x rest)
      (cutRun less' plan' good count hgood x rest) := by
  obtain ⟨length, pos, make, settle⟩ := plan
  obtain ⟨length', pos', make', settle'⟩ := plan'
  obtain ⟨rfl, hmake, -⟩ := alike
  rw [cutRun, cutRun]
  apply ArrangesAlike.ask
  · exact .ite (fun _ => naturalRun_echoes h _) fun _ => .of_pure id _
  · rintro ⟨length, reversed⟩
    dsimp only
    split
    · exact .of_pure _
    · exact ((hmake _).adapt _).seq fun run => .of_pure _

theorem join_alike (left right : Run α) :
    ArrangesAlike sound (join less plan left right) (join less' plan' left right) := by
  have merged (xs ys : List α) :
      ArrangesAlike sound
        (do return ⟨← (merge less xs ys : Checked _), true⟩ : Arranging Checked α (Run α))
        (do return ⟨← (merge less' xs ys : Checked _), true⟩ : Arranging Checked α (Run α)) :=
    .ask (merge_echoes h xs ys) fun _ => .of_pure _
  rw [join, join]
  -- what is not sorted is settled, unless neither is
  cases left.sorted <;> cases right.sorted
  · exact .of_pure _
  · exact ((alike.settle _).adapt _).seq fun xs => merged xs _
  · exact ((alike.settle _).adapt _).seq fun ys => merged _ ys
  · exact merged _ _

theorem collapse_alike (depth : Nat) (pending : Pending α) (run : Run α) :
    ArrangesAlike sound (collapse less plan depth pending run)
      (collapse less' plan' depth pending run) := by
  induction pending generalizing run with
  | nil => exact .of_pure _
  | cons p pending ih =>
    obtain ⟨left, d⟩ := p
    cases pending with
    | nil => exact .of_pure _
    | cons below rest =>
      rw [collapse, collapse]
      split
      · exact ((join_alike h alike left run).adapt _).seq ih
      · exact .of_pure _

theorem mergeRuns_alike (n : Nat) (pending : Pending α) (run : Run α) (start : Nat)
    (rest : List α) :
    ArrangesAlike sound (mergeRuns less plan n pending run start rest)
      (mergeRuns less' plan' n pending run start rest) := by
  induction hk : rest.length using Nat.strongRecOn generalizing pending run start rest with
  | ind k ih =>
    cases rest with
    | nil =>
      rw [mergeRuns, mergeRuns]
      exact (collapse_alike h alike 0 pending run).seq fun merged => .of_pure _
    | cons x rest =>
      rw [mergeRuns, mergeRuns]
      apply ((cutRun_alike h alike _ _ _ x rest).adapt _).seq
      rintro ⟨⟨next, after⟩, shorter⟩
      apply ((collapse_alike h alike _ pending run).adapt _).seq
      rintro ⟨pending', run'⟩
      exact ih after.length (hk ▸ shorter) _ _ _ after rfl

theorem runOf_alike (xs : List α) :
    ArrangesAlike sound (runOf less plan xs) (runOf less' plan' xs) :=
  mergeRuns_alike h alike xs.length [] ⟨[], true⟩ 0 xs

/-! ## Division -/

omit alike

theorem medianOfThree_echoes (get : Nat → α) (a b c : Nat) :
    Echoes sound id (medianOfThree less get a b c) (medianOfThree less' get a b c) := by
  apply (h _ _).ask
  intro belowB
  apply (h _ _).ask
  intro belowC
  apply Echoes.ite
  · intro _
    exact (h _ _).ask fun inOrder => .of_pure id _
  · exact fun _ => .of_pure id a

theorem pseudoMedian_echoes (get : Nat → α) (a b c n : Nat) :
    Echoes sound id (pseudoMedian less get a b c n) (pseudoMedian less' get a b c n) := by
  induction n using Nat.strongRecOn generalizing a b c with
  | ind n ih =>
    rw [pseudoMedian, pseudoMedian]
    split
    · apply (ih _ (by omega) _ _ _).ask
      intro a'
      apply (ih _ (by omega) _ _ _).ask
      intro b'
      exact (ih _ (by omega) _ _ _).ask fun c' => medianOfThree_echoes h get a' b' c'
    · exact medianOfThree_echoes h get a b c

theorem pivotIndex_echoes (first : α) (xs : Array α) :
    Echoes sound id (pivotIndex less first xs) (pivotIndex less' first xs) :=
  pseudoMedian_echoes h _ _ _ _ _

omit h in
theorem deal_echoes {test test' : α → Checked Bool}
    (htest : ∀ a, Echoes sound id (test a) (test' a)) (pass fail xs : List α) :
    Echoes sound id (deal test pass fail xs) (deal test' pass fail xs) := by
  induction xs generalizing pass fail with
  | nil => exact .of_pure id _
  | cons x rest ih =>
    apply (htest x).ask
    intro passes
    cases passes with
    | true => exact ih (x :: pass) fail
    | false => exact ih pass (x :: fail)

omit h in
theorem divide_echoes {test test' : α → Checked Bool}
    (htest : ∀ a, Echoes sound id (test a) (test' a)) (before : List α) (pivot : α)
    (after : List α) (pivotPasses : Bool) :
    Echoes sound id (divide test before pivot after pivotPasses)
      (divide test' before pivot after pivotPasses) := by
  apply (deal_echoes htest [] [] before).ask
  rintro ⟨pass, fail⟩
  cases pivotPasses with
  | true => exact (deal_echoes htest _ _ after).ask fun _ => .of_pure id _
  | false => exact (deal_echoes htest _ _ after).ask fun _ => .of_pure id _

theorem divideAtPivot_echoes (bound : Option α) (first : α) (rest : List α) :
    Echoes sound id (divideAtPivot less bound first rest)
      (divideAtPivot less' bound first rest) := by
  apply (pivotIndex_echoes h _ _).ask
  intro place
  rcases cutAt first rest place with ⟨before, pivot, after⟩
  have finish (low high : List α) :
      Echoes sound id
        (if low.isEmpty = true then do
          let p ← divide (fun x => do return !(← less pivot x)) before pivot after true
          pure (Division.least p.1 p.2)
        else pure (Division.between low pivot high))
        (if low.isEmpty = true then do
          let p ← divide (fun x => do return !(← less' pivot x)) before pivot after true
          pure (Division.least p.1 p.2)
        else pure (Division.between low pivot high)) := by
    split
    · apply (divide_echoes (fun x => (h pivot x).ask fun _ => .of_pure id _) _ _ _ _).ask
      exact fun _ => .of_pure id _
    · exact .of_pure id _
  have divided := divide_echoes (fun x => h x pivot) before pivot after false
  -- the first division is not asked for if the pivot is known to be least
  cases bound with
  | none =>
    apply Echoes.ask (.of_pure id false)
    intro isLeast
    cases isLeast with
    | true => exact finish [] (first :: rest)
    | false => exact divided.ask fun p => finish p.1 p.2
  | some bound =>
    apply (h bound pivot).ask
    intro below
    apply Echoes.ask (.of_pure id (!below))
    intro isLeast
    cases isLeast with
    | true => exact finish [] (first :: rest)
    | false => exact divided.ask fun p => finish p.1 p.2

theorem eagerPlan_alike : (eagerPlan less).Alike sound (eagerPlan less') where
  length := rfl
  make xs := (sortShort_alike h xs).seq fun _ => .of_pure _
  settle xs := sortShort_alike h xs

theorem sortByRuns_alike (xs : List α) :
    ArrangesAlike sound (sortByRuns less xs) (sortByRuns less' xs) :=
  (runOf_alike h (eagerPlan_alike h) xs).seq fun _ => .of_pure _

theorem sortByDivision_alike (limit : Nat) (bound : Option α) (xs : List α) :
    ArrangesAlike sound (sortByDivision less limit bound xs)
      (sortByDivision less' limit bound xs) := by
  induction limit generalizing bound xs with
  | zero =>
    cases xs with
    | nil => exact .of_pure _
    | cons x rest =>
      exact .ite (fun _ => sortShort_alike h _) fun _ => sortByRuns_alike h _
  | succ limit ih =>
    cases xs with
    | nil => exact .of_pure _
    | cons first rest =>
      rw [sortByDivision, sortByDivision]
      split
      · exact sortShort_alike h _
      · apply ArrangesAlike.ask (divideAtPivot_echoes h bound first rest)
        intro division
        cases division with
        | least equal greater => exact ((ih none greater).adapt _).seq fun sorted => .of_pure _
        | between low pivot high =>
          apply ((ih (some pivot) high).adapt _).seq
          intro high'
          exact ((ih bound low).adapt _).seq fun low' => .of_pure _

theorem lazyPlan_alike (n : Nat) : (lazyPlan less n).Alike sound (lazyPlan less' n) where
  length := rfl
  make _ := .of_pure _
  settle xs := sortByDivision_alike h _ none xs

/-- Sorting with a test that checks what it compares gives what sorting with one that does not
    gives. -/
theorem sort_alike (xs : List α) : ArrangesAlike sound (sort less xs) (sort less' xs) := by
  rw [sort, sort]
  split
  · exact .of_echoes (insertionSort_echoes h xs)
  · split
    · exact sortByRuns_alike h xs
    · apply (runOf_alike h (lazyPlan_alike h _) xs).seq
      intro run
      split
      · exact .of_pure _
      · exact sortByDivision_alike h _ none _

end StableSort
end ExternalSort
