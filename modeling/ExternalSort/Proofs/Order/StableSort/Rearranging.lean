/-
  ExternalSort.Proofs.Order.StableSort.Rearranging

  Sorting with any test.

  A test may answer what it likes, and change a state while it does. The result
  is still a rearrangement of what was to be sorted, and so is the arrangement
  that is told when the test is seen to contradict itself: elements are taken
  from one list and put into another, and none is forgotten.
-/

import ExternalSort.Proofs.Failing
import ExternalSort.Proofs.Order.StableSort.Division

namespace ExternalSort
namespace StableSort

variable {S α β : Type}

/-! ## Results in any state -/

/-- What holds of the result of a computation, whatever state it runs in. -/
def Yields (x : StateM S β) (post : β → Prop) : Prop := ∀ s, post (x.run s).1

namespace Yields

variable {γ : Type} {x : StateM S β} {f : β → StateM S γ} {post : γ → Prop}

theorem of_pure {c : γ} (h : post c) : Yields (pure c : StateM S γ) post := fun _ => h

/-- What is asked before does not matter. -/
theorem ask (h : ∀ b, Yields (f b) post) : Yields (x >>= f) post := by
  intro s
  rw [StateT.run_bind]
  exact h _ _

theorem seq {mid : β → Prop} (h : Yields x mid) (k : ∀ b, mid b → Yields (f b) post) :
    Yields (x >>= f) post := by
  intro s
  rw [StateT.run_bind]
  exact k _ (h s) _

end Yields

/-- A computation that may fail arranges `xs` either way; what it succeeds with has elements. -/
def Arranges (elements : β → List α) (op : Arranging (StateM S) α β) (xs : List α) : Prop :=
  ∀ s, Leads op s (fun b _ => (elements b).Perm xs) fun ys _ => ys.Perm xs

namespace Arranges

variable {γ : Type} {elements : β → List α} {elements' : γ → List α} {xs : List α}

theorem of_pure {b : β} (h : (elements b).Perm xs) :
    Arranges elements (pure b : Arranging (StateM S) α β) xs :=
  fun _ => Leads.of_pure h

theorem of_throw {ys : List α} (h : ys.Perm xs) :
    Arranges elements (throw ys : Arranging (StateM S) α β) xs :=
  fun _ => Leads.of_throw h

theorem of_state {x : StateM S β} (h : Yields x fun b => (elements b).Perm xs) :
    Arranges elements (liftM x : Arranging (StateM S) α β) xs :=
  fun s => Leads.of_state (h s)

/-- A part that cannot fail. -/
theorem of_yields {x : StateM S γ} {f : γ → Arranging (StateM S) α β} {post : γ → Prop}
    (h : Yields x post) (k : ∀ c, post c → Arranges elements (f c) xs) :
    Arranges elements ((liftM x : Arranging (StateM S) α γ) >>= f) xs :=
  fun s => Leads.bind (Leads.of_state (k _ (h s) _))

/-- A part that arranges some of the elements. What it arranges when it fails is put where it came
    from. -/
theorem part {op : Arranging (StateM S) α γ} {f : γ → Arranging (StateM S) α β} {ys : List α}
    {put : List α → List α} (h : Arranges elements' op ys) (whole : ∀ zs, zs.Perm ys → (put zs).Perm xs)
    (k : ∀ c, (elements' c).Perm ys → Arranges elements (f c) xs) :
    Arranges elements (op.adapt put >>= f) xs := by
  intro s
  have adapted : Leads (op.adapt put) s (fun c _ => (elements' c).Perm ys) fun zs _ => zs.Perm xs :=
    Leads.of_adapt ((h s).mono (fun _ _ perm => perm) fun zs _ perm => whole zs perm)
  exact adapted.seq (fun c s' perm => k c perm s') fun _ _ h => h

theorem perm {op : Arranging (StateM S) α β} {ys : List α} (h : Arranges elements op ys)
    (same : ys.Perm xs) : Arranges elements op xs :=
  fun s => (h s).mono (fun _ _ k => k.trans same) fun _ _ k => k.trans same

/-- The last part arranges everything. -/
theorem seq {op : Arranging (StateM S) α γ} {f : γ → Arranging (StateM S) α β}
    (h : Arranges elements' op xs) (k : ∀ c, (elements' c).Perm xs → Arranges elements (f c) xs) :
    Arranges elements (op >>= f) xs :=
  fun s => (h s).seq (fun c s' perm => k c perm s') fun _ _ h => h

end Arranges

variable (less : α → α → StateM S Bool)

/-! ## Insertion -/

theorem insertBack_yields (x : α) (ys : List α) :
    Yields (insertBack less x ys) fun zs => zs.Perm (x :: ys) := by
  induction ys with
  | nil => exact .of_pure (.refl _)
  | cons y rest ih =>
    refine .ask fun first => ?_
    cases first with
    | true => exact ih.seq fun zs perm => .of_pure ((perm.cons y).trans (.swap x y rest))
    | false => exact .of_pure (.refl _)

theorem insertAll_yields (sorted xs : List α) :
    Yields (insertAll less sorted xs) fun zs => zs.Perm (sorted ++ xs) := by
  induction xs generalizing sorted with
  | nil => exact .of_pure (by rw [List.append_nil])
  | cons x rest ih =>
    refine (insertBack_yields less x sorted).seq fun zs perm => ?_
    intro s
    exact (ih zs s).trans ((perm.append_right rest).trans List.perm_middle.symm)

theorem insertionSort_yields (xs : List α) :
    Yields (insertionSort less xs) fun zs => zs.Perm xs :=
  (insertAll_yields less [] xs).seq fun zs perm => .of_pure ((List.reverse_perm zs).trans perm)

/-! ## Short lists -/

theorem sortTwo_yields (x y : α) :
    Yields (sortTwo less x y) fun p => p = (x, y) ∨ p = (y, x) := by
  refine .ask fun swapped => .of_pure ?_
  cases swapped with
  | true => exact .inr rfl
  | false => exact .inl rfl

theorem sortFour_yields (xs : List α) : Yields (sortFour less xs) fun zs => zs.Perm xs := by
  rw [sortFour.eq_def]
  split
  · rename_i w x y z
    refine (sortTwo_yields less w x).seq fun ab hab => ?_
    refine (sortTwo_yields less y z).seq fun cd hcd => ?_
    refine .ask fun leastRight => .ask fun greatestLeft => ?_
    refine (sortTwo_yields less _ _).seq fun middle hmiddle => .of_pure ?_
    -- whatever was answered, the four places get the four elements
    rcases hab with rfl | rfl <;> rcases hcd with rfl | rfl <;> rcases hmiddle with rfl | rfl <;>
      cases leastRight <;> cases greatestLeft <;> classical grind
  · exact .of_pure (.refl _)

theorem sortStart_yields (long : Bool) (half : List α) :
    Yields (sortStart less long half) fun p => (p.1 ++ p.2).Perm half := by
  rw [sortStart]
  split
  · refine (sortFour_yields less (half.take 4)).seq fun zs perm => .of_pure ?_
    exact (perm.append_right _).trans (.of_eq (List.take_append_drop 4 half))
  · exact .of_pure (.of_eq (List.take_append_drop 1 half))

theorem sortHalves_yields (xs : List α) :
    Yields (sortHalves less xs) fun p =>
      p.1.Perm (xs.take (xs.length / 2)) ∧ p.2.Perm (xs.drop (xs.length / 2)) := by
  rw [sortHalves]
  refine (sortStart_yields less _ _).seq fun left hleft => ?_
  refine (sortStart_yields less _ _).seq fun right hright => ?_
  refine (insertAll_yields less _ _).seq fun ls hls => ?_
  refine (insertAll_yields less _ _).seq fun rs hrs => .of_pure ⟨?_, ?_⟩
  · exact (List.reverse_perm ls).trans
      (hls.trans (((List.reverse_perm _).append_right _).trans hleft))
  · exact (List.reverse_perm rs).trans
      (hrs.trans (((List.reverse_perm _).append_right _).trans hright))

/-! ## Merging from both ends -/

/-- At one end of two lists `k` elements were taken, from either of the two. -/
def Taken (left right : List α) (k : Nat) (lefts rights taken : List α) : Prop :=
  ∃ i j, i + j = k ∧ i ≤ left.length ∧ j ≤ right.length ∧ lefts = left.drop i ∧
    rights = right.drop j ∧ taken.Perm (left.take i ++ right.take j)

namespace Taken

variable {left right lefts rights taken : List α} {k : Nat} {x : α}

theorem start (left right : List α) : Taken left right 0 left right [] :=
  ⟨0, 0, rfl, Nat.zero_le _, Nat.zero_le _, rfl, rfl, .refl _⟩

theorem takes_left (h : Taken left right k (x :: lefts) rights taken) :
    Taken left right (k + 1) lefts rights (x :: taken) := by
  obtain ⟨i, j, rfl, -, hj, hl, hr, perm⟩ := h
  have hi : i < left.length := by
    have := congrArg List.length hl
    rw [List.length_cons, List.length_drop] at this
    omega
  rw [List.drop_eq_getElem_cons hi] at hl
  obtain ⟨rfl, rfl⟩ := List.cons.inj hl
  refine ⟨i + 1, j, by omega, hi, hj, rfl, hr, ?_⟩
  rw [List.take_succ_eq_append_getElem hi, List.append_assoc, List.singleton_append]
  exact (perm.cons _).trans List.perm_middle.symm

theorem takes_right (h : Taken left right k lefts (x :: rights) taken) :
    Taken left right (k + 1) lefts rights (x :: taken) := by
  obtain ⟨i, j, rfl, hi, -, hl, hr, perm⟩ := h
  have hj : j < right.length := by
    have := congrArg List.length hr
    rw [List.length_cons, List.length_drop] at this
    omega
  rw [List.drop_eq_getElem_cons hj] at hr
  obtain ⟨rfl, rfl⟩ := List.cons.inj hr
  refine ⟨i, j + 1, by omega, hi, hj, hl, rfl, ?_⟩
  rw [List.take_succ_eq_append_getElem hj, ← List.append_assoc]
  exact (perm.cons _).trans (List.perm_append_singleton _ _).symm

/-- Fewer were taken than either list has, so both have some left. -/
theorem some_left (h : Taken left right k lefts rights taken) (hl : k < left.length)
    (hr : k < right.length) : ∃ x xs y ys, lefts = x :: xs ∧ rights = y :: ys := by
  obtain ⟨i, j, rfl, -, -, rfl, rfl, -⟩ := h
  exact ⟨_, _, _, _, List.drop_eq_getElem_cons (by omega : i < left.length),
    List.drop_eq_getElem_cons (by omega : j < right.length)⟩

end Taken

/-- Two halves of which `k` elements each were taken from the front and from the back. -/
structure Ends.Of (left right : List α) (k : Nat) (e : Ends α) : Prop where
  front : Taken left right k e.leftFront e.rightFront e.low
  back : Taken left.reverse right.reverse k e.leftBack e.rightBack e.high

theorem takeBoth_yields {left right : List α} (steps : Nat) {k : Nat} {e : Ends α}
    (h : Ends.Of left right k e) (hl : k + steps ≤ left.length) (hr : k + steps ≤ right.length) :
    Yields (Ends.takeBoth less steps e) fun e' => Ends.Of left right (k + steps) e' := by
  induction steps generalizing k e with
  | zero => exact .of_pure h
  | succ steps ih =>
    obtain ⟨front, back⟩ := h
    obtain ⟨lf, rf, lb, rb, low, high⟩ := e
    -- as many are left on both sides as there are steps, so neither end runs dry
    obtain ⟨x, xs, y, ys, rfl, rfl⟩ := front.some_left (by omega) (by omega)
    obtain ⟨x', xs', y', ys', rfl, rfl⟩ := back.some_left (by rw [List.length_reverse]; omega)
      (by rw [List.length_reverse]; omega)
    rw [Ends.takeBoth]
    have least : Yields (Ends.takeLeast less ⟨x :: xs, y :: ys, x' :: xs', y' :: ys', low, high⟩)
        fun e => ∃ lf rf low, e = ⟨lf, rf, x' :: xs', y' :: ys', low, high⟩ ∧
          Taken left right (k + 1) lf rf low := by
      refine .ask fun fromRight => ?_
      cases fromRight with
      | true => exact .of_pure ⟨_, _, _, rfl, front.takes_right⟩
      | false => exact .of_pure ⟨_, _, _, rfl, front.takes_left⟩
    refine least.seq ?_
    rintro _ ⟨lf, rf, low, rfl, front'⟩
    have greatest : Yields (Ends.takeGreatest less ⟨lf, rf, x' :: xs', y' :: ys', low, high⟩)
        fun e => Ends.Of left right (k + 1) e := by
      refine .ask fun fromLeft => ?_
      cases fromLeft with
      | true => exact .of_pure ⟨front', back.takes_left⟩
      | false => exact .of_pure ⟨front', back.takes_right⟩
    refine greatest.seq fun e' both => ?_
    have rest := ih both (by omega) (by omega)
    rwa [show k + 1 + steps = k + (steps + 1) by omega] at rest

/-- What was taken at the back, as it stands in the list. -/
theorem Taken.reverse {left right lefts rights taken : List α} {k : Nat}
    (h : Taken left.reverse right.reverse k lefts rights taken) :
    ∃ i j, i + j = k ∧ i ≤ left.length ∧ j ≤ right.length ∧ lefts.length = left.length - i ∧
      taken.Perm (left.drop (left.length - i) ++ right.drop (right.length - j)) := by
  obtain ⟨i, j, sum, hi, hj, rfl, -, perm⟩ := h
  rw [List.length_reverse] at hi hj
  refine ⟨i, j, sum, hi, hj, by rw [List.length_drop, List.length_reverse], ?_⟩
  rw [List.take_reverse, List.take_reverse] at perm
  exact perm.trans ((List.reverse_perm _).append (List.reverse_perm _))

/-- Where the ends meet, every element was taken once. -/
theorem meet?_perm {left right : List α} {e : Ends α} (h : Ends.Of left right left.length e)
    (hlow : left.length ≤ right.length) (hhigh : right.length ≤ left.length + 1) {merged : List α}
    (hmeet : e.meet? left.length (left.length < right.length) = some merged) :
    merged.Perm (left ++ right) := by
  obtain ⟨⟨i, j, sum, hi, hj, hl, hr, low⟩, back⟩ := h
  obtain ⟨i', j', sum', hi', hj', hlength, high⟩ := back.reverse
  rw [Ends.meet?, hl, hr, hlength, List.length_drop] at hmeet
  have split (xs : List α) (i k : Nat) :
      xs = xs.take i ++ ((xs.drop i).take k ++ xs.drop (i + k)) := by
    rw [← List.drop_drop, List.take_append_drop, List.take_append_drop]
  have taken := (List.reverse_perm e.low).trans low
  split at hmeet
  -- both ends cut the left half at one place, and in the right half one element may be left
  · obtain rfl := Option.some.inj hmeet
    generalize hodd : (decide (left.length < right.length)).toNat = odd
    have : right.length = left.length + odd := by
      rw [← hodd]
      by_cases h : left.length < right.length <;> simp [h] <;> omega
    rw [show left.length - i' = i by omega, show right.length - j' = j + odd by omega] at high
    have whole := split right j odd
    have cut := List.take_append_drop i left
    classical grind
  -- or they cut the right half at one place, and one element of the left half is left
  · split at hmeet
    · rename_i hone
      obtain rfl := Option.some.inj hmeet
      obtain ⟨odd, hone⟩ := Bool.and_eq_true_iff.mp hone
      have hodd := of_decide_eq_true odd
      have hone := of_decide_eq_true hone
      rw [show left.length - i' = i + 1 by omega, show right.length - j' = j by omega] at high
      have whole := split left i 1
      have cut := List.take_append_drop j right
      classical grind
    · cases hmeet

theorem mergeHalves_arranges {left right : List α} (hlow : left.length ≤ right.length)
    (hhigh : right.length ≤ left.length + 1) :
    Arranges id (mergeHalves less left right) (left ++ right) := by
  have start : Ends.Of left right 0 (Ends.ofHalves left right) := ⟨.start _ _, .start _ _⟩
  refine .of_yields (takeBoth_yields less left.length start (by omega) (by omega)) fun e both => ?_
  rw [Nat.zero_add] at both
  split
  · exact .of_pure (meet?_perm both hlow hhigh ‹_›)
  · exact .of_throw (.refl _)

theorem sortShort_arranges (xs : List α) : Arranges id (sortShort less xs) xs := by
  rw [sortShort]
  split
  · exact .of_pure (.refl xs)
  · refine .of_yields (sortHalves_yields less xs) ?_
    rintro ⟨left, right⟩ ⟨hleft, hright⟩
    have l := hleft.length_eq
    have r := hright.length_eq
    dsimp only at l r hleft hright ⊢
    rw [List.length_take] at l
    rw [List.length_drop] at r
    refine (mergeHalves_arranges less (by omega) (by omega)).perm ?_
    exact (hleft.append hright).trans (.of_eq (List.take_append_drop _ xs))

/-! ## Runs -/

theorem mergeFront_yields (out xs ys : List α) :
    Yields (mergeFront less out xs ys) fun zs => zs.Perm (out ++ (xs ++ ys)) := by
  fun_induction mergeFront less out xs ys with
  | case1 out ys =>
    refine .of_pure ?_
    rw [List.reverseAux_eq]
    exact (List.reverse_perm out).append_right _
  | case2 out xs =>
    refine .of_pure ?_
    rw [List.reverseAux_eq, List.append_nil]
    exact (List.reverse_perm out).append_right _
  | case3 out x xs y ys ihy ihx =>
    refine .ask fun first => ?_
    cases first with
    | true =>
      intro s
      have := ihy s
      classical grind
    | false =>
      intro s
      have := ihx s
      classical grind

theorem mergeBack_yields (out xs ys : List α) :
    Yields (mergeBack less out xs ys) fun zs => zs.Perm (out ++ (xs ++ ys)) := by
  fun_induction mergeBack less out xs ys with
  | case1 out ys =>
    refine .of_pure ?_
    rw [List.reverseAux_eq]
    exact ((List.reverse_perm ys).append_right out).trans List.perm_append_comm
  | case2 out xs =>
    refine .of_pure ?_
    rw [List.reverseAux_eq, List.append_nil]
    exact ((List.reverse_perm xs).append_right out).trans List.perm_append_comm
  | case3 out x xs y ys ihx ihy =>
    refine .ask fun first => ?_
    cases first with
    | true =>
      intro s
      have := ihx s
      classical grind
    | false =>
      intro s
      have := ihy s
      classical grind

theorem merge_yields (xs ys : List α) :
    Yields (merge less xs ys) fun zs => zs.Perm (xs ++ ys) := by
  rw [merge]
  split
  · exact mergeFront_yields less [] xs ys
  · intro s
    exact (mergeBack_yields less [] xs.reverse ys.reverse s).trans
      ((List.reverse_perm xs).append (List.reverse_perm ys))

/-- A plan only rearranges what it is given. -/
structure Plan.Rearranges (plan : Plan (StateM S) α) : Prop where
  make : ∀ xs, Arranges Run.elements (plan.make xs) xs
  settle : ∀ xs, Arranges id (plan.settle xs) xs

variable {plan : Plan (StateM S) α}

theorem cutRun_arranges (rearranges : plan.Rearranges) (good count : Nat) (hgood : 0 < good) (x : α)
    (rest : List α) :
    Arranges (fun c => c.1.1.elements ++ c.1.2) (cutRun less plan good count hgood x rest)
      (x :: rest) := by
  rw [cutRun]
  refine .of_yields (show Yields _ fun _ => True from fun _ => trivial) ?_
  rintro ⟨length, reversed⟩ -
  dsimp only
  split
  · refine .of_pure ?_
    have whole := List.take_append_drop length (x :: rest)
    cases reversed with
    | true => exact ((List.reverse_perm _).append_right _).trans (.of_eq whole)
    | false => exact .of_eq whole
  · have whole := List.take_append_drop plan.length (x :: rest)
    refine (rearranges.make _).part (fun zs perm => ?_) fun run perm => .of_pure ?_
    · exact (perm.append_right _).trans (.of_eq whole)
    · exact (perm.append_right _).trans (.of_eq whole)

theorem join_arranges (rearranges : plan.Rearranges) (left right : Run α) :
    Arranges Run.elements (join less plan left right) (left.elements ++ right.elements) := by
  have merged {xs ys : List α} (hxs : xs.Perm left.elements) (hys : ys.Perm right.elements) :
      Arranges Run.elements (do return ⟨← (merge less xs ys : StateM S _), true⟩ :
        Arranging (StateM S) α (Run α)) (left.elements ++ right.elements) :=
    .of_yields (merge_yields less xs ys) fun zs perm => .of_pure (perm.trans (hxs.append hys))
  rw [join]
  cases hl : left.sorted <;> cases hr : right.sorted
  · exact .of_pure (.refl _)
  · exact (rearranges.settle _).part (fun zs perm => perm.append_right _) fun xs perm =>
      merged perm (.refl _)
  · exact (rearranges.settle _).part (fun zs perm => perm.append_left _) fun ys perm =>
      merged (.refl _) perm
  · exact merged (.refl _) (.refl _)

/-! ## The merge tree -/

theorem Pending.elements_cons (p : Run α × Nat) (pending : Pending α) :
    Pending.elements (p :: pending) = pending.elements ++ p.1.elements := by
  have fold (after : List α) : pending.foldl (fun after p => p.1.elements ++ after) after =
      pending.elements ++ after := by
    unfold Pending.elements
    induction pending generalizing after with
    | nil => rfl
    | cons q pending ih =>
      rw [List.foldl_cons, List.foldl_cons, ih, ih (q.1.elements ++ []), List.append_nil,
        List.append_assoc]
  rw [Pending.elements, List.foldl_cons, fold, List.append_nil]

/-- The first run of all stays, and down to depth 0 nothing else waits. -/
theorem collapse_arranges (rearranges : plan.Rearranges) (depth : Nat) (pending : Pending α)
    (run : Run α) (s : S) :
    Leads (collapse less plan depth pending run) s
      (fun p _ => (p.1.elements ++ p.2.elements).Perm (pending.elements ++ run.elements) ∧
        p.1.getLast? = pending.getLast? ∧ (depth = 0 → p.1.length ≤ 1))
      (fun ys _ => ys.Perm (pending.elements ++ run.elements)) := by
  fun_induction collapse less plan depth pending run generalizing s with
  -- the run on top of the stack is joined with the new one; those below it wait
  | case1 left d below rest run h ih =>
    have whole {zs : List α} (perm : zs.Perm (left.elements ++ run.elements)) :
        (Pending.elements (below :: rest) ++ zs).Perm
          (Pending.elements ((left, d) :: below :: rest) ++ run.elements) := by
      rw [Pending.elements_cons (left, d), List.append_assoc]
      exact perm.append_left _
    have joined : Leads ((join less plan left run).adapt (Pending.elements (below :: rest) ++ ·)) s
        (fun run' _ => run'.elements.Perm (left.elements ++ run.elements)) fun ys _ =>
          ys.Perm (Pending.elements ((left, d) :: below :: rest) ++ run.elements) :=
      Leads.of_adapt ((join_arranges less rearranges left run s).mono (fun _ _ perm => perm)
        fun _ _ perm => whole perm)
    refine joined.seq (fun run' s' perm => ?_) fun _ _ h => h
    refine (ih run' s').mono ?_ fun ys _ perm' => perm'.trans (whole perm)
    rintro p _ ⟨perm', last, zero⟩
    exact ⟨perm'.trans (whole perm), last, zero⟩
  | case2 left d below rest run h =>
    exact Leads.of_pure ⟨.refl _, rfl, fun zero => absurd (zero ▸ Nat.zero_le d) h⟩
  | case3 pending run h =>
    refine Leads.of_pure ⟨.refl _, rfl, fun _ => ?_⟩
    rcases pending with _ | ⟨p, _ | ⟨below, rest⟩⟩
    · exact Nat.zero_le 1
    · exact Nat.le_refl 1
    · exact absurd rfl (h p.1 p.2 below rest)

/-- The first of the runs that wait is empty. -/
def Pending.Starts (pending : Pending α) : Prop := ∀ p ∈ pending.getLast?, p.1.elements = []

namespace Pending.Starts

variable {pending waiting : Pending α} {run run' : Run α}

/-- If no other run waits, there is nothing in those that do. -/
theorem elements_eq_nil (starts : pending.Starts) (same : waiting.getLast? = pending.getLast?)
    (few : waiting.length ≤ 1) : waiting.elements = [] := by
  rcases waiting with _ | ⟨p, _ | ⟨q, others⟩⟩
  · rfl
  · rw [Pending.elements_cons]
    exact starts p same.symm
  · exact absurd few (by simp)

/-- One more run waits; it is empty if it is the first. -/
theorem push (starts : pending.Starts) (first : pending = [] → run.elements = [])
    (same : waiting.getLast? = pending.getLast?)
    (perm : (waiting.elements ++ run'.elements).Perm (pending.elements ++ run.elements))
    (depth : Nat) : Pending.Starts ((run', depth) :: waiting) := by
  cases waiting with
  | cons p rest =>
    intro q hq
    rw [List.getLast?_cons_cons] at hq
    exact starts q (same ▸ hq)
  | nil =>
    have none : pending = [] := List.getLast?_eq_none_iff.mp same.symm
    subst none
    rintro q ⟨⟩
    rw [Pending.elements, List.foldl_nil, List.nil_append, List.nil_append, first rfl] at perm
    exact List.nil_perm.mp perm.symm

end Pending.Starts

theorem mergeRuns_arranges (rearranges : plan.Rearranges) (n : Nat) {pending : Pending α} {run : Run α}
    (start : Nat) (rest : List α) (starts : pending.Starts)
    (first : pending = [] → run.elements = []) :
    Arranges Run.elements (mergeRuns less plan n pending run start rest)
      (pending.elements ++ run.elements ++ rest) := by
  -- by induction on what is left to cut
  induction hn : rest.length using Nat.strongRecOn generalizing pending run start rest with
  | ind k ih =>
    intro s
    cases rest with
    | nil =>
      rw [mergeRuns, List.append_nil]
      refine (collapse_arranges less rearranges 0 pending run s).seq ?_ fun _ _ perm => perm
      rintro ⟨waiting, last⟩ s' ⟨perm, same, few⟩
      -- what still waits is the first run, which is empty
      rw [starts.elements_eq_nil same (few rfl)] at perm
      exact Leads.of_pure perm
    | cons x rest =>
      rw [mergeRuns]
      have cut : Leads ((cutRun less plan (goodLength n) (n - start) (goodLength_pos n) x rest).adapt
          (pending.elements ++ run.elements ++ ·)) s
          (fun c _ => (c.1.1.elements ++ c.1.2).Perm (x :: rest)) fun ys _ =>
            ys.Perm (pending.elements ++ run.elements ++ x :: rest) :=
        Leads.of_adapt ((cutRun_arranges less rearranges _ _ _ x rest s).mono (fun _ _ perm => perm)
          fun _ _ perm => perm.append_left _)
      refine cut.seq ?_ fun _ _ perm => perm
      rintro ⟨⟨next, after⟩, shorter⟩ s' (perm : (next.elements ++ after).Perm (x :: rest))
      dsimp only
      have whole {zs : List α} (perm' : zs.Perm (pending.elements ++ run.elements)) :
          (zs ++ next.elements ++ after).Perm (pending.elements ++ run.elements ++ x :: rest) := by
        rw [List.append_assoc]
        exact perm'.append perm
      refine (Leads.of_adapt ((collapse_arranges less rearranges _ pending run s').mono
        (fun _ _ h => h) fun zs _ perm' => whole perm')).seq ?_ fun _ _ perm => perm
      rintro ⟨waiting, run'⟩ s'' ⟨perm', same, -⟩
      dsimp only at perm' same
      have starts' := starts.push first same perm' (nodeDepth n (start - run.elements.length) start
        (start + next.elements.length))
      refine (Arranges.perm (ih after.length (hn ▸ shorter) _ after starts' ?_ rfl) ?_) s''
      · exact fun none => absurd none (List.cons_ne_nil _ _)
      rw [Pending.elements_cons]
      exact whole perm'

theorem runOf_arranges (rearranges : plan.Rearranges) (xs : List α) :
    Arranges Run.elements (runOf less plan xs) xs :=
  mergeRuns_arranges less rearranges xs.length 0 xs (by rintro p ⟨⟩) fun _ => rfl

/-! ## Dividing -/

theorem deal_yields (test : α → StateM S Bool) (pass fail xs : List α) :
    Yields (deal test pass fail xs) fun p => (p.1 ++ p.2).Perm (pass ++ fail ++ xs) := by
  induction xs generalizing pass fail with
  | nil => exact .of_pure (by rw [List.append_nil])
  | cons x rest ih =>
    refine .ask fun passes => ?_
    intro s
    cases passes with
    | true =>
      have := ih (x :: pass) fail s
      classical grind
    | false =>
      have := ih pass (x :: fail) s
      classical grind

theorem divide_yields (test : α → StateM S Bool) (before : List α) (pivot : α) (after : List α)
    (pivotPasses : Bool) :
    Yields (divide test before pivot after pivotPasses) fun p =>
      (p.1 ++ p.2).Perm (before ++ pivot :: after) := by
  rw [divide]
  refine (deal_yields test [] [] before).seq ?_
  rintro ⟨pass, fail⟩ (perm : (pass ++ fail).Perm before)
  have turned {p : List α × List α} (dealt : (p.1 ++ p.2).Perm (pass ++ fail ++ pivot :: after)) :
      (p.1.reverse ++ p.2.reverse).Perm (before ++ pivot :: after) :=
    ((List.reverse_perm _).append (List.reverse_perm _)).trans (dealt.trans (perm.append_right _))
  dsimp only
  split
  · refine (deal_yields test (pivot :: pass) fail after).seq fun p dealt => .of_pure (turned ?_)
    exact dealt.trans List.perm_middle.symm
  · refine (deal_yields test pass (pivot :: fail) after).seq fun p dealt => .of_pure (turned ?_)
    rw [List.append_assoc] at dealt ⊢
    exact dealt.trans (List.perm_middle.symm.append_left pass)

/-- The elements of both parts. -/
def Division.elements : Division α → List α
  | .least equal greater => equal ++ greater
  | .between low _ high => low ++ high

theorem divideAtPivot_yields (bound : Option α) (first : α) (rest : List α) :
    Yields (divideAtPivot less bound first rest) fun d => d.elements.Perm (first :: rest) := by
  refine .ask fun place => ?_
  have whole : (cutAt first rest place).1 ++ (cutAt first rest place).2.1 ::
      (cutAt first rest place).2.2 = first :: rest := cutAt_append first rest place
  rcases hcut : cutAt first rest place with ⟨before, pivot, after⟩
  rw [hcut] at whole
  dsimp only
  have finish {low high : List α} (perm : (low ++ high).Perm (first :: rest)) :
      Yields (if low.isEmpty = true then do
          let p ← divide (fun x => do return !(← less pivot x)) before pivot after true
          pure (Division.least p.1 p.2)
        else pure (Division.between low pivot high)) fun d => d.elements.Perm (first :: rest) := by
    split
    · exact (divide_yields _ before pivot after true).seq fun p perm' =>
        .of_pure (perm'.trans (.of_eq whole))
    · exact .of_pure perm
  have divided : Yields (divide (fun x => less x pivot) before pivot after false) fun p =>
      (p.1 ++ p.2).Perm (first :: rest) := whole ▸ divide_yields _ before pivot after false
  -- the first division is not asked for if the pivot is known to be least
  cases bound with
  | none =>
    refine .ask fun isLeast => ?_
    cases isLeast with
    | true => exact finish (List.Perm.refl ([] ++ first :: rest))
    | false => exact divided.seq fun p perm => finish perm
  | some bound =>
    refine .ask fun below => .ask fun isLeast => ?_
    cases isLeast with
    | true => exact finish (List.Perm.refl ([] ++ first :: rest))
    | false => exact divided.seq fun p perm => finish perm

/-! ## Sorting altogether -/

theorem eagerPlan_rearranges : (eagerPlan less).Rearranges where
  make xs := (sortShort_arranges less xs).seq fun _ perm => .of_pure perm
  settle xs := sortShort_arranges less xs

theorem sortByRuns_arranges (xs : List α) : Arranges id (sortByRuns less xs) xs :=
  (runOf_arranges less (eagerPlan_rearranges less) xs).seq fun _ perm => .of_pure perm

theorem sortByDivision_arranges (limit : Nat) (bound : Option α) (xs : List α) :
    Arranges id (sortByDivision less limit bound xs) xs := by
  induction limit generalizing bound xs with
  | zero =>
    cases xs with
    | nil => exact .of_pure (.refl _)
    | cons x rest =>
      rw [sortByDivision]
      · split
        · exact sortShort_arranges less _
        · exact sortByRuns_arranges less _
      · rintro ⟨⟩
  | succ limit ih =>
    cases xs with
    | nil => exact .of_pure (.refl _)
    | cons first rest =>
      rw [sortByDivision]
      split
      · exact sortShort_arranges less _
      -- both parts are sorted where they stand, so the whole stays a rearrangement
      · refine .of_yields (divideAtPivot_yields less bound first rest) fun d whole => ?_
        cases d with
        | least equal greater =>
          refine (ih none greater).part (fun zs perm => (perm.append_left equal).trans whole) ?_
          intro zs perm
          exact .of_pure ((perm.append_left equal).trans whole)
        | between low pivot high =>
          refine (ih (some pivot) high).part (fun zs perm => (perm.append_left low).trans whole) ?_
          intro high' perm
          have whole' : (low ++ high').Perm (first :: rest) := (perm.append_left low).trans whole
          refine (ih bound low).part (fun zs perm' => (perm'.append_right high').trans whole') ?_
          intro low' perm'
          exact .of_pure ((perm'.append_right high').trans whole')

theorem lazyPlan_rearranges (n : Nat) : (lazyPlan less n).Rearranges where
  make xs := .of_pure (.refl xs)
  settle xs := sortByDivision_arranges less _ none xs

/-- Whatever the test answers, sorting rearranges a list, and what it leaves when it finds out that
    the test contradicts itself is a rearrangement, too. -/
theorem sort_arranges (xs : List α) : Arranges id (sort less xs) xs := by
  rw [sort]
  split
  · exact .of_state (insertionSort_yields less xs)
  · split
    · exact sortByRuns_arranges less xs
    · refine (runOf_arranges less (lazyPlan_rearranges less _) xs).seq fun run perm => ?_
      split
      · exact .of_pure perm
      · exact (sortByDivision_arranges less _ none _).perm perm

end StableSort
end ExternalSort
