/-
  ExternalSort.Proofs.Order.Looping

  The heap operations as loops on a slice.

  A loop looks up and swaps elements by indices that it computes, and goes round
  as long as it likes. Here every index is checked against the slice, and the
  rounds are counted: a heap of `n` elements has `n.log2 + 1` levels, and no
  element moves through more of them. The loops come to what the operations come
  to, whatever the test answers, so no check fails and no loop goes on.
-/

import ExternalSort.Order.Heap
import Mathlib.Algebra.Group.Nat.Defs

namespace ExternalSort
namespace Heap

variable {m : Type → Type} [Monad m] {α : Type} {n : Nat}

/-- How a loop on a slice goes wrong. -/
inductive LoopFault
  /-- An index is not one of the slice. -/
  | outside (index : Nat)
  /-- The loop used up its rounds. -/
  | endless
deriving DecidableEq, Repr

/-- What a loop does, or how it goes wrong. -/
abbrev Loop (m : Type → Type) := ExceptT LoopFault m

/-- The element at an index. -/
def fetch (xs : Array α) (i : Nat) : Loop m α :=
  if h : i < xs.size then return xs[i] else throw (.outside i)

/-- Swaps the elements at two indices. -/
def exchange (xs : Array α) (i j : Nat) : Loop m (Array α) :=
  if hi : i < xs.size then
    if hj : j < xs.size then return xs.swap i j else throw (.outside j)
  else throw (.outside i)

/-- Moves the element at `i` up while its parent is less. -/
def siftUpLoop (less : α → α → m Bool) : (rounds : Nat) → Array α → Nat → Loop m (Array α)
  | 0, _, _ => throw .endless
  | rounds + 1, xs, i => do
    if i = 0 then return xs
    else
      let parent := (i - 1) / 2
      let above ← fetch xs parent
      let here ← fetch xs i
      if ← less above here then siftUpLoop less rounds (← exchange xs parent i) parent
      else return xs

/-- Where the greater child stands, if the left one stands at `left`. -/
def greaterChildLoop (less : α → α → m Bool) (xs : Array α) (left len : Nat) : Loop m Nat := do
  if left + 1 < len then
    let first ← fetch xs left
    let second ← fetch xs (left + 1)
    if ← less first second then return left + 1 else return left
  else return left

/-- Moves the element at `i` down, within the first `len` elements, while a child is greater. -/
def siftDownLoop (less : α → α → m Bool) (len : Nat) :
    (rounds : Nat) → Array α → Nat → Loop m (Array α)
  | 0, _, _ => throw .endless
  | rounds + 1, xs, i => do
    let left := 2 * i + 1
    if len ≤ left then return xs
    else
      let child ← greaterChildLoop less xs left len
      let here ← fetch xs i
      let below ← fetch xs child
      if ← less here below then siftDownLoop less len rounds (← exchange xs i child) child
      else return xs

/-- The rounds that one element may take in a slice of `n`. -/
def rounds (n : Nat) : Nat := n.log2 + 1

/-- Moves the first `k` elements down, last to first. -/
def makeLoop (less : α → α → m Bool) : (k : Nat) → Array α → Loop m (Array α)
  | 0, xs => return xs
  | k + 1, xs => do makeLoop less k (← siftDownLoop less xs.size (rounds xs.size) xs k)

/-- Moves the elements on top behind index `k`, `k - 1` and so on to `0`. -/
def sortLoop (less : α → α → m Bool) : (k : Nat) → Array α → Loop m (Array α)
  | 0, xs => return xs
  | k + 1, xs => do
    let swapped ← exchange xs 0 (k + 1)
    sortLoop less k (← siftDownLoop less (k + 1) (rounds xs.size) swapped 0)

/-! ## The operations on arrays -/

/-- The operations on a slice. -/
inductive Operation
  | make
  | push
  | pop
  | sort
deriving DecidableEq, Repr

/-- What an operation does to an array. -/
def Operation.on (less : α → α → m Bool) (xs : Array α) : Operation → m (Array α)
  | .make => onArray (Heap.make less) xs
  | .push => onArray (Heap.push less) xs
  | .pop => onArray (Heap.pop less) xs
  | .sort => onArray (Heap.sort less) xs

/-- The loop of an operation: what it does to a slice, step by step. -/
def Operation.loop (less : α → α → m Bool) (xs : Array α) : Operation → Loop m (Array α)
  | .make => makeLoop less (xs.size / 2) xs
  | .push => do
    if 1 < xs.size then siftUpLoop less (rounds xs.size) xs (xs.size - 1) else return xs
  | .pop => do
    if 1 < xs.size then
      let swapped ← exchange xs 0 (xs.size - 1)
      siftDownLoop less (xs.size - 1) (rounds xs.size) swapped 0
    else return xs
  | .sort => sortLoop less (xs.size - 1) xs

/-! ## One element -/

theorem fetch_toArray (v : Vector α n) {i : Nat} (hi : i < n) :
    (fetch v.toArray i : Loop m α) = pure v[i] := by
  rw [fetch, dif_pos (by simpa using hi)]
  rfl

theorem exchange_toArray (v : Vector α n) {i j : Nat} (hi : i < n) (hj : j < n) :
    (exchange v.toArray i j : Loop m (Array α)) = pure (v.swap i j).toArray := by
  rw [exchange, dif_pos (by simpa using hi), dif_pos (by simpa using hj)]
  rfl

section Lawful

variable [LawfulMonad m] (less : α → α → m Bool)

/-- Each round halves the index. -/
theorem siftUpLoop_eq {rounds : Nat} (v : Vector α n) {i : Nat} (hi : i < n)
    (enough : i + 1 < 2 ^ rounds) :
    siftUpLoop less rounds v.toArray i = liftM (Vector.toArray <$> siftUp less v i hi) := by
  induction rounds generalizing v i with
  | zero => omega
  | succ rounds ih =>
    rw [siftUpLoop, siftUp]
    split
    · simp
    · dsimp only
      rw [fetch_toArray v (by omega), fetch_toArray v hi, pure_bind, pure_bind, map_bind, liftM_bind]
      congr 1
      funext up
      cases up with
      | true =>
        rw [if_pos rfl, if_pos rfl, exchange_toArray v (by omega) hi, pure_bind]
        exact ih _ _ (by omega)
      | false => simp

/-- The loop goes on from one of the two children, as the operation does. -/
theorem greaterChildLoop_bind {β : Type} (v : Vector α n) {i len : Nat} (hlen : len ≤ n)
    (hl : 2 * i + 1 < len) {g : Nat → Loop m β} {f : { c : Nat // i < c ∧ c < len } → m β}
    (same : ∀ c (hc : i < c ∧ c < len), 2 * i + 1 ≤ c → g c = liftM (f ⟨c, hc⟩)) :
    greaterChildLoop less v.toArray (2 * i + 1) len >>= g
      = liftM (greaterChild less v i len hlen hl >>= f) := by
  rw [greaterChildLoop, greaterChild]
  split
  · rw [fetch_toArray v (by omega), fetch_toArray v (by omega), pure_bind, pure_bind, bind_assoc,
      bind_assoc, liftM_bind]
    congr 1
    funext right
    cases right with
    | true => simpa using same (2 * i + 2) _ (by omega)
    | false => simpa using same (2 * i + 1) _ (Nat.le_refl _)
  · simpa using same (2 * i + 1) _ (Nat.le_refl _)

/-- Each round doubles the index. -/
theorem siftDownLoop_eq {rounds : Nat} (v : Vector α n) {i len : Nat} (hlen : len ≤ n)
    (hi : i < len) (enough : len < (i + 1) * 2 ^ rounds) :
    siftDownLoop less len rounds v.toArray i
      = liftM (Vector.toArray <$> siftDown less v i len hlen hi) := by
  induction rounds generalizing v i with
  | zero => omega
  | succ rounds ih =>
    rw [siftDownLoop, siftDown]
    by_cases hl : 2 * i + 1 < len
    · rw [if_neg (by omega), dif_pos hl, map_bind]
      refine greaterChildLoop_bind less v hlen hl fun child hchild first => ?_
      obtain ⟨below, hc⟩ := hchild
      rw [fetch_toArray v (by omega), fetch_toArray v (by omega), pure_bind, pure_bind]
      dsimp only
      rw [map_bind, liftM_bind]
      congr 1
      funext down
      cases down with
      | true =>
        rw [if_pos rfl, if_pos rfl, exchange_toArray v (by omega) (by omega), pure_bind]
        -- a child is at twice the index at least, so a round less is enough from there
        have far : (i + 1) * 2 ^ (rounds + 1) ≤ (child + 1) * 2 ^ rounds := by
          rw [Nat.pow_succ', ← Nat.mul_assoc]
          exact Nat.mul_le_mul_right _ (by omega)
        exact ih _ hc (Nat.lt_of_lt_of_le enough far)
      | false => simp
    · rw [if_pos (by omega), dif_neg hl]
      simp

/-- The rounds of a slice are enough for all of it. -/
theorem lt_rounds {i len : Nat} (hlen : len ≤ n) : len < (i + 1) * 2 ^ rounds n := by
  have whole : n < 2 ^ rounds n := Nat.lt_log2_self
  have := Nat.mul_le_mul_right (2 ^ rounds n) (show 1 ≤ i + 1 by omega)
  omega

/-! ## Whole slices -/

theorem makeLoop_eq (k : Nat) (hk : k ≤ n) (v : Vector α n) :
    makeLoop less k v.toArray = liftM (Vector.toArray <$> makeBelow less k hk v) := by
  induction k generalizing v with
  | zero => simp [makeLoop, makeBelow]
  | succ k ih =>
    rw [makeLoop, makeBelow, Vector.size_toArray,
      siftDownLoop_eq less v (Nat.le_refl n) hk (lt_rounds (Nat.le_refl n)), map_bind, liftM_bind,
      liftM_map, bind_map_left]
    congr 1
    funext w
    exact ih _ w

theorem sortLoop_eq (k : Nat) (hk : k < n) (v : Vector α n) :
    sortLoop less k v.toArray = liftM (Vector.toArray <$> sortBelow less k hk v) := by
  induction k generalizing v with
  | zero => simp [sortLoop, sortBelow]
  | succ k ih =>
    rw [sortLoop, sortBelow, exchange_toArray v (by omega) hk, pure_bind, Vector.size_toArray,
      siftDownLoop_eq less _ (by omega) (by omega) (lt_rounds (by omega)), map_bind, liftM_bind,
      liftM_map, bind_map_left]
    congr 1
    funext w
    exact ih _ w

theorem pushLoop_eq (v : Vector α n) :
    Operation.push.loop less v.toArray = liftM (Vector.toArray <$> push less v) := by
  rw [Operation.loop, push, Vector.size_toArray]
  by_cases hn : 1 < n
  · rw [if_pos hn, dif_pos hn, siftUpLoop_eq less v (by omega)]
    have whole : n < 2 ^ rounds n := Nat.lt_log2_self
    omega
  · rw [if_neg hn, dif_neg hn]
    simp

theorem popLoop_eq (v : Vector α n) :
    Operation.pop.loop less v.toArray = liftM (Vector.toArray <$> pop less v) := by
  rw [Operation.loop, pop, Vector.size_toArray]
  by_cases hn : 1 < n
  · rw [if_pos hn, dif_pos hn, exchange_toArray v (by omega) (by omega), pure_bind,
      siftDownLoop_eq less _ (by omega) (by omega) (lt_rounds (by omega))]
  · rw [if_neg hn, dif_neg hn]
    simp

theorem sortAllLoop_eq (v : Vector α n) :
    Operation.sort.loop less v.toArray = liftM (Vector.toArray <$> sort less v) := by
  rw [Operation.loop, sort, Vector.size_toArray]
  by_cases hn : 0 < n
  · rw [dif_pos hn]
    exact sortLoop_eq less (n - 1) (by omega) v
  · rw [dif_neg hn, show n - 1 = 0 by omega]
    simp [sortLoop]

omit less in
theorem onArray_eq (op : {n : Nat} → Vector α n → m (Vector α n)) (xs : Array α) :
    onArray op xs = Vector.toArray <$> op xs.toVector := by
  rw [onArray, map_eq_pure_bind]

/-- The loop of an operation does what the operation does. -/
theorem Operation.loop_eq (op : Operation) (xs : Array α) :
    op.loop less xs = liftM (op.on less xs) := by
  cases op with
  | make =>
    rw [Operation.on, onArray_eq]
    exact makeLoop_eq less (xs.size / 2) (by omega) xs.toVector
  | push =>
    rw [Operation.on, onArray_eq]
    exact pushLoop_eq less xs.toVector
  | pop =>
    rw [Operation.on, onArray_eq]
    exact popLoop_eq less xs.toVector
  | sort =>
    rw [Operation.on, onArray_eq]
    exact sortAllLoop_eq less xs.toVector

end Lawful
end Heap
end ExternalSort
