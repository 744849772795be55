/-
  ExternalSort.Proofs.Order.HeapLaws

  What the heap operations do for whoever brings a test.

  If the test is a strict weak order, heaps stay heaps, the greatest element
  comes out last, and sorting gives an ascending slice. If it is not, the
  operations still end, use no index outside the slice, and keep its elements.
-/

import ExternalSort.Proofs.Order.Heap
import ExternalSort.Proofs.Order.Looping
import ExternalSort.Proofs.Order.Rearranging
import Mathlib.Order.Defs.Unbundled

namespace ExternalSort

/-! ## Strict weak orders -/

section StrictWeakOrder

variable {α : Type}

/-- The comparator that answers by a test. -/
def orderOf (less : α → α → Bool) : Comparator α := fun a b =>
  if less a b then .lt else if less b a then .gt else .eq

theorem askLess_orderOf {m : Type → Type} [Monad m] (less : α → α → Bool) :
    StableSort.askLess (m := m) (orderOf less) = fun a b => pure (less a b) := by
  funext a b
  rw [StableSort.askLess, orderOf]
  cases less a b with
  | true => rfl
  | false => cases less b a <;> rfl

variable (less : α → α → Bool) [IsStrictWeakOrder α fun a b => less a b = true]

theorem less_asymm {a b : α} (h : less a b = true) : less b a = false := by
  have : ¬ less b a = true := asymm (r := fun a b => less a b = true) h
  simpa using this

theorem isLE_orderOf {a b : α} : (orderOf less a b).isLE ↔ less b a = false := by
  rw [orderOf]
  cases hab : less a b with
  | true => simp [less_asymm less hab]
  | false => cases less b a <;> simp

/-- What is not less than something that is not less than a third is not less than it. -/
theorem not_less_trans {a b c : α} (hba : less b a = false) (hcb : less c b = false) :
    less c a = false := by
  rw [Bool.eq_false_iff]
  intro hca
  have incomparable :=
    @IsStrictWeakOrder.incomp_trans α (fun a b => less a b = true) _ c b a
  have step {a b c : α} : less a b = true → less b c = true → less a c = true :=
    trans (r := fun a b => less a b = true)
  cases hbc : less b c with
  | true => exact absurd (step hbc hca) (by simp [hba])
  | false =>
    cases hab : less a b with
    | true => exact absurd (step hca hab) (by simp [hcb])
    | false => exact (incomparable (by simp [hcb, hbc]) (by simp [hba, hab])).1 hca

instance : Std.TransCmp (orderOf less) where
  eq_swap {a b} := by
    rw [orderOf, orderOf]
    cases hab : less a b with
    | true => simp [less_asymm less hab]
    | false => cases less b a <;> rfl
  isLE_trans {a b c} hab hbc := by
    rw [isLE_orderOf] at *
    exact not_less_trans less hab hbc

end StrictWeakOrder

namespace Heap

variable {α : Type}

theorem parent_lt {xs : Array α} {c : Nat} (hc : c < xs.size) : (c - 1) / 2 < xs.size := by
  omega

/-- No element is greater than its parent. -/
def IsMaxHeap (less : α → α → Bool) (xs : Array α) : Prop :=
  ∀ c (hc : c < xs.size), 0 < c → less (getElem xs ((c - 1) / 2) (parent_lt hc)) xs[c] = false

/-- No element is less than one in front of it. -/
def Ascending (less : α → α → Bool) (xs : Array α) : Prop :=
  xs.toList.Pairwise fun a b => less b a = false

/-- What an operation does with a test that only answers. -/
def Operation.apply (less : α → α → Bool) (op : Operation) (xs : Array α) : Array α :=
  (op.on (m := Id) (fun a b => pure (less a b)) xs).run

/-- Overwrites the last slot, if there is one. -/
def overwriteLast (xs : Array α) (x : α) : Array α := xs.setIfInBounds (xs.size - 1) x

theorem overwriteLast_push (rest : Array α) (last x : α) :
    overwriteLast (rest.push last) x = rest.push x := by
  rw [overwriteLast, Array.size_push, Nat.add_sub_cancel]
  ext i hi hi'
  · simp
  · grind

section Ordered

variable {less : α → α → Bool} [IsStrictWeakOrder α fun a b => less a b = true] {xs : Array α}

theorem isMaxHeap_iff : IsMaxHeap less xs ↔ IsHeap (orderOf less) xs := by
  simp only [IsMaxHeap, IsHeap, isLE_orderOf]

theorem apply_make_isMaxHeap (xs : Array α) : IsMaxHeap less (Operation.make.apply less xs) := by
  have made : ∃ ys, onArray (m := Id) (make (StableSort.askLess (orderOf less))) xs = pure ys ∧
      ys.toList.Perm xs.toList ∧ IsHeap (orderOf less) ys := makeArray_eq xs
  obtain ⟨ys, hys, -, heap⟩ := made
  rw [askLess_orderOf] at hys
  rw [Operation.apply, Operation.on, hys]
  exact isMaxHeap_iff.mpr heap

theorem apply_push_isMaxHeap (h : IsMaxHeap less xs) (x : α) :
    IsMaxHeap less (Operation.push.apply less (xs.push x)) := by
  obtain ⟨ys, hys, -, heap⟩ := pushArray_eq (m := Id) (isMaxHeap_iff.mp h) x
  rw [askLess_orderOf] at hys
  rw [Operation.apply, Operation.on, hys]
  exact isMaxHeap_iff.mpr heap

theorem apply_pop (h : IsMaxHeap less xs) (hpos : 0 < xs.size) :
    ∃ rest top, Operation.pop.apply less xs = rest.push top ∧ IsMaxHeap less rest ∧
      ∀ a ∈ xs, less top a = false := by
  have heap := isMaxHeap_iff.mp h
  obtain ⟨rest, hrest, -, heap'⟩ := popArray_eq (m := Id) heap hpos
  rw [askLess_orderOf] at hrest
  refine ⟨rest, xs[0], by rw [Operation.apply, Operation.on, hrest]; rfl, isMaxHeap_iff.mpr heap', ?_⟩
  intro a ha
  exact (isLE_orderOf less).mp (heap.top hpos a ha)

theorem apply_sort_ascending (h : IsMaxHeap less xs) :
    Ascending less (Operation.sort.apply less xs) := by
  obtain ⟨ys, hys, -, sorted⟩ := sortArray_eq (m := Id) (isMaxHeap_iff.mp h)
  rw [askLess_orderOf] at hys
  rw [Operation.apply, Operation.on, hys]
  exact sorted.imp fun hab => (isLE_orderOf less).mp hab

/-- A new element takes the place of a greatest one. -/
theorem apply_replace_isMaxHeap (h : IsMaxHeap less xs) (hpos : 0 < xs.size) (x : α) :
    IsMaxHeap less
      (Operation.push.apply less (overwriteLast (Operation.pop.apply less xs) x)) := by
  obtain ⟨rest, top, hpop, heap, -⟩ := apply_pop h hpos
  rw [hpop, overwriteLast_push]
  exact apply_push_isMaxHeap heap x

end Ordered

/-! ## Any test -/

section Unordered

variable {S : Type} (test : α → α → StateM S Bool)

theorem Operation.on_perm (op : Operation) (xs : Array α) (s : S) :
    ((op.on test xs).run s).1.toList.Perm xs.toList := by
  cases op with
  | make => exact onArray_perm (make_rearranges test) xs s
  | push => exact onArray_perm (push_rearranges test) xs s
  | pop => exact onArray_perm (pop_rearranges test) xs s
  | sort => exact onArray_perm (sort_rearranges test) xs s

/-- The loop of an operation ends without a fault, with what the operation gives. -/
theorem Operation.loop_run (op : Operation) (xs : Array α) (s : S) :
    (op.loop test xs).run.run s = (.ok ((op.on test xs).run s).1, ((op.on test xs).run s).2) := by
  rw [op.loop_eq]
  rfl

end Unordered

/-! ## The laws -/

/-- With a strict weak order, the operations make, keep and sort heaps. With any test at all, which
may also change a state, their loops end inside the slice and rearrange it. -/
theorem heap_laws {α : Type} :
    (∀ less : α → α → Bool, IsStrictWeakOrder α (fun a b => less a b = true) →
      (∀ xs, IsMaxHeap less (Operation.make.apply less xs)) ∧
      (∀ xs x, IsMaxHeap less xs → IsMaxHeap less (Operation.push.apply less (xs.push x))) ∧
      (∀ xs, IsMaxHeap less xs → 0 < xs.size →
        ∃ rest top, Operation.pop.apply less xs = rest.push top ∧ IsMaxHeap less rest ∧
          ∀ a ∈ xs, less top a = false) ∧
      (∀ xs x, IsMaxHeap less xs → 0 < xs.size →
        IsMaxHeap less
          (Operation.push.apply less (overwriteLast (Operation.pop.apply less xs) x))) ∧
      ∀ xs, IsMaxHeap less xs → Ascending less (Operation.sort.apply less xs)) ∧
    ∀ {S : Type} (test : α → α → StateM S Bool) (op : Operation) (xs : Array α) (s : S),
      ∃ ys s', (op.loop test xs).run.run s = (.ok ys, s') ∧ (op.on test xs).run s = (ys, s') ∧
        ys.toList.Perm xs.toList := by
  constructor
  · intro less order
    exact ⟨apply_make_isMaxHeap, fun _ x heap => apply_push_isMaxHeap heap x, fun _ => apply_pop,
      fun _ x heap hpos => apply_replace_isMaxHeap heap hpos x, fun _ => apply_sort_ascending⟩
  · intro S test op xs s
    exact ⟨_, _, op.loop_run test xs s, rfl, op.on_perm test xs s⟩

/-- Whether a number is less than another one. -/
def isBelow (a b : Nat) : Bool := a < b

/-- Says yes, and counts how often it was asked. -/
def alwaysYes (_ _ : Nat) : StateM Nat Bool := modifyGet fun asked => (true, asked + 1)

/-- The laws for a heap of four numbers with their order, and with a test that contradicts itself. -/
theorem heap_laws_numbers :
    IsStrictWeakOrder Nat (fun a b => isBelow a b = true) ∧ IsMaxHeap isBelow #[9, 8, 2, 6] ∧
    IsMaxHeap isBelow (Operation.make.apply isBelow #[4, 8, 2, 6]) ∧
    IsMaxHeap isBelow (Operation.push.apply isBelow (#[9, 8, 2, 6].push 7)) ∧
    (∃ rest top, Operation.pop.apply isBelow #[9, 8, 2, 6] = rest.push top ∧
      IsMaxHeap isBelow rest ∧ ∀ a ∈ #[9, 8, 2, 6], isBelow top a = false) ∧
    IsMaxHeap isBelow (Operation.push.apply isBelow
      (overwriteLast (Operation.pop.apply isBelow #[9, 8, 2, 6]) 1)) ∧
    Ascending isBelow (Operation.sort.apply isBelow #[9, 8, 2, 6]) ∧
    ∃ ys asked, (Operation.sort.loop alwaysYes #[9, 8, 2, 6]).run.run 0 = (.ok ys, asked) ∧
      (Operation.sort.on alwaysYes #[9, 8, 2, 6]).run 0 = (ys, asked) ∧
      ys.toList.Perm #[9, 8, 2, 6].toList := by
  have order : IsStrictWeakOrder Nat (fun a b => isBelow a b = true) :=
    { irrefl := by simp [isBelow]
      trans := by
        simp only [isBelow, decide_eq_true_eq]
        omega
      incomp_trans := by
        simp only [isBelow, decide_eq_true_eq]
        omega }
  have heap : IsMaxHeap isBelow #[9, 8, 2, 6] := by
    intro c hc hpos
    have : c = 1 ∨ c = 2 ∨ c = 3 := by
      have : c < 4 := hc
      omega
    obtain rfl | rfl | rfl := this <;> rfl
  obtain ⟨make, push, pop, replace, sort⟩ := heap_laws.1 isBelow order
  exact ⟨order, heap, make _, push _ 7 heap, pop _ heap (by decide),
    replace _ 1 heap (by decide), sort _ heap, heap_laws.2 alwaysYes .sort #[9, 8, 2, 6] 0⟩

end Heap
end ExternalSort
