/-
  ExternalSort.Proofs.Sorter.SingleBest

  What a sorter with the limit 1 keeps: the first of the least records.
-/

import ExternalSort.Proofs.Order.StableSort.Short
import ExternalSort.Proofs.Sorter.Backing
import ExternalSort.Sorter.SingleBest

namespace ExternalSort
namespace SingleBest

variable {ρ : Type} [Storable ρ] {options : Options} {order : Comparator ρ} {b : SingleBest ρ}
  {s : Store} {xs : List ρ}

/-- The best of the records. -/
structure Keeps (options : Options) (order : Comparator ρ) (b : SingleBest ρ) (xs : List ρ) :
    Prop where
  sameOrder : b.order = order
  limit : options.most = 1
  best : b.best.toList = leading order options.most xs

omit [Storable ρ] in
/-- A new sorter has taken nothing. -/
theorem ofOptions_leads (s : Store) :
    Leads (ofOptions options order : SpillM (SingleBest ρ)) s
      (fun b _ => b.finished = false ∧ Keeps options order b []) (fun _ _ => True) := by
  rw [ofOptions]
  refine Leads.bind (Leads.of_get (Leads.bind (Leads.of_lift (fun _ _ => ?_) fun _ _ => trivial)))
  by_cases one : options.limit = 1
  · rw [if_neg (not_not_intro one)]
    refine Leads.of_pure ⟨rfl, rfl, ?_, ?_⟩
    · rw [Options.most, one]
      rfl
    · rw [leading, stableSort, List.mergeSort_nil, List.take_nil]
      rfl
  · rw [if_pos one]
    exact Leads.bind (Leads.of_throw trivial)

variable [Std.TransCmp order]

omit [Storable ρ] in
/-- A record is the best one if it is less than the best one so far. -/
theorem beatsBest_eq (keeps : Keeps options order b xs) (x : ρ) :
    ∃ beats, b.beatsBest x = pure beats ∧
      (if beats then some x else b.best).toList = leading order options.most (xs ++ [x]) := by
  obtain ⟨rfl, limit, best⟩ := keeps
  rw [leading_append, ← best, limit, beatsBest]
  cases b.best with
  | none =>
    refine ⟨true, rfl, ?_⟩
    rw [leading, Option.toList_none, List.nil_append, stableSort, List.mergeSort_singleton]
    rfl
  | some y =>
    have two : leading b.order 1 ((some y).toList ++ [x]) =
        if b.order x y = .lt then [x] else [y] := by
      rw [leading, Option.toList_some, List.singleton_append,
        StableSort.stableSort_two]
      split <;> rfl
    have swap : b.order y x = (b.order x y).swap := Std.OrientedCmp.eq_swap
    refine ⟨b.order y x == .gt, by simp [checkedCompare_eq_pure], ?_⟩
    rw [two, swap]
    cases b.order x y <;> rfl

/-- A record that is offered is kept if it is the best one. -/
theorem add_leads (keeps : Keeps options order b xs) (accepting : b.finished = false) (x : ρ)
    (spare : Nat) :
    Leads (add x spare) (b, s)
      (fun _ p => Keeps options order p.1 (xs ++ [x]) ∧ p.1.finished = false)
      (fun _ _ => False) := by
  obtain ⟨beats, hbeats, best⟩ := beatsBest_eq keeps x
  obtain ⟨rfl, limit, -⟩ := keeps
  rw [add]
  refine Leads.bind (Leads.of_get₂ ?_)
  dsimp only
  rw [accepting, if_neg Bool.false_ne_true]
  refine Leads.bind (Leads.of_modify₂ (Leads.bind (Leads.of_get₂ (Leads.bind ?_))))
  apply Leads.of_checked (a := beats) hbeats
  cases beats with
  | true => exact Leads.of_modify₂ ⟨⟨rfl, limit, best⟩, accepting⟩
  | false => exact Leads.of_pure ⟨⟨rfl, limit, best⟩, accepting⟩

omit [Std.TransCmp order] in
/-- The sorter gives out the best record. -/
theorem done_leads (keeps : Keeps options order b xs) :
    Leads done (b, s)
      (fun sorted p => p.1.finished = true ∧
        ReadsOut sorted p.2 (leading order options.most xs))
      (fun _ p => p = (b, s) ∧ b.finished = true) := by
  rw [done]
  refine Leads.bind (Leads.of_get₂ ?_)
  dsimp only
  by_cases finished : b.finished = true
  · rw [if_pos finished]
    exact Leads.bind (Leads.of_throw₂ ⟨rfl, finished⟩)
  · rw [if_neg finished]
    refine Leads.bind (Leads.of_get₂ (Leads.bind (Leads.of_set₂ (Leads.of_pure ⟨rfl, ?_⟩))))
    rw [← keeps.best]
    exact readsOut_inMemory _ _

end SingleBest
end ExternalSort
