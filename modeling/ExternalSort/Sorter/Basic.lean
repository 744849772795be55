/-
  ExternalSort.Sorter.Basic

  Sorters: the strategy follows from the limit. Without a limit everything is
  sorted, a limit of 1 keeps the single best record, and a larger limit keeps
  that many.
-/

import ExternalSort.Sorter.SingleBest
import ExternalSort.Sorter.TopK
import ExternalSort.Sorter.Unbounded

namespace ExternalSort

/-- A sorter of records `ρ`. -/
inductive Sorter (ρ : Type)
  | unbounded (u : Unbounded ρ)
  | singleBest (s : SingleBest ρ)
  | topK (t : TopK ρ)

namespace Sorter

variable {ρ : Type} [Storable ρ]

/-- The sorter for the limit of the options. -/
def ofOptions (options : Options) (order : Comparator ρ) : SpillM (Sorter ρ) := do
  options.validate (← get).spillForbidden
  if options.limit = 0 then return .unbounded (← Unbounded.ofOptions options order)
  else if options.limit = 1 then return .singleBest (← SingleBest.ofOptions options order)
  else return .topK (← TopK.ofOptions options order)

/-- A sorter that takes up the runs of a manifest. -/
def resume (manifest : Manifest) (options : Options) (order : Comparator ρ) :
    SpillM (Sorter ρ) := do
  return .unbounded (← Unbounded.resume manifest options order)

/-- Applies the operation of the strategy at hand. -/
def dispatch {α : Type} (unbounded : SorterM (Unbounded ρ) α)
    (singleBest : SorterM (SingleBest ρ) α) (topK : SorterM (TopK ρ) α) : SorterM (Sorter ρ) α :=
  ExceptT.mk fun sorter => do
    match sorter with
    | .unbounded u =>
      let (result, u) ← unbounded.run.run u
      return (result, .unbounded u)
    | .singleBest s =>
      let (result, s) ← singleBest.run.run s
      return (result, .singleBest s)
    | .topK t =>
      let (result, t) ← topK.run.run t
      return (result, .topK t)

/-- Takes a record. One that is handed over keeps what its buffers hold in reserve; a copy has
    none. -/
def add (record : ρ) (spare : Nat := 0) : SorterM (Sorter ρ) Unit :=
  dispatch (Unbounded.add record spare) (SingleBest.add record spare) (TopK.add record spare)

/-- Takes records that hold nothing in reserve, first to last. -/
def addAll : List ρ → SorterM (Sorter ρ) Unit
  | [] => return ()
  | r :: rest => do
    add r
    addAll rest

/-- Ends the input and gives out the sorted records. -/
def done : SorterM (Sorter ρ) (Sorted ρ) := dispatch Unbounded.done SingleBest.done TopK.done

/-- Spills what is in memory, keeps the spill file, and describes its runs. -/
def persist : SorterM (Sorter ρ) Manifest :=
  dispatch Unbounded.persist SingleBest.persist TopK.persist

/-- The statistics so far. -/
def statistics (sorter : Sorter ρ) (store : Store) : Statistics :=
  match sorter with
  | .unbounded u => u.backing.statistics store
  | .singleBest s => s.statistics
  | .topK t => t.backing.statistics store

/-- Gives up the sorter. -/
def release : Sorter ρ → StoreM Unit
  | .unbounded u => u.backing.release
  | .singleBest _ => return ()
  | .topK t => t.backing.release

end Sorter
end ExternalSort
