/-
  ExternalSort.Source

  Sources of sorted records.

  A source is asked for its next record until there is none. Closing it may be
  asked for any number of times; a source that checks what it read does so when
  it is closed after its end. Releasing a source gives up what it holds.
-/

import ExternalSort.Error
import ExternalSort.Manifest

namespace ExternalSort

/-- What a source answers when it is asked for a record: nothing more, a record, or an error. -/
abbrev Step (ρ : Type) := Option (Except SortError ρ)

/-- A type of sources of records `ρ`, with effects in `m`. -/
class SortedSource (m : Type → Type) (σ : Type) (ρ : outParam Type) where
  /-- The next record. -/
  next : σ → m (Step ρ × σ)
  /-- Closes the source. -/
  close : σ → m (Except SortError Unit × σ)
  /-- Gives up what the source holds. -/
  release : σ → m Unit
  /-- The extent on disk that the source reads, if it reads one. -/
  extent? : σ → Option Extent

namespace SortedSource

variable {m : Type → Type} [Monad m] {σ τ ρ : Type}

/-- Releases sources, first to last. -/
def releaseAll [SortedSource m σ ρ] : List σ → m Unit
  | [] => return ()
  | s :: rest => do
    release s
    releaseAll rest

/-- A source of either of two types. -/
instance [SortedSource m σ ρ] [SortedSource m τ ρ] : SortedSource m (σ ⊕ τ) ρ where
  next
    | .inl s => do
      let (step, s) ← next s
      return (step, .inl s)
    | .inr t => do
      let (step, t) ← next t
      return (step, .inr t)
  close
    | .inl s => do
      let (result, s) ← close s
      return (result, .inl s)
    | .inr t => do
      let (result, t) ← close t
      return (result, .inr t)
  release
    | .inl s => release s
    | .inr t => release t
  extent?
    | .inl s => extent? m s
    | .inr t => extent? m t

/-- How a reading of a source ended: with its end, with an error, or because enough was read. -/
inductive Ending
  | finished
  | failed (e : SortError)
  | enough

/-- Reads up to `count` records onto `taken`, which has the last record in front. -/
@[specialize]
def drainOnto [SortedSource m σ ρ] : (count : Nat) → (taken : List ρ) → σ →
    m ((List ρ × Ending) × σ)
  | 0, taken, s => return ((taken.reverse, .enough), s)
  | count + 1, taken, s => do
    let (step, s) ← next s
    match step with
    | none => return ((taken.reverse, .finished), s)
    | some (.error e) => return ((taken.reverse, .failed e), s)
    | some (.ok record) => drainOnto count (record :: taken) s

/-- Reads up to `count` records, in order. -/
def drain [SortedSource m σ ρ] (count : Nat) (s : σ) : m ((List ρ × Ending) × σ) :=
  drainOnto count [] s

end SortedSource

/-- Records that never left memory, in the order given. -/
structure InMemory (ρ : Type) where
  records : List ρ

namespace InMemory

variable {m : Type → Type} [Monad m] {ρ : Type}

/-- The first record, and the rest. -/
def next (s : InMemory ρ) : Option ρ × InMemory ρ :=
  match s.records with
  | [] => (none, s)
  | r :: rest => (some r, ⟨rest⟩)

/-- Closing drops what is left. -/
def close (_ : InMemory ρ) : InMemory ρ := ⟨[]⟩

instance : SortedSource m (InMemory ρ) ρ where
  next s := return (s.next.1.map .ok, s.next.2)
  close s := return (.ok (), s.close)
  release _ := return ()
  extent? _ := none

end InMemory
end ExternalSort
