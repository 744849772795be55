/-
  ExternalSort.Order.Check

  Checking a comparator while it is used.

  A comparator should be antisymmetric (both directions agree) and reflexive
  (a record equals itself). Sorting cannot stop at a comparison, so a checked
  comparison answers what the comparator says and remembers the first pair that
  contradicts these laws; the caller looks at the memory when it is done.
-/

namespace ExternalSort

/-- A comparator of records. -/
abbrev Comparator (ρ : Type) := ρ → ρ → Ordering

/-- How a comparator contradicts itself. -/
inductive Violation
  /-- The two directions disagree. -/
  | asymmetric (forward backward : Ordering)
  /-- A record is not equal to itself. -/
  | notReflexive
  /-- A violation that a caller found and describes. -/
  | stated (reason : String)
deriving DecidableEq, Repr

namespace Violation

/-- The name of an answer. -/
def answerName : Ordering → String
  | .lt => "Less"
  | .eq => "Equal"
  | .gt => "Greater"

/-- The wording of a violation. -/
def message : Violation → String
  | .asymmetric forward backward =>
    "comparing in both directions gave " ++ answerName forward ++ " and " ++ answerName backward
  | .notReflexive => "a record does not compare equal to itself"
  | .stated reason => reason

end Violation

/-- The law that a comparator breaks on a pair of records, if it breaks one. -/
def checkPair {ρ : Type} (order : Comparator ρ) (a b : ρ) : Option Violation :=
  let forward := order a b
  let backward := order b a
  if forward ≠ backward.swap then some (.asymmetric forward backward)
  else if order a a ≠ .eq ∨ order b b ≠ .eq then some .notReflexive
  else none

/-- Computations that remember the first violation they met. -/
abbrev Checked := StateM (Option Violation)

/-- Compares two records, checking the pair unless a violation is already known. -/
def checkedCompare {ρ : Type} (order : Comparator ρ) (verify : Bool) (a b : ρ) :
    Checked Ordering := do
  if verify && (← get).isNone then set (checkPair order a b)
  return order a b

/-- Runs a computation that has met no violation yet. -/
def Checked.runFresh {α : Type} (c : Checked α) : α × Option Violation := c.run none

end ExternalSort
