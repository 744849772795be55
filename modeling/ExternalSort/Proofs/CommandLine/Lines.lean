/-
  ExternalSort.Proofs.CommandLine.Lines

  The lines of an input.

  An input is made of its lines, each with a newline behind it; only the last
  line may do without, if it is not empty. There is one way to take an input
  apart like this, so lines that are written out are read again as they were.
-/

import ExternalSort.CommandLine.LineKey

namespace ExternalSort
namespace LineKey

/-- Bytes without a newline. -/
def Unbroken (line : ByteArray) : Prop := newline ∉ line.data.toList

/-- The lines that an input is made of. -/
inductive IsLines : ByteArray → List ByteArray → Prop
  | nil : IsLines .empty []
  /-- Behind the last newline. -/
  | rest {line : ByteArray} (some : line ≠ .empty) (unbroken : Unbroken line) : IsLines line [line]
  | line {line behind : ByteArray} {lines : List ByteArray} (unbroken : Unbroken line)
      (more : IsLines behind lines) : IsLines (line.push newline ++ behind) (line :: lines)

/-- Lines with a newline behind each. -/
def joined : List ByteArray → ByteArray
  | [] => .empty
  | line :: rest => line.push newline ++ joined rest

/-! ## Taking an input apart -/

theorem extract_succ {input : ByteArray} {start i : Nat} (le : start ≤ i) (h : i < input.size) :
    input.extract start (i + 1) = (input.extract start i).push input[i] := by
  apply ByteArray.ext
  rw [ByteArray.data_extract, ByteArray.data_push, ByteArray.data_extract]
  show _ = (input.data.extract start i).push input.data[i]
  rw [Array.push_extract_getElem, Nat.min_eq_left le]

theorem unbroken_push {line : ByteArray} {b : UInt8} (unbroken : Unbroken line) (h : b ≠ newline) :
    Unbroken (line.push b) := by
  rw [Unbroken, ByteArray.data_push, Array.toList_push, List.mem_append, List.mem_singleton]
  rintro (within | rfl)
  · exact unbroken within
  · exact h rfl

theorem unbroken_empty : Unbroken .empty := List.not_mem_nil

/-- What is left of an input from a line on is taken apart as its lines, wherever in this line the
    search for its end has come to. -/
theorem isLines_linesFrom {input : ByteArray} {start i : Nat} (le : start ≤ i)
    (inside : i ≤ input.size) (unbroken : Unbroken (input.extract start i)) :
    IsLines (input.extract start input.size) (linesFrom input start i) := by
  -- a newline ends the line, any other byte joins it; at the end a rest is a line if it is not empty
  fun_induction linesFrom input start i with
  | case1 start i h ends ih =>
    have begun : Unbroken (input.extract (i + 1) (i + 1)) := by
      rw [ByteArray.extract_eq_empty_iff.mpr (by omega)]
      exact unbroken_empty
    have here := IsLines.line unbroken (ih (Nat.le_refl _) h begun)
    rwa [← ends, ← extract_succ le h, ByteArray.extract_append_extract,
      Nat.min_eq_left (by omega), Nat.max_eq_right (by omega)] at here
  | case2 start i h goesOn ih =>
    refine ih (by omega) h ?_
    rw [extract_succ le h]
    exact unbroken_push unbroken goesOn
  | case3 start i h some =>
    obtain rfl : i = input.size := by omega
    refine .rest (fun none => ?_) unbroken
    have size := congrArg ByteArray.size none
    rw [ByteArray.size_extract, ByteArray.size_empty] at size
    omega
  | case4 start i h none =>
    rw [ByteArray.extract_eq_empty_iff.mpr (by omega)]
    exact .nil

/-- The lines of an input are the ones that it is made of. -/
theorem isLines_lines (input : ByteArray) : IsLines input (lines input) := by
  have begun : Unbroken (input.extract 0 0) := by
    rw [ByteArray.extract_eq_empty_iff.mpr (by omega)]
    exact unbroken_empty
  have whole := isLines_linesFrom (Nat.le_refl 0) (Nat.zero_le _) begun
  rwa [ByteArray.extract_zero_size] at whole

/-! ## Only one way -/

theorem toList_line (line behind : ByteArray) :
    (line.push newline ++ behind).data.toList =
      line.data.toList ++ newline :: behind.data.toList := by
  simp

theorem eq_of_toList {a b : ByteArray} (h : a.data.toList = b.data.toList) : a = b :=
  ByteArray.ext (Array.toList_inj.mp h)

/-- The first newline ends the first line. -/
theorem split_unique {a b behind behind' : List UInt8} (ha : newline ∉ a) (hb : newline ∉ b)
    (h : a ++ newline :: behind = b ++ newline :: behind') : a = b ∧ behind = behind' := by
  induction a generalizing b with
  | nil =>
    cases b with
    | nil => exact ⟨rfl, (List.cons.inj h).2⟩
    | cons y b =>
      obtain rfl := (List.cons.inj h).1
      exact absurd List.mem_cons_self hb
  | cons x a ih =>
    cases b with
    | nil =>
      obtain rfl := (List.cons.inj h).1
      exact absurd List.mem_cons_self ha
    | cons y b =>
      obtain ⟨rfl, rest⟩ := List.cons.inj h
      obtain ⟨rfl, same⟩ := ih (fun later => ha (List.mem_cons_of_mem _ later))
        (fun later => hb (List.mem_cons_of_mem _ later)) rest
      exact ⟨rfl, same⟩

/-- An input is made of its lines only. -/
theorem IsLines.unique {input : ByteArray} {ls ms : List ByteArray} (h : IsLines input ls)
    (k : IsLines input ms) : ls = ms := by
  -- by induction on the first way; the bytes tell how the second one begins
  induction h generalizing ms with
  | nil =>
    generalize hinput : ByteArray.empty = input at k
    cases k with
    | nil => rfl
    | rest some _ => exact absurd hinput.symm some
    | line _ _ =>
      have bytes := congrArg (·.data.toList) hinput
      simp only [toList_line] at bytes
      exact absurd bytes.symm (by simp)
  | @rest line some unbroken =>
    generalize hinput : line = input at k
    cases k with
    | nil => exact absurd hinput some
    | rest _ _ => rfl
    | line _ _ =>
      rw [Unbroken, hinput, toList_line] at unbroken
      exact absurd (List.mem_append_right _ List.mem_cons_self) unbroken
  | @line line behind lines unbroken more ih =>
    generalize hinput : line.push newline ++ behind = input at k
    cases k with
    | nil =>
      have bytes := congrArg (·.data.toList) hinput
      simp only [toList_line] at bytes
      exact absurd bytes (by simp)
    | rest _ broken =>
      rw [Unbroken, ← hinput, toList_line] at broken
      exact absurd (List.mem_append_right _ List.mem_cons_self) broken
    | @line line' behind' lines' unbroken' more' =>
      have bytes := congrArg (·.data.toList) hinput
      simp only [toList_line] at bytes
      obtain ⟨first, rest⟩ := split_unique unbroken unbroken' bytes
      obtain rfl := eq_of_toList first
      obtain rfl := eq_of_toList rest
      rw [ih more']

/-- The lines that an input is made of are the ones that are read. -/
theorem IsLines.eq {input : ByteArray} {ls : List ByteArray} (h : IsLines input ls) :
    lines input = ls := (isLines_lines input).unique h

/-! ## Putting lines together -/

theorem isLines_joined {ls : List ByteArray} (unbroken : ∀ line ∈ ls, Unbroken line) :
    IsLines (joined ls) ls := by
  induction ls with
  | nil => exact .nil
  | cons line rest ih =>
    obtain ⟨first, others⟩ := List.forall_mem_cons.mp unbroken
    exact .line first (ih others)

/-- No line holds a newline. -/
theorem IsLines.unbroken {input : ByteArray} {ls : List ByteArray} (h : IsLines input ls) :
    ∀ line ∈ ls, Unbroken line := by
  induction h with
  | nil => exact fun line h => absurd h List.not_mem_nil
  | rest _ unbroken => exact List.forall_mem_singleton.mpr unbroken
  | line unbroken _ ih => exact List.forall_mem_cons.mpr ⟨unbroken, ih⟩

end LineKey
end ExternalSort
