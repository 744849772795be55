/-
  ExternalSort.Proofs.Disk.Path

  The name of a file in a directory is the last name of its path.
-/

import Mathlib.Tactic.SplitIfs
import ExternalSort.Disk.Path
import ExternalSort.Spill.Store

namespace ExternalSort
namespace Path

theorem splitSlash_slash (rest : List Char) : splitSlash ('/' :: rest) = [] :: splitSlash rest := by
  rw [splitSlash, if_pos rfl]

theorem splitSlash_append_slash (front back : List Char) :
    splitSlash (front ++ '/' :: back) = splitSlash front ++ splitSlash back := by
  induction front with
  | nil => rw [List.nil_append, splitSlash_slash]; rfl
  | cons c front ih =>
    by_cases slash : c = '/'
    · subst slash
      rw [List.cons_append, splitSlash_slash, splitSlash_slash, ih, List.cons_append]
    · rw [List.cons_append, splitSlash, ih, if_neg slash, splitSlash, if_neg slash]
      cases h : splitSlash front with
      | nil =>
        cases front with
        | nil => cases h
        | cons d front =>
          rw [splitSlash] at h
          split at h
          · cases h
          · split at h <;> cases h
      | cons first more => rfl

theorem splitSlash_of_not_mem {name : List Char} (h : '/' ∉ name) : splitSlash name = [name] := by
  induction name with
  | nil => rfl
  | cons c rest ih =>
    rw [List.mem_cons, not_or] at h
    rw [splitSlash, if_neg (Ne.symm h.1), ih h.2]

/-- Names that are one step down. -/
structure Plain (name : String) : Prop where
  some : name.toList ≠ []
  slash : '/' ∉ name.toList
  here : name.toList ≠ Path.here
  up : name.toList ≠ Path.up

variable {name : String}

theorem fileName_of_pieces (plain : Plain name) {p : Path} (front : List Name)
    (h : p.pieces = front ++ [name.toList]) : p.fileName = name := by
  have isName : Path.isName name.toList = true := by
    simp [Path.isName, plain.some, plain.here]
  rw [fileName, names, h, List.filter_append, List.filter_cons_of_pos isName, List.filter_nil,
    List.getLast?_concat]
  dsimp only
  rw [if_neg plain.up, String.ofList_toList]

theorem fileName_join (dir : Path) (plain : Plain name) : (dir.join ⟨name⟩).fileName = name := by
  have last : splitSlash name.toList = [name.toList] := splitSlash_of_not_mem plain.slash
  have relative : (⟨name⟩ : Path).isAbsolute = false := by
    rw [isAbsolute]
    cases h : name.toList with
    | nil => rfl
    | cons c rest =>
      have first : c ≠ '/' := fun slash => plain.slash (by rw [h, slash]; exact List.mem_cons_self)
      simpa using first
  rw [join, if_neg (by rw [relative]; exact Bool.false_ne_true)]
  split_ifs with empty ends
  · exact fileName_of_pieces plain [] last
  · obtain ⟨front, hfront⟩ := List.getLast?_eq_some_iff.mp ends
    refine fileName_of_pieces plain (splitSlash front) ?_
    rw [pieces, String.toList_append, hfront, List.append_assoc, List.singleton_append,
      splitSlash_append_slash, last]
  · refine fileName_of_pieces plain (splitSlash dir.text.toList) ?_
    have text : (dir.text ++ "/" ++ name).toList = dir.text.toList ++ '/' :: name.toList := by
      rw [String.toList_append, String.toList_append, List.append_assoc]
      rfl
    rw [pieces, text, splitSlash_append_slash, last]

end Path

/-- New files get plain names. -/
theorem NameSource.plain_next (s : NameSource) : Path.Plain s.next.1 := by
  have text : s.next.1.toList = "extsort-".toList ++ (Nat.toDigits 10 s.process ++ '-' ::
      (Nat.toDigits 10 s.time ++ '-' :: Nat.toDigits 10 s.count)) := by
    simp [NameSource.next, toString]
  have digits (n : Nat) : '/' ∉ Nat.toDigits 10 n := fun slash =>
    absurd (Nat.isDigit_of_mem_toDigits (by decide) (by decide) slash) (by decide)
  refine ⟨?_, ?_, ?_, ?_⟩ <;> rw [text]
  · exact List.cons_ne_nil _ _
  · simp [digits]
  · exact fun same => absurd (List.cons.inj same).1 (by decide)
  · exact fun same => absurd (List.cons.inj same).1 (by decide)

end ExternalSort
