/-
  ExternalSort.Proofs.Bytes.DiffersAt

  Byte strings that differ in one byte, or in a few neighbouring ones.

  A piece of one of them is the same piece of the other, unless it reaches into
  the place where they differ. A piece around that place differs there too, and
  nowhere else.
-/

namespace ExternalSort

/-- A byte string that differs from another one in the byte at `p`, and nowhere else. -/
def DiffersAt (p : Nat) (a b : ByteArray) : Prop :=
  ∃ x y, a.data.toList[p]? = some x ∧ x ≠ y ∧ b.data.toList = a.data.toList.set p y

/-- A byte string that differs from another one, but not outside of the `n` bytes from `p` on. -/
structure DiffersWithin (p n : Nat) (a b : ByteArray) : Prop where
  size : b.size = a.size
  outside : ∀ i, i < p ∨ p + n ≤ i → b.data[i]? = a.data[i]?
  differ : a ≠ b

theorem DiffersAt.size_eq {p : Nat} {a b : ByteArray} (h : DiffersAt p a b) : b.size = a.size := by
  obtain ⟨x, y, -, -, set_⟩ := h
  simpa using congrArg List.length set_

theorem DiffersAt.differsWithin {p : Nat} {a b : ByteArray} (h : DiffersAt p a b) :
    DiffersWithin p 1 a b := by
  have size := h.size_eq
  obtain ⟨x, y, here, differ, set_⟩ := h
  refine ⟨size, fun i outside => ?_, ?_⟩
  · rw [← Array.getElem?_toList, ← Array.getElem?_toList, set_, List.getElem?_set_ne (by omega)]
  · rintro rfl
    have there : a.data.toList[p]? = some y := by
      rw [set_, List.getElem?_set_self (List.getElem?_eq_some_iff.mp here).1]
    exact differ (Option.some.inj (here.symm.trans there))

namespace DiffersWithin

variable {p n : Nat} {a b : ByteArray}

theorem getElem?_extract (a : ByteArray) (start stop i : Nat) :
    (a.extract start stop).data[i]? =
      if i < min stop a.size - start then a.data[start + i]? else none := by
  rw [ByteArray.data_extract, Array.getElem?_extract]
  rfl

/-- Pieces that do not reach into the place are the same. -/
theorem extract_eq (h : DiffersWithin p n a b) {start stop : Nat}
    (outside : p + n ≤ start ∨ stop ≤ p) : b.extract start stop = a.extract start stop := by
  refine ByteArray.ext (Array.ext_getElem? fun i => ?_)
  rw [getElem?_extract, getElem?_extract, h.size]
  split
  · exact h.outside _ (by omega)
  · rfl

/-- Pieces around the place differ in it. -/
theorem extract (h : DiffersWithin p n a b) {start stop : Nat} (begun : start ≤ p)
    (within : p + n ≤ stop) :
    DiffersWithin (p - start) n (a.extract start stop) (b.extract start stop) := by
  refine ⟨?_, fun i outside => ?_, fun same => h.differ ?_⟩
  · rw [ByteArray.size_extract, ByteArray.size_extract, h.size]
  · rw [getElem?_extract, getElem?_extract, h.size]
    split
    · exact h.outside _ (by omega)
    · rfl
  · -- with the same pieces, nothing would be left to differ
    refine ByteArray.ext (Array.ext_getElem? fun i => ?_)
    by_cases outside : i < p ∨ p + n ≤ i
    · exact (h.outside i outside).symm
    · by_cases inside : i < a.size
      · have here : (a.extract start stop).data[i - start]? =
            (b.extract start stop).data[i - start]? := by rw [same]
        have reach : i - start < min stop a.size - start := by omega
        rw [getElem?_extract, getElem?_extract, h.size, if_pos reach, if_pos reach,
          Nat.add_sub_cancel' (by omega)] at here
        exact here
      · have size := h.size
        rw [Array.getElem?_eq_none (Nat.le_of_not_lt inside),
          Array.getElem?_eq_none (by rw [ByteArray.size_data]; omega)]

theorem append (h : DiffersWithin p n a b) (c : ByteArray) :
    DiffersWithin p n (a ++ c) (b ++ c) := by
  refine ⟨?_, fun i outside => ?_, fun same => h.differ ((ByteArray.append_left_inj _).mp same)⟩
  · rw [ByteArray.size_append, ByteArray.size_append, h.size]
  · rw [ByteArray.data_append, ByteArray.data_append, Array.getElem?_append, Array.getElem?_append,
      ByteArray.size_data, ByteArray.size_data, h.size]
    split
    · exact h.outside i outside
    · rfl

theorem prepend (h : DiffersWithin p n a b) (c : ByteArray) :
    DiffersWithin (c.size + p) n (c ++ a) (c ++ b) := by
  refine ⟨?_, fun i outside => ?_, fun same => h.differ ((ByteArray.append_right_inj _).mp same)⟩
  · rw [ByteArray.size_append, ByteArray.size_append, h.size]
  · rw [ByteArray.data_append, ByteArray.data_append, Array.getElem?_append, Array.getElem?_append,
      ByteArray.size_data]
    split
    · rfl
    · exact h.outside _ (by omega)

/-- Where byte strings differ, they have parts of at most so many bytes that differ, between parts
    that do not. -/
theorem exists_parts (h : DiffersWithin p n a b) : ∃ before x y behind : List UInt8,
    a.data.toList = before ++ (x ++ behind) ∧ b.data.toList = before ++ (y ++ behind) ∧
      x.length = y.length ∧ x.length ≤ n ∧ x ≠ y := by
  have cut (l : List UInt8) : l = l.take p ++ ((l.drop p).take n ++ l.drop (p + n)) := by
    rw [← List.drop_drop, List.take_append_drop, List.take_append_drop]
  have size : b.data.toList.length = a.data.toList.length := by simpa using h.size
  have outside (i : Nat) (out : i < p ∨ p + n ≤ i) : b.data.toList[i]? = a.data.toList[i]? := by
    rw [Array.getElem?_toList, Array.getElem?_toList]
    exact h.outside i out
  have front : b.data.toList.take p = a.data.toList.take p := by
    refine List.ext_getElem? fun i => ?_
    rw [List.getElem?_take, List.getElem?_take]
    split
    · exact outside i (by omega)
    · rfl
  have back : b.data.toList.drop (p + n) = a.data.toList.drop (p + n) := by
    refine List.ext_getElem? fun i => ?_
    rw [List.getElem?_drop, List.getElem?_drop]
    exact outside _ (by omega)
  refine ⟨_, _, (b.data.toList.drop p).take n, _, cut a.data.toList, ?_, ?_,
    List.length_take_le _ _, fun same => h.differ ?_⟩
  · rw [← front, ← back]
    exact cut b.data.toList
  · rw [List.length_take, List.length_take, List.length_drop, List.length_drop, size]
  · refine ByteArray.ext (Array.toList_inj.mp ?_)
    rw [cut a.data.toList, cut b.data.toList, front, back, same]

end DiffersWithin
end ExternalSort
