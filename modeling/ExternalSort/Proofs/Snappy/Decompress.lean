/-
  ExternalSort.Proofs.Snappy.Decompress

  Expanding the written forms of elements.

  Elements have a meaning of their own (`expandAll?`): what they append to the
  text before them. A stream of written elements expands to it, if the length
  in front of the stream is the length of the text.
-/

import ExternalSort.Proofs.Snappy.Element
import ExternalSort.Snappy.Compress
import ExternalSort.Snappy.Decompress

namespace ExternalSort
namespace Snappy

open Element

/-! ## The meaning of elements -/

/-- Appends what elements stand for, first to last. -/
def expandAll? (out : ByteArray) : List Element → Option ByteArray
  | [] => some out
  | e :: rest => (e.expand? out).bind (expandAll? · rest)

theorem expandAll?_append (out : ByteArray) (xs ys : List Element) :
    expandAll? out (xs ++ ys) = (expandAll? out xs).bind (expandAll? · ys) := by
  induction xs generalizing out with
  | nil => rfl
  | cons e rest ih =>
    simp only [List.cons_append, expandAll?]
    cases e.expand? out with
    | none => rfl
    | some out' => exact ih out'

theorem size_repeatBack (offset length : Nat) (out : ByteArray) :
    (repeatBack offset length out).size = out.size + length := by
  induction length generalizing out with
  | zero => rfl
  | succ length ih =>
    rw [repeatBack, ih, ByteArray.size_push]
    omega

theorem size_expand? {e : Element} {out text : ByteArray} (h : e.expand? out = some text) :
    text.size = out.size + e.size := by
  cases e with
  | literal bytes =>
    obtain rfl := Option.some.inj h
    exact ByteArray.size_append
  | copy offset length =>
    rw [expand?] at h
    split at h
    · obtain rfl := Option.some.inj h
      exact size_repeatBack offset length out
    · exact absurd h (by simp)

/-- The number of bytes that elements stand for. -/
def totalSize : List Element → Nat
  | [] => 0
  | e :: rest => e.size + totalSize rest

theorem size_expandAll? {es : List Element} {out text : ByteArray}
    (h : expandAll? out es = some text) : text.size = out.size + totalSize es := by
  induction es generalizing out with
  | nil =>
    obtain rfl := Option.some.inj h
    rfl
  | cons e rest ih =>
    obtain ⟨out', hfirst, hrest⟩ := Option.bind_eq_some_iff.mp h
    rw [ih hrest, size_expand? hfirst, totalSize]
    omega

/-! ## Streams -/

/-- The written forms of elements, back to back. -/
def encodeAll : List Element → ByteArray
  | [] => .empty
  | e :: rest => e.encode ++ encodeAll rest

theorem foldl_encode (es : List Element) (out : ByteArray) :
    es.foldl (fun out e => out ++ e.encode) out = out ++ encodeAll es := by
  induction es generalizing out with
  | nil => simp [encodeAll]
  | cons e rest ih => rw [List.foldl_cons, ih, encodeAll, ByteArray.append_assoc]

theorem length_le_size_encodeAll (es : List Element) : es.length ≤ (encodeAll es).size := by
  induction es with
  | nil => exact Nat.zero_le _
  | cons e rest ih =>
    have := size_encode_pos e
    rw [encodeAll, ByteArray.size_append, List.length_cons]
    omega

theorem totalSize_le {es : List Element} (hes : ∀ e ∈ es, e.Writable) :
    3 * totalSize es ≤ 64 * (encodeAll es).size := by
  induction es with
  | nil => exact Nat.zero_le _
  | cons e rest ih =>
    have first := size_le e (hes e List.mem_cons_self)
    have others := ih fun e he => hes e (List.mem_cons_of_mem _ he)
    rw [encodeAll, ByteArray.size_append, totalSize]
    omega

/-- Written elements at the end of the input expand to what they stand for. -/
theorem expandFrom?_encodeAll {es : List Element} (hes : ∀ e ∈ es, e.Writable)
    {input out text : ByteArray} {pos bound fuel : Nat} (h : StandsAt (encodeAll es) input pos)
    (hend : pos + (encodeAll es).size = input.size) (hfuel : es.length < fuel)
    (hexpand : expandAll? out es = some text) (hbound : text.size ≤ bound) :
    expandFrom? input bound fuel pos out = some text := by
  -- element by element; the fuel lasts because every element takes a byte at least
  induction es generalizing pos fuel out with
  | nil =>
    obtain ⟨fuel, rfl⟩ : ∃ k, fuel = k + 1 := ⟨fuel - 1, by omega⟩
    obtain rfl := Option.some.inj hexpand
    simp only [encodeAll, ByteArray.size_empty, Nat.add_zero] at hend
    rw [expandFrom?, if_neg (by omega)]
  | cons e rest ih =>
    obtain ⟨fuel, rfl⟩ : ∃ k, fuel = k + 1 := ⟨fuel - 1, by omega⟩
    obtain ⟨out', hfirst, hrest⟩ := Option.bind_eq_some_iff.mp hexpand
    have hpos := size_encode_pos e
    have fits := size_expandAll? hexpand
    rw [totalSize] at fits
    rw [encodeAll, ByteArray.size_append] at hend
    have read := read?_encode (hes e List.mem_cons_self) h.left
    have go := ih (fun e he => hes e (List.mem_cons_of_mem _ he)) h.right (by omega)
      (Nat.lt_of_succ_lt_succ hfuel) hrest
    rw [expandFrom?, if_pos (by omega), read]
    simp only [Option.bind_eq_bind, Option.bind_some, hfirst]
    rw [if_neg (by omega)]
    exact go

/-! ## The length in front -/

theorem readLength?_writeLength {n fuel pos : Nat} {input : ByteArray}
    (h : StandsAt (writeLength n).toByteArray input pos) (hfuel : (writeLength n).length ≤ fuel) :
    readLength? input fuel pos = some (n, pos + (writeLength n).length) := by
  induction n using writeLength.induct generalizing fuel pos with
  | case1 n hsmall =>
    rw [writeLength, if_pos hsmall] at h hfuel ⊢
    obtain ⟨fuel, rfl⟩ : ∃ k, fuel = k + 1 := ⟨fuel - 1, by simp at hfuel; omega⟩
    obtain ⟨hlt, hbyte⟩ := h.getElem
    have value : input[pos].toNat = n := by
      rw [hbyte, UInt8.toNat_ofNat']
      omega
    simp [readLength?, hlt, value, hsmall]
  -- seven bits with the mark that more follow
  | case2 n hlarge ih =>
    rw [writeLength, if_neg hlarge] at h hfuel ⊢
    obtain ⟨fuel, rfl⟩ : ∃ k, fuel = k + 1 := ⟨fuel - 1, by simp at hfuel; omega⟩
    obtain ⟨hlt, hbyte⟩ := h.getElem
    have value : input[pos].toNat = n % 128 + 128 := by
      rw [hbyte, UInt8.toNat_ofNat']
      omega
    rw [toByteArray_cons] at h
    have high := ih h.right (by simpa using hfuel)
    simp only [List.size_toByteArray, List.length_singleton] at high
    have whole : (n % 128 + 128) % 128 + 128 * (n / 128) = n := by omega
    have more : ¬ n % 128 + 128 < 128 := by omega
    rw [readLength?, dif_pos hlt]
    simp only [value, more, if_false, high, Option.bind_eq_bind, Option.bind_some, whole]
    rw [List.length_cons, Nat.add_comm (writeLength (n / 128)).length, Nat.add_assoc]
    rfl

/-- A number below `128 ^ k` takes at most `k` bytes. -/
theorem length_writeLength_le {n k : Nat} (hk : 0 < k) (h : n < Nat.pow 128 k) :
    (writeLength n).length ≤ k := by
  induction n using writeLength.induct generalizing k with
  | case1 n hsmall =>
    rw [writeLength, if_pos hsmall]
    exact hk
  | case2 n hlarge ih =>
    rw [writeLength, if_neg hlarge, List.length_cons]
    obtain ⟨k, rfl⟩ : ∃ j, k = j + 2 := ⟨k - 2, by
      rcases k with _ | _ | k
      · exact absurd hk (Nat.lt_irrefl 0)
      · exact absurd h (by omega)
      · omega⟩
    have fewer : n / 128 < Nat.pow 128 (k + 1) := by
      rw [show Nat.pow 128 (k + 2) = Nat.pow 128 (k + 1) * 128 from rfl] at h
      omega
    have := ih (Nat.succ_pos k) fewer
    omega

end Snappy
end ExternalSort
