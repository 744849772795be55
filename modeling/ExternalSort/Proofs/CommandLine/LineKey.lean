/-
  ExternalSort.Proofs.CommandLine.LineKey

  How keys stand on lines.

  A number may stand on a line between white space, behind a plus sign and with
  zeros in front, and is written without all that; a byte string is the line
  itself. Either way a key that was read from a line is written as a line that
  is read as the same key.
-/

import ExternalSort.Proofs.CommandLine.Lines
import ExternalSort.Proofs.Text.Decimal
import Mathlib.Order.Compare

namespace ExternalSort

/-! ## The order of byte strings -/

theorem drop_eq {bytes : ByteArray} {i : Nat} (h : i < bytes.size) :
    bytes.data.toList.drop i = bytes[i] :: bytes.data.toList.drop (i + 1) :=
  List.drop_eq_getElem_cons (l := bytes.data.toList) h

theorem drop_end {bytes : ByteArray} {i : Nat} (h : ¬ i < bytes.size) :
    bytes.data.toList.drop i = [] := List.drop_eq_nil_of_le (Nat.le_of_not_lt h)

/-- Byte strings are compared as the lists of their bytes. -/
theorem compareBytesFrom_eq (a b : ByteArray) (i : Nat) :
    compareBytesFrom a b i = compare (a.data.toList.drop i) (b.data.toList.drop i) := by
  fun_induction compareBytesFrom a b i with
  | case1 i ha hb same ih =>
    rw [ih, drop_eq ha, drop_eq hb, List.compare_cons_cons, same]
    rfl
  | case2 i ha hb decided =>
    rw [drop_eq ha, drop_eq hb, List.compare_cons_cons]
    cases h : compare a[i] b[i] with
    | lt => rfl
    | gt => rfl
    | eq => exact absurd h decided
  | case3 i ha hb =>
    rw [drop_eq ha, drop_end hb]
    rfl
  | case4 i ha hb =>
    rw [drop_end ha, drop_eq hb]
    rfl
  | case5 i ha hb =>
    rw [drop_end ha, drop_end hb]
    rfl

theorem compareBytes_eq (a b : ByteArray) :
    compareBytes a b = compare a.data.toList b.data.toList := compareBytesFrom_eq a b 0

namespace LineKey

/-- How keys of a type stand on lines, and in which order they come. -/
structure LineForm (α : Type) where
  /-- A line stands for a key. -/
  Stands : ByteArray → α → Prop
  /-- What is written for a key, without the newline. -/
  text : α → ByteArray
  /-- A key comes before another one, or is the same. -/
  Le : α → α → Prop

/-- Numbers, as numerals with white space around them. -/
def numbers : LineForm UInt64 where
  Stands line n := ∃ left text right, line = (String.ofList (left ++ text ++ right)).toUTF8 ∧
    (∀ c ∈ left, isBlank c = true) ∧ (∀ c ∈ right, isBlank c = true) ∧
    Decimal.Numeral text n.toNat
  text n := (Nat.repr n.toNat).toUTF8
  Le m n := m ≤ n

/-- Byte strings, in the lexicographic order. -/
def byteStrings : LineForm ByteArray where
  Stands line key := line = key
  text key := key
  Le a b := (Ord.compare a.data.toList b.data.toList).isLE = true

/-- Keys are read from lines, written and compared as their form says, and each of them takes memory.
    What is written for a key stands for this key. -/
structure LineForm.Describes {α : Type} [Storable α] [LineKey α] (form : LineForm α) : Prop where
  parse : ∀ {line : ByteArray} {key : α}, LineKey.parse line = .ok key ↔ form.Stands line key
  line : ∀ key : α, LineKey.line key = (form.text key).push newline
  valid : Std.TransCmp (LineKey.compare : α → α → Ordering)
  isLE : ∀ x y : α, (LineKey.compare x y).isLE = true ↔ form.Le x y
  written : ∀ {line : ByteArray} {key : α}, Unbroken line → form.Stands line key →
    form.Stands (form.text key) key ∧ Unbroken (form.text key)
  charged : ∀ key : α, 0 < footprint key

theorem toUTF8_of_decode {bytes : ByteArray} {text : String} (h : Utf8.decode bytes = .ok text) :
    bytes = text.toUTF8 := by
  rw [Utf8.decode] at h
  cases hvalid : String.fromUTF8? bytes with
  | none =>
    rw [hvalid] at h
    cases h
  | some valid =>
    rw [hvalid] at h
    cases h
    rw [String.fromUTF8?] at hvalid
    split at hvalid
    · cases hvalid
      rfl
    · cases hvalid

/-- A digit is one byte, which is no newline. -/
theorem unbroken_repr (n : Nat) : Unbroken (Nat.repr n).toUTF8 := by
  rw [Unbroken, String.toUTF8_eq_toByteArray, ← String.utf8Encode_toList, Nat.toList_repr,
    List.utf8Encode, List.data_toByteArray, List.toList_toArray, List.mem_flatMap]
  rintro ⟨c, hc, within⟩
  -- digits lie between 48 and 57, the newline is 10
  have digit := Nat.isDigit_of_mem_toDigits (by decide) (by decide) hc
  simp only [Char.isDigit, Bool.and_eq_true, decide_eq_true_eq] at digit
  have low : 48 ≤ c.val.toNat := UInt32.le_iff_toNat_le.mp digit.1
  have high : c.val.toNat ≤ 57 := UInt32.le_iff_toNat_le.mp digit.2
  rw [String.utf8EncodeChar, if_pos (by omega), List.mem_singleton] at within
  have same := congrArg UInt8.toNat within
  have byte : UInt8.size = 256 := rfl
  rw [UInt8.toNat_ofNat_of_lt' (by omega)] at same
  have ten : newline.toNat = 10 := rfl
  omega

/-- A line that is read as a number is a numeral with white space around it. -/
theorem stands_of_parse {line : ByteArray} {n : UInt64}
    (h : (LineKey.parse line : Except LineFault UInt64) = .ok n) : numbers.Stands line n := by
  simp only [LineKey.parse] at h
  cases decoded : Utf8.decode line with
  | error fault =>
    rw [decoded] at h
    cases h
  | ok text =>
    rw [decoded] at h
    dsimp only at h
    cases read : Decimal.read UInt64.size (trimBlanks text.toList) with
    | error fault =>
      rw [read] at h
      cases h
    | ok m =>
      rw [read] at h
      obtain rfl := Except.ok.inj h
      obtain ⟨numeral, below⟩ := (Decimal.read_eq_ok (by decide)).mp read
      obtain ⟨left, right, around, hleft, hright⟩ := exists_trimBlanks text.toList
      refine ⟨left, trimBlanks text.toList, right, ?_, hleft, hright, ?_⟩
      · rw [← around, String.ofList_toList]
        exact toUTF8_of_decode decoded
      · rwa [UInt64.toNat_ofNat_of_lt' below]

/-- A numeral is read as its number, whatever white space is around it. -/
theorem parse_of_stands {line : ByteArray} {n : UInt64} (h : numbers.Stands line n) :
    LineKey.parse line = .ok n := by
  obtain ⟨left, text, right, rfl, hleft, hright, numeral⟩ := h
  have read : Decimal.read UInt64.size text = .ok n.toNat :=
    (Decimal.read_eq_ok (by decide)).mpr ⟨numeral, n.toNat_lt⟩
  simp only [LineKey.parse, Utf8.decode_toUTF8, String.toList_ofList]
  rw [trimBlanks_of_all hleft numeral.isBlank_eq numeral.ne_nil hright, read]
  exact congrArg Except.ok UInt64.ofNat_toNat

theorem numbers_describes : numbers.Describes where
  parse := ⟨stands_of_parse, parse_of_stands⟩
  line _ := rfl
  valid := inferInstanceAs (Std.TransCmp (compareOn UInt64.toNat))
  isLE x y := Nat.isLE_compare.trans UInt64.le_iff_toNat_le.symm
  written {line n} _ _ := by
    refine ⟨⟨[], (Nat.repr n.toNat).toList, [], ?_, by simp, by simp, Decimal.numeral_repr _⟩,
      unbroken_repr _⟩
    rw [List.nil_append, List.append_nil, String.ofList_toList]
    rfl
  charged _ := Nat.succ_pos 7

theorem byteStrings_describes : byteStrings.Describes where
  parse {line key} := Except.ok.injEq line key ▸ Iff.rfl
  line _ := rfl
  valid := by
    have same : (LineKey.compare : ByteArray → ByteArray → Ordering) =
        compareOn (·.data.toList) := funext fun a => funext fun b => compareBytes_eq a b
    rw [same]
    infer_instance
  isLE x y := by
    show (compareBytes x y).isLE = true ↔ _
    rw [compareBytes_eq]
    exact Iff.rfl
  written {line key} unbroken stands := ⟨rfl, stands ▸ unbroken⟩
  charged key := Nat.lt_of_lt_of_le (by decide) (Nat.le_add_right _ key.size)

end LineKey
end ExternalSort
