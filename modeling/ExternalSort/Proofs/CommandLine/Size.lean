/-
  ExternalSort.Proofs.CommandLine.Size

  What is read as a size.

  A text is read as a size exactly if it spells one below the bound of a machine
  word: a number with at most one letter behind it, maybe with white space around
  both. Everything else is an error. Whoever counts in bytes reads the same: the
  letter is one byte long, so cutting off the last byte cuts no character in two.
-/

import ExternalSort.CommandLine.Size
import ExternalSort.Proofs.Text.Decimal

namespace ExternalSort
namespace Size

/-! ## Texts that spell sizes -/

/-- What may stand behind a number, and the factor that it stands for. -/
inductive Suffix : List Char → Nat → Prop
  | none : Suffix [] 1
  | kilo {c : Char} (letter : c = 'k' ∨ c = 'K') : Suffix [c] 1024
  | mega {c : Char} (letter : c = 'm' ∨ c = 'M') : Suffix [c] (1024 * 1024)
  | giga {c : Char} (letter : c = 'g' ∨ c = 'G') : Suffix [c] (1024 * 1024 * 1024)

/-- A number and what may stand behind it. -/
inductive Amount : List Char → Nat → Prop
  | scaled {number suffix : List Char} {n factor : Nat} (numeral : Decimal.Numeral number n)
      (behind : Suffix suffix factor) : Amount (number ++ suffix) (n * factor)

/-- The text is an amount, maybe with white space around it. -/
def Spells (text : String) (size : Nat) : Prop :=
  ∃ left amount right, text.toList = left ++ amount ++ right ∧ (∀ c ∈ left, isBlank c = true) ∧
    (∀ c ∈ right, isBlank c = true) ∧ Amount amount size

/-! ## Letters -/

theorem suffix_singleton_iff {c : Char} {factor : Nat} :
    Suffix [c] factor ↔ factor? c = some factor := by
  rw [factor?]
  constructor
  · intro h
    cases h with
    | kilo letter => rcases letter with rfl | rfl <;> rfl
    | mega letter => rcases letter with rfl | rfl <;> rfl
    | giga letter => rcases letter with rfl | rfl <;> rfl
  · intro h
    split at h
    · cases h
      exact .kilo ‹_›
    · split at h
      · cases h
        exact .mega ‹_›
      · split at h
        · cases h
          exact .giga ‹_›
        · cases h

/-- A letter with a factor is one byte long, and neither a digit nor white space. -/
theorem letter_of_factor? {c : Char} {factor : Nat} (h : factor? c = some factor) :
    c.utf8Size = 1 ∧ c.isDigit = false ∧ isBlank c = false := by
  cases suffix_singleton_iff.mpr h with
  | kilo letter => rcases letter with rfl | rfl <;> decide
  | mega letter => rcases letter with rfl | rfl <;> decide
  | giga letter => rcases letter with rfl | rfl <;> decide

theorem Suffix.factor_pos {suffix : List Char} {factor : Nat} (h : Suffix suffix factor) :
    0 < factor := by
  cases h <;> decide

/-- Behind a number stands nothing, or one letter that has a factor. -/
theorem Suffix.none_or_letter {suffix : List Char} {factor : Nat} (h : Suffix suffix factor) :
    (suffix = [] ∧ factor = 1) ∨ ∃ c, suffix = [c] ∧ factor? c = some factor := by
  cases h with
  | none => exact .inl ⟨rfl, rfl⟩
  | kilo letter => exact .inr ⟨_, rfl, suffix_singleton_iff.mp (.kilo letter)⟩
  | mega letter => exact .inr ⟨_, rfl, suffix_singleton_iff.mp (.mega letter)⟩
  | giga letter => exact .inr ⟨_, rfl, suffix_singleton_iff.mp (.giga letter)⟩

theorem Suffix.isBlank_eq {suffix : List Char} {factor : Nat} (h : Suffix suffix factor) :
    ∀ c ∈ suffix, isBlank c = false := by
  rcases h.none_or_letter with ⟨rfl, -⟩ | ⟨c, rfl, letter⟩
  · exact fun _ h => absurd h List.not_mem_nil
  · exact List.forall_mem_singleton.mpr (letter_of_factor? letter).2.2

/-! ## Splitting -/

/-- What is split off stood behind the rest. -/
theorem exists_suffix (text : List Char) :
    ∃ suffix, text = (splitFactor text).1 ++ suffix ∧ Suffix suffix (splitFactor text).2 := by
  rw [splitFactor]
  cases last : text.getLast? with
  | none => exact ⟨[], (List.append_nil _).symm, .none⟩
  | some c =>
    rw [Option.bind_some]
    cases h : factor? c with
    | none => exact ⟨[], (List.append_nil _).symm, .none⟩
    | some factor =>
      obtain ⟨front, rfl⟩ := List.getLast?_eq_some_iff.mp last
      exact ⟨[c], congrArg (· ++ [c]) List.dropLast_concat.symm, suffix_singleton_iff.mpr h⟩

/-- A number is split from what stands behind it. -/
theorem splitFactor_append {number suffix : List Char} {n factor : Nat}
    (numeral : Decimal.Numeral number n) (behind : Suffix suffix factor) :
    splitFactor (number ++ suffix) = (number, factor) := by
  rcases behind.none_or_letter with ⟨rfl, rfl⟩ | ⟨c, rfl, letter⟩
  · -- a number ends in a digit, which is no letter
    obtain ⟨c, last, digit⟩ := numeral.exists_getLast?
    have none : factor? c = .none := by
      cases h : factor? c with
      | none => rfl
      | some factor => rw [(letter_of_factor? h).2.1] at digit; exact Bool.noConfusion digit
    rw [List.append_nil, splitFactor, last, Option.bind_some, none]
  · rw [splitFactor, List.getLast?_concat, Option.bind_some, letter]
    exact congrArg (·, factor) List.dropLast_concat

theorem amount_iff {text : List Char} {size : Nat} :
    Amount text size ↔
      ∃ n, Decimal.Numeral (splitFactor text).1 n ∧ size = n * (splitFactor text).2 := by
  constructor
  · rintro ⟨numeral, behind⟩
    rw [splitFactor_append numeral behind]
    exact ⟨_, numeral, rfl⟩
  · rintro ⟨n, numeral, rfl⟩
    obtain ⟨suffix, whole, behind⟩ := exists_suffix text
    have amount := Amount.scaled numeral behind
    rwa [← whole] at amount

theorem Amount.ne_nil {text : List Char} {size : Nat} (h : Amount text size) : text ≠ [] := by
  obtain ⟨numeral, -⟩ := h
  exact List.append_ne_nil_of_left_ne_nil numeral.ne_nil _

theorem Amount.isBlank_eq {text : List Char} {size : Nat} (h : Amount text size) :
    ∀ c ∈ text, isBlank c = false := by
  obtain ⟨numeral, behind⟩ := h
  exact List.forall_mem_append.mpr ⟨numeral.isBlank_eq, behind.isBlank_eq⟩

/-- A text spells what stands in it between white space. -/
theorem spells_iff {text : String} {size : Nat} :
    Spells text size ↔ Amount (trimBlanks text.toList) size := by
  constructor
  · -- trimming stops at the amount, in which there is no white space
    rintro ⟨left, amount, right, whole, hleft, hright, h⟩
    rwa [whole, trimBlanks_of_all hleft h.isBlank_eq h.ne_nil hright]
  · intro h
    obtain ⟨left, right, whole, hleft, hright⟩ := exists_trimBlanks text.toList
    exact ⟨left, _, right, whole, hleft, hright, h⟩

/-! ## Reading -/

/-- The size of the given digits and factor; a fault tells the text that they are from. -/
def scale (text : String) (digits : List Char) (factor : Nat) : Except Fault UInt64 :=
  match Decimal.read UInt64.size digits with
  | .error fault => .error (.invalid text fault)
  | .ok n =>
    if n * factor < UInt64.size then .ok (UInt64.ofNat (n * factor)) else .error (.tooLarge text)

theorem read_eq (text : String) :
    read text = scale (String.ofList (trimBlanks text.toList))
      (splitFactor (trimBlanks text.toList)).1 (splitFactor (trimBlanks text.toList)).2 := rfl

/-- A number that fits after it was scaled is scaled to its exact size. -/
theorem scale_eq_ok {text : String} {digits : List Char} {factor : Nat} (pos : 0 < factor)
    {size : UInt64} : scale text digits factor = .ok size ↔
      ∃ n, Decimal.Numeral digits n ∧ size.toNat = n * factor := by
  have number {n : Nat} : Decimal.read UInt64.size digits = .ok n ↔
      Decimal.Numeral digits n ∧ n < UInt64.size := Decimal.read_eq_ok (by decide)
  constructor
  · intro h
    rw [scale] at h
    cases hread : Decimal.read UInt64.size digits with
    | error fault =>
      rw [hread] at h
      cases h
    | ok n =>
      simp only [hread] at h
      split at h
      · cases h
        exact ⟨n, (number.mp hread).1, UInt64.toNat_ofNat_of_lt' ‹_›⟩
      · cases h
  · rintro ⟨n, numeral, same⟩
    -- the number is checked before it is scaled, but it is not larger than what it is scaled to
    have fits : n * factor < UInt64.size := same ▸ size.toNat_lt
    have below : n < UInt64.size := Nat.lt_of_le_of_lt (Nat.le_mul_of_pos_right n pos) fits
    rw [scale, number.mpr ⟨numeral, below⟩]
    dsimp only
    rw [if_pos fits, ← same, UInt64.ofNat_toNat]

theorem read_eq_ok {text : String} {size : UInt64} :
    read text = .ok size ↔ Spells text size.toNat := by
  obtain ⟨_, -, behind⟩ := exists_suffix (trimBlanks text.toList)
  rw [read_eq, scale_eq_ok behind.factor_pos, spells_iff, amount_iff]

/-! ## Cutting by bytes -/

/-- The text in front of byte `n`, if a character begins or the text ends there. -/
def before? (text : String) (n : Nat) : Option String :=
  if valid : (⟨n⟩ : String.Pos.Raw).IsValid text then some (text.sliceTo (text.pos ⟨n⟩ valid)).copy
  else none

theorem before?_append (front back : String) :
    before? (front ++ back) front.utf8ByteSize = some front := by
  have splits := String.Pos.splits_append_rawEndPos (s := front) (t := back)
  have valid : (⟨front.utf8ByteSize⟩ : String.Pos.Raw).IsValid (front ++ back) :=
    String.Pos.Raw.isValid_rawEndPos.append_right back
  rw [before?, dif_pos valid]
  exact congrArg some splits.copy_sliceTo_eq

/-- The text without its last byte, if there is one and it is a character of its own. -/
def dropByte? (text : String) : Option String :=
  if text.utf8ByteSize = 0 then none else before? text (text.utf8ByteSize - 1)

/-- Reads a size whose letter is cut off by bytes; none if that would cut a character in two. -/
def readSliced? (text : String) : Option (Except Fault UInt64) := do
  let trimmed := String.ofList (trimBlanks text.toList)
  match trimmed.toList.getLast?.bind factor? with
  | some factor => return scale trimmed (← dropByte? trimmed).toList factor
  | none => return scale trimmed trimmed.toList 1

theorem dropByte?_concat (front : List Char) {c : Char} (single : c.utf8Size = 1) :
    dropByte? (String.ofList (front ++ [c])) = some (String.ofList front) := by
  have size : (String.ofList (front ++ [c])).utf8ByteSize = (String.ofList front).utf8ByteSize + 1 := by
    rw [String.ofList_append, String.utf8ByteSize_append, ← String.singleton_eq_ofList,
      String.utf8ByteSize_singleton, single]
  rw [dropByte?, size, if_neg (Nat.succ_ne_zero _), Nat.add_sub_cancel, String.ofList_append,
    before?_append]

/-- Cutting by bytes never cuts a character in two. -/
theorem readSliced?_eq (text : String) : readSliced? text = some (read text) := by
  rw [read_eq, readSliced?, splitFactor]
  simp only [String.toList_ofList]
  cases last : (trimBlanks text.toList).getLast? with
  | none => rfl
  | some c =>
    rw [Option.bind_some]
    cases h : factor? c with
    | none => rfl
    | some factor =>
      obtain ⟨front, whole⟩ := List.getLast?_eq_some_iff.mp last
      rw [whole]
      simp only [dropByte?_concat front (letter_of_factor? h).1, Option.bind_eq_bind,
        Option.bind_some, String.toList_ofList, List.dropLast_concat]
      rfl

/-- A text is read as a size exactly if it spells one that fits a machine word, as that size; any
    other text is an error. Cutting the letter off by bytes comes to the same. -/
theorem reads_spelled_sizes (text : String) :
    readSliced? text = some (read text) ∧
      (∀ size : UInt64, read text = .ok size ↔ Spells text size.toNat) ∧
      ((∃ fault, read text = .error fault) ↔ ∀ size, Spells text size → UInt64.size ≤ size) := by
  refine ⟨readSliced?_eq text, fun size => read_eq_ok, ?_, fun large => ?_⟩
  · -- a size that fits would have been read
    rintro ⟨fault, fails⟩ size spells
    refine Nat.le_of_not_lt fun fits => ?_
    have succeeds : read text = .ok (UInt64.ofNat size) :=
      read_eq_ok.mpr (by rwa [UInt64.toNat_ofNat_of_lt' fits])
    cases fails.symm.trans succeeds
  · cases h : read text with
    | error fault => exact ⟨fault, rfl⟩
    | ok size => exact absurd (large _ (read_eq_ok.mp h)) (Nat.not_le.mpr size.toNat_lt)

example : read "\u2003+16k\n" = .ok 16384 := by rfl

example : read "17179869184G" = .error (.tooLarge "17179869184G") := by rfl

end Size
end ExternalSort
