/-
  ExternalSort.Proofs.Text.Decimal

  What is read as a number.

  A text is read as a number exactly if it is made of digits, maybe behind a plus
  sign, and their value is below the bound. A value can only grow with more
  digits, so it does not matter that the bound is looked at after each of them.
-/

import ExternalSort.Text.Blank
import ExternalSort.Text.Decimal

namespace ExternalSort

namespace Decimal

/-- Text that stands for a number: digits, maybe behind a plus sign. -/
inductive Numeral : List Char → Nat → Prop
  | plain {digits : List Char} (some : digits ≠ []) (all : ∀ c ∈ digits, c.isDigit = true) :
      Numeral digits (Nat.ofDigitChars 10 digits 0)
  | signed {digits : List Char} (some : digits ≠ []) (all : ∀ c ∈ digits, c.isDigit = true) :
      Numeral ('+' :: digits) (Nat.ofDigitChars 10 digits 0)

/-! ## Digits -/

theorem digit?_of_isDigit {c : Char} (h : c.isDigit = true) :
    digit? c = some (c.toNat - '0'.toNat) := by
  simp only [Char.isDigit, Bool.and_eq_true, decide_eq_true_eq] at h
  exact if_pos h

theorem digit?_of_not_isDigit {c : Char} (h : c.isDigit = false) : digit? c = none := by
  refine if_neg fun within => ?_
  have digit : c.isDigit = true := by
    simp only [Char.isDigit, Bool.and_eq_true, decide_eq_true_eq]
    exact within
  rw [digit] at h
  exact Bool.noConfusion h

/-- More digits make no number less. -/
theorem le_ofDigitChars (digits : List Char) (acc : Nat) : acc ≤ Nat.ofDigitChars 10 digits acc := by
  induction digits generalizing acc with
  | nil => exact Nat.le_refl acc
  | cons c rest ih =>
    rw [Nat.ofDigitChars_cons]
    have more := ih (10 * acc + (c.toNat - '0'.toNat))
    omega

theorem readDigits_eq_ok {bound acc n : Nat} {digits : List Char} (below : acc < bound) :
    readDigits bound acc digits = .ok n ↔
      (∀ c ∈ digits, c.isDigit = true) ∧ Nat.ofDigitChars 10 digits acc = n ∧ n < bound := by
  induction digits generalizing acc with
  | nil =>
    rw [readDigits, Nat.ofDigitChars_nil, Except.ok.injEq]
    constructor
    · rintro rfl
      exact ⟨by simp, rfl, below⟩
    · exact fun h => h.2.1
  | cons c rest ih =>
    rw [readDigits, List.forall_mem_cons, Nat.ofDigitChars_cons, Nat.mul_comm 10]
    cases digit : c.isDigit with
    | false =>
      rw [digit?_of_not_isDigit digit]
      constructor
      · intro h
        cases h
      · exact fun h => absurd h.1.1 Bool.false_ne_true
    | true =>
      rw [digit?_of_isDigit digit]
      -- a number that has become too large only grows
      by_cases fits : acc * 10 + (c.toNat - '0'.toNat) < bound
      · have rest := ih fits
        simpa only [fits, if_true, true_and] using rest
      · have large := le_ofDigitChars rest (acc * 10 + (c.toNat - '0'.toNat))
        simp only [fits, if_false]
        constructor
        · intro h
          cases h
        · rintro ⟨-, rfl, small⟩
          omega

theorem not_isDigit_sign : ('+' : Char).isDigit = false := rfl

/-- Digits without a sign in front are read as their value. -/
theorem readDigits_eq_numeral {bound n : Nat} {c : Char} {rest : List Char} (positive : 0 < bound)
    (plain : c ≠ '+') :
    readDigits bound 0 (c :: rest) = .ok n ↔ Numeral (c :: rest) n ∧ n < bound := by
  rw [readDigits_eq_ok positive]
  constructor
  · rintro ⟨all, rfl, below⟩
    exact ⟨.plain (List.cons_ne_nil c rest) all, below⟩
  · rintro ⟨numeral, below⟩
    cases numeral with
    | plain _ all => exact ⟨all, rfl, below⟩
    | signed _ _ => exact absurd rfl plain

/-- Digits with a sign in front are read as their value. -/
theorem readDigits_eq_signed {bound n : Nat} {c : Char} {rest : List Char} (positive : 0 < bound) :
    readDigits bound 0 (c :: rest) = .ok n ↔ Numeral ('+' :: c :: rest) n ∧ n < bound := by
  rw [readDigits_eq_ok positive]
  constructor
  · rintro ⟨all, rfl, below⟩
    exact ⟨.signed (List.cons_ne_nil c rest) all, below⟩
  · rintro ⟨numeral, below⟩
    cases numeral with
    | plain _ all =>
      have digit := all _ List.mem_cons_self
      rw [not_isDigit_sign] at digit
      exact Bool.noConfusion digit
    | signed _ all => exact ⟨all, rfl, below⟩

/-- A sign alone is no numeral. -/
theorem not_numeral_sign (n : Nat) : ¬ Numeral ['+'] n := by
  intro numeral
  cases numeral with
  | plain _ all =>
    have digit := all _ List.mem_cons_self
    rw [not_isDigit_sign] at digit
    exact Bool.noConfusion digit
  | signed some _ => exact some rfl

theorem Numeral.ne_nil {text : List Char} {n : Nat} (h : Numeral text n) : text ≠ [] := by
  cases h with
  | plain some _ => exact some
  | signed _ _ => exact List.cons_ne_nil _ _

/-- A numeral ends in a digit. -/
theorem Numeral.exists_getLast? {text : List Char} {n : Nat} (h : Numeral text n) :
    ∃ c, text.getLast? = some c ∧ c.isDigit = true := by
  cases h with
  | plain some all => exact ⟨_, List.getLast?_eq_some_getLast some, all _ (List.getLast_mem some)⟩
  | signed some all =>
    refine ⟨_, ?_, all _ (List.getLast_mem some)⟩
    rw [List.getLast?_cons, List.getLast?_eq_some_getLast some, Option.getD_some]

/-- Exactly the numerals with a value below the bound are read, as their value. -/
theorem read_eq_ok {bound n : Nat} {text : List Char} (positive : 0 < bound) :
    read bound text = .ok n ↔ Numeral text n ∧ n < bound := by
  -- a sign counts only in front of another character
  rcases text with _ | ⟨c, _ | ⟨d, rest⟩⟩
  · rw [read]
    constructor
    · intro h
      cases h
    · exact fun h => absurd rfl h.1.ne_nil
  · rw [read]
    by_cases plus : c = '+'
    · rw [if_pos plus, plus]
      constructor
      · intro h
        cases h
      · exact fun h => absurd h.1 (not_numeral_sign n)
    · rw [if_neg plus]
      exact readDigits_eq_numeral positive plus
  · rw [read.eq_def]
    dsimp only
    by_cases plus : c = '+'
    · rw [if_pos plus, plus]
      exact readDigits_eq_signed positive
    · rw [if_neg plus]
      exact readDigits_eq_numeral positive plus

/-! ## Written numbers -/

/-- A number is written as a numeral. -/
theorem numeral_repr (n : Nat) : Numeral (Nat.repr n).toList n := by
  have digits := Numeral.plain (Nat.toDigits_ne_nil (n := n) (b := 10)) fun c hc =>
    Nat.isDigit_of_mem_toDigits (by decide) (by decide) hc
  rwa [Nat.ofDigitChars_ten_toDigits, ← Nat.toList_repr] at digits

end Decimal

/-! ## White space -/

/-- Between 33 and 126 there is no white space. -/
theorem isBlank_of_visible {c : Char} (low : 32 < c.toNat) (high : c.toNat < 127) :
    isBlank c = false := by
  simp only [isBlank, Bool.or_eq_false_iff, Bool.and_eq_false_iff, beq_eq_false_iff_ne,
    decide_eq_false_iff_not]
  omega

/-- There is no white space in a numeral. -/
theorem Decimal.Numeral.isBlank_eq {text : List Char} {n : Nat} (h : Numeral text n) :
    ∀ c ∈ text, isBlank c = false := by
  have digit (c : Char) (h : c.isDigit = true) : isBlank c = false := by
    simp only [Char.isDigit, Bool.and_eq_true, decide_eq_true_eq] at h
    have low : 48 ≤ c.toNat := UInt32.le_iff_toNat_le.mp h.1
    have high : c.toNat ≤ 57 := UInt32.le_iff_toNat_le.mp h.2
    exact isBlank_of_visible (by omega) (by omega)
  cases h with
  | plain _ all => exact fun c hc => digit c (all c hc)
  | signed _ all => exact List.forall_mem_cons.mpr ⟨rfl, fun c hc => digit c (all c hc)⟩

/-- What is dropped ends where the first other element stands. -/
theorem dropWhile_append_of_all {α : Type} {p : α → Bool} {front text : List α}
    (all : ∀ c ∈ front, p c = true) (stop : ∀ c ∈ text.head?, p c = false) :
    (front ++ text).dropWhile p = text := by
  rw [List.dropWhile_append_of_pos all]
  cases text with
  | nil => rfl
  | cons c rest => exact List.dropWhile_cons_of_neg (by simp [stop c rfl])

/-- White space around a text is cut off. -/
theorem trimBlanks_of_all {left text right : List Char} (hleft : ∀ c ∈ left, isBlank c = true)
    (htext : ∀ c ∈ text, isBlank c = false) (some : text ≠ [])
    (hright : ∀ c ∈ right, isBlank c = true) : trimBlanks (left ++ text ++ right) = text := by
  -- the text is not empty, so neither end of it is taken for white space
  have front : (left ++ (text ++ right)).dropWhile isBlank = text ++ right := by
    obtain ⟨first, rest, rfl⟩ := List.exists_cons_of_ne_nil some
    refine dropWhile_append_of_all hleft fun c hc => htext c ?_
    obtain rfl := Option.some.inj hc
    exact List.mem_cons_self
  have back : (right.reverse ++ text.reverse).dropWhile isBlank = text.reverse := by
    refine dropWhile_append_of_all (fun c hc => hright c (List.mem_reverse.mp hc)) fun c hc => ?_
    exact htext c (List.mem_reverse.mp (List.mem_of_mem_head? hc))
  rw [trimBlanks, List.append_assoc, front, List.reverse_append, back, List.reverse_reverse]

/-- Only white space is cut off. -/
theorem exists_trimBlanks (text : List Char) :
    ∃ left right, text = left ++ trimBlanks text ++ right ∧ (∀ c ∈ left, isBlank c = true) ∧
      ∀ c ∈ right, isBlank c = true := by
  have dropped {l : List Char} : ∀ c ∈ l.takeWhile isBlank, isBlank c = true :=
    List.all_eq_true.mp List.all_takeWhile
  have split : trimBlanks text ++ ((text.dropWhile isBlank).reverse.takeWhile isBlank).reverse =
      text.dropWhile isBlank := by
    rw [trimBlanks, ← List.reverse_append, List.takeWhile_append_dropWhile, List.reverse_reverse]
  refine ⟨text.takeWhile isBlank, ((text.dropWhile isBlank).reverse.takeWhile isBlank).reverse, ?_,
    dropped, fun c hc => dropped c (List.mem_reverse.mp hc)⟩
  rw [List.append_assoc, split, List.takeWhile_append_dropWhile]

end ExternalSort
