/-
  ExternalSort.Proofs.Json.Format

  The compact JSON format, told without a printer.

  A form is what a value may be written as. The forms say which characters of a
  string are escaped and how, which digits a number has, and where commas and
  colons stand. Each of them has exactly one text, which is the one that the
  printer makes.
-/

import ExternalSort.Proofs.Json.RoundTrip

namespace ExternalSort
namespace Json

/-- The texts that something may be written as. -/
abbrev Form := List Char → Prop

/-! ## Strings -/

/-- The characters with a short escape, and the letters that stand for them behind a backslash. -/
def shortEscapes : List (Char × Char) :=
  [('"', '"'), ('\\', '\\'), ('\x08', 'b'), ('\t', 't'), ('\n', 'n'), ('\x0c', 'f'), ('\r', 'r')]

/-- The digits of hexadecimal numbers. -/
def lowerHex : List Char := "0123456789abcdef".toList

/-- What a character is written as inside a string. -/
inductive CharForm : Char → Form
  | short {c letter : Char} (escape : shortEscapes.lookup c = some letter) :
      CharForm c ['\\', letter]
  | control {c high low : Char} (long : shortEscapes.lookup c = none) (control : c.toNat < 32)
      (first : lowerHex[c.toNat / 16]? = some high) (second : lowerHex[c.toNat % 16]? = some low) :
      CharForm c ['\\', 'u', '0', '0', high, low]
  | plain {c : Char} (whole : shortEscapes.lookup c = none) (printable : 32 ≤ c.toNat) :
      CharForm c [c]

/-- What characters are written as, one behind the other. -/
inductive CharForms : List Char → Form
  | nil : CharForms [] []
  | cons {c : Char} {cs form forms : List Char} (first : CharForm c form)
      (others : CharForms cs forms) : CharForms (c :: cs) (form ++ forms)

/-- What a text is written as. -/
inductive TextForm (s : String) : Form
  | quoted {forms : List Char} (inside : CharForms s.toList forms) :
      TextForm s ('"' :: (forms ++ ['"']))

theorem escapeChar_of_lookup_eq_some {c letter : Char} (h : shortEscapes.lookup c = some letter) :
    escapeChar c = ['\\', letter] := by
  have listed : (c, letter) ∈ shortEscapes := by
    obtain ⟨l, r, eq, -⟩ := List.lookup_eq_some_iff.mp h
    simp [eq]
  simp only [shortEscapes, List.mem_cons, Prod.mk.injEq, List.not_mem_nil, or_false] at listed
  rcases listed with ⟨rfl, rfl⟩ | ⟨rfl, rfl⟩ | ⟨rfl, rfl⟩ | ⟨rfl, rfl⟩ | ⟨rfl, rfl⟩ | ⟨rfl, rfl⟩ |
    ⟨rfl, rfl⟩ <;> rfl

theorem escapeChar_of_lookup_eq_none {c : Char} (h : shortEscapes.lookup c = none) :
    escapeChar c = if c.toNat < 32 then
      ['\\', 'u', '0', '0', hexDigit (c.toNat / 16), hexDigit (c.toNat % 16)] else [c] := by
  have other := List.lookup_eq_none_iff.mp h
  simp only [shortEscapes, List.forall_mem_cons, bne_iff_ne] at other
  obtain ⟨quote, slash, backspace, tab, newline, feed, return_, -⟩ := other
  rw [escapeChar, if_neg quote, if_neg slash, if_neg newline, if_neg return_, if_neg tab,
    if_neg backspace, if_neg feed]

theorem getElem?_lowerHex : ∀ n < 16, lowerHex[n]? = some (hexDigit n) := by decide

theorem charForm_iff {c : Char} {form : List Char} : CharForm c form ↔ form = escapeChar c := by
  constructor
  · -- one case for each form, and one for each branch of the printer
    intro h
    cases h with
    | short escape => exact (escapeChar_of_lookup_eq_some escape).symm
    | control long control first second =>
      rw [getElem?_lowerHex _ (by omega)] at first second
      obtain rfl := Option.some.inj first
      obtain rfl := Option.some.inj second
      rw [escapeChar_of_lookup_eq_none long, if_pos control]
    | plain whole printable =>
      rw [escapeChar_of_lookup_eq_none whole, if_neg (Nat.not_lt.mpr printable)]
  · rintro rfl
    cases h : shortEscapes.lookup c with
    | some letter =>
      rw [escapeChar_of_lookup_eq_some h]
      exact .short h
    | none =>
      rw [escapeChar_of_lookup_eq_none h]
      split
      · exact .control h ‹_› (getElem?_lowerHex _ (by omega)) (getElem?_lowerHex _ (by omega))
      · exact .plain h (Nat.le_of_not_lt ‹_›)

theorem charForms_iff {cs forms : List Char} :
    CharForms cs forms ↔ forms = cs.flatMap escapeChar := by
  constructor
  · intro h
    induction h with
    | nil => rfl
    | cons first _ ih => rw [List.flatMap_cons, charForm_iff.mp first, ih]
  · rintro rfl
    induction cs with
    | nil => exact .nil
    | cons c cs ih =>
      rw [List.flatMap_cons]
      exact .cons (charForm_iff.mpr rfl) ih

theorem textForm_iff {s : String} {form : List Char} : TextForm s form ↔ form = quoted s.toList := by
  constructor
  · rintro ⟨inside⟩
    rw [charForms_iff.mp inside, quoted]
  · rintro rfl
    exact .quoted (charForms_iff.mpr rfl)

/-! ## Numbers -/

/-- What a natural number is written as: its decimal digits, without zeros in front. -/
structure NumberForm (n : Nat) (form : List Char) : Prop where
  nonempty : form ≠ []
  digits : ∀ c ∈ form, c.isDigit = true
  value : Nat.ofDigitChars 10 form 0 = n
  short : form.head? = some '0' → form = ['0']

/-- A digit is the one of its value. -/
theorem digitChar_of_isDigit {c : Char} (digit : c.isDigit = true) :
    Nat.digitChar (c.toNat - '0'.toNat) = c ∧ c.toNat - '0'.toNat < 10 := by
  simp only [Char.isDigit, Bool.and_eq_true, decide_eq_true_eq] at digit
  have low : 48 ≤ c.toNat := UInt32.le_iff_toNat_le.mp digit.1
  have high : c.toNat ≤ 57 := UInt32.le_iff_toNat_le.mp digit.2
  have zero : '0'.toNat = 48 := rfl
  have small : c.toNat - '0'.toNat < 10 := by omega
  refine ⟨Char.toNat_inj.mp ?_, small⟩
  rw [Nat.toNat_digitChar_of_lt_ten small]
  omega

/-- Digits behind those of a positive number are the digits of the number that all of them make. -/
theorem toDigits_append {acc : Nat} (pos : 0 < acc) {digits : List Char}
    (all : ∀ c ∈ digits, c.isDigit = true) :
    Nat.toDigits 10 acc ++ digits = Nat.toDigits 10 (Nat.ofDigitChars 10 digits acc) := by
  -- what was read stays positive with every digit, so no zero in front gets lost
  induction digits generalizing acc with
  | nil => rw [List.append_nil, Nat.ofDigitChars_nil]
  | cons c rest ih =>
    obtain ⟨here, others⟩ := List.forall_mem_cons.mp all
    obtain ⟨same, small⟩ := digitChar_of_isDigit here
    have longer := Nat.toDigits_append_toDigits (b := 10) (by decide) pos small
    rw [Nat.toDigits_of_lt_base small, same] at longer
    calc Nat.toDigits 10 acc ++ c :: rest = (Nat.toDigits 10 acc ++ [c]) ++ rest := by simp
      _ = Nat.toDigits 10 (10 * acc + (c.toNat - '0'.toNat)) ++ rest := by rw [longer]
      _ = Nat.toDigits 10 (Nat.ofDigitChars 10 (c :: rest) acc) := by
        rw [ih (by omega) others, Nat.ofDigitChars_cons]

theorem numberForm_iff {n : Nat} {form : List Char} :
    NumberForm n form ↔ form = Nat.toDigits 10 n := by
  constructor
  · rintro ⟨nonempty, digits, rfl, short⟩
    obtain ⟨c, rest, rfl⟩ := List.exists_cons_of_ne_nil nonempty
    obtain ⟨here, others⟩ := List.forall_mem_cons.mp digits
    obtain ⟨same, small⟩ := digitChar_of_isDigit here
    -- a zero in front stands alone, and behind any other digit the number is positive
    by_cases zero : c = '0'
    · rw [short (by rw [zero]; rfl)]
      rfl
    · have pos : 0 < c.toNat - '0'.toNat := by
        refine Nat.pos_of_ne_zero fun none => zero ?_
        rw [← same, none]
        rfl
      have whole := toDigits_append pos others
      rw [Nat.toDigits_of_lt_base small, same] at whole
      rw [Nat.ofDigitChars_cons]
      simpa using whole
  · rintro rfl
    refine ⟨Nat.toDigits_ne_nil, fun c hc => ?_, Nat.ofDigitChars_ten_toDigits, fun zero => ?_⟩
    · exact Nat.isDigit_of_mem_toDigits (by decide) (by decide) hc
    · rcases Nat.eq_zero_or_pos n with rfl | pos
      · rfl
      · exact absurd zero (head?_toDigits_ne pos)

/-! ## Arrays and records -/

/-- What items are written as, with a comma between neighbours. -/
inductive ItemForms : List Form → Form
  | nil : ItemForms [] []
  | single {Item : Form} {text : List Char} (only : Item text) : ItemForms [Item] text
  | cons {Item Next : Form} {Rest : List Form} {text texts : List Char} (first : Item text)
      (others : ItemForms (Next :: Rest) texts) :
      ItemForms (Item :: Next :: Rest) (text ++ ',' :: texts)

/-- What an array is written as. -/
inductive ArrayForm (Items : List Form) : Form
  | brackets {texts : List Char} (inside : ItemForms Items texts) :
      ArrayForm Items ('[' :: (texts ++ [']']))

/-- What a field of a record is written as: its name, and its value behind a colon. -/
inductive FieldForm (name : String) (Value : Form) : Form
  | named {key text : List Char} (left : TextForm name key) (right : Value text) :
      FieldForm name Value (key ++ ':' :: text)

/-- What a record is written as: its fields in their order. -/
inductive RecordForm (fields : List (String × Form)) : Form
  | braces {texts : List Char}
      (inside : ItemForms (fields.map fun field => FieldForm field.1 field.2) texts) :
      RecordForm fields ('\x7b' :: (texts ++ ['\x7d']))

section

variable {ι : Type} {ItemForm : ι → Form} {text : ι → List Char} {items : List ι}

theorem itemForms_iff (one : ∀ i ∈ items, ∀ t, ItemForm i t ↔ t = text i) {texts : List Char} :
    ItemForms (items.map ItemForm) texts ↔ texts = [','].intercalate (items.map text) := by
  induction items generalizing texts with
  | nil =>
    constructor
    · rintro ⟨⟩
      rfl
    · rintro rfl
      exact .nil
  | cons i rest ih =>
    obtain ⟨here, others⟩ := List.forall_mem_cons.mp one
    -- a comma stands between two items, so the rest is looked into as well
    cases rest with
    | nil =>
      rw [List.map_singleton, List.map_singleton, List.intercalate_singleton, ← here]
      constructor
      · rintro ⟨⟩
        assumption
      · exact .single
    | cons j rest =>
      simp only [List.map_cons, List.intercalate_cons_cons] at ih ⊢
      constructor
      · rintro ⟨⟩
        rename_i first others'
        rw [(here _).mp first, (ih others).mp others']
        simp
      · rintro rfl
        simpa using ItemForms.cons ((here _).mpr rfl) ((ih others).mpr rfl)

end

theorem compactItems_eq (items : List Json) :
    compactItems items = [','].intercalate (items.map compact) ++ [']'] := by
  induction items with
  | nil => rfl
  | cons item rest ih =>
    cases rest with
    | nil => rw [compactItems_singleton, List.map_singleton, List.intercalate_singleton]
    | cons next rest =>
      rw [compactItems_cons, ih]
      simp [List.intercalate_cons_cons]

/-- What a field is written as by the printer. -/
def compactField (field : String × Json) : List Char :=
  quoted field.1.toList ++ ':' :: field.2.compact

theorem compactFields_eq (fields : List (String × Json)) :
    compactFields (fields.map fun field => (some field.1.toList, field.2)) =
      [','].intercalate (fields.map compactField) ++ ['\x7d'] := by
  induction fields with
  | nil => rfl
  | cons field rest ih =>
    cases rest with
    | nil =>
      simp [compactFields_singleton, compactField]
    | cons next rest =>
      simp only [List.map_cons, compactFields_cons, List.intercalate_cons_cons] at ih ⊢
      rw [ih]
      simp [compactField]

/-- An array has one form if its items have. -/
theorem arrayForm_iff {α : Type} {ItemForm : α → Form} {json : α → Json} {items : List α}
    (one : ∀ a ∈ items, ∀ t, ItemForm a t ↔ t = (json a).compact) {text : List Char} :
    ArrayForm (items.map ItemForm) text ↔ text = (array (items.map json)).compact := by
  rw [compact_array, compactItems_eq, List.map_map]
  constructor
  · rintro ⟨inside⟩
    rw [(itemForms_iff one).mp inside]
    rfl
  · rintro rfl
    exact .brackets ((itemForms_iff one).mpr rfl)

/-- A record has one form if its values have. -/
theorem recordForm_iff {fields : List (String × Form × Json)}
    (one : ∀ field ∈ fields, ∀ t, field.2.1 t ↔ t = field.2.2.compact) {text : List Char} :
    RecordForm (fields.map fun field => (field.1, field.2.1)) text ↔
      text = (record (fields.map fun field => (field.1, field.2.2))).compact := by
  have each : ∀ field ∈ fields, ∀ t,
      FieldForm field.1 field.2.1 t ↔ t = compactField (field.1, field.2.2) := by
    intro field hfield t
    constructor
    · rintro ⟨left, right⟩
      rw [textForm_iff.mp left, (one field hfield _).mp right, compactField]
    · rintro rfl
      exact .named (textForm_iff.mpr rfl) ((one field hfield _).mpr rfl)
  rw [record, compact_object, compactFields_eq, List.map_map]
  constructor
  · rintro ⟨inside⟩
    rw [List.map_map] at inside
    rw [(itemForms_iff each).mp inside]
    rfl
  · rintro rfl
    refine .braces ?_
    rw [List.map_map]
    exact (itemForms_iff each).mpr rfl

end Json
end ExternalSort
